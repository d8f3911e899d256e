import Mathlib.Logic.Relation
import LinearScan.Allocator

/-!
# `SplitAt` and `SplitBetween`: where a range is cut and what each piece keeps

`SplitAt(p)` (linearscan.cc 1988–2049) walks the interval list from the
finger's pending interval, or from the first interval when `p` lies at or
before that one, up to the first interval that ends after `p`. It cuts that
interval in two when it starts before `p`, and otherwise hands it whole to the
new sibling. `SplitListOfPositions` (lines 1961–1986) cuts the uses and the
safepoints: those at `p` stay in the head unless `p` starts an interval.
`UpdateAfterSplit` (lines 1925–1935) drops the finger's cached uses that moved.

`SplitBetween(range, from, to)` (lines 2051–2116) picks the position:

> when `[from, to)` crosses blocks, the start of `to`'s block, moved back to
> the header of each enclosing loop whose header comes after `from`; otherwise
> the end of the instruction before `to`.

`splitParts_cut` says once what the walk finds on ordered intervals. The
contract of `SplitAt` (`SplitContract`) is read off it. The position of
`SplitBetween` is read off the loop order (`LoopOrder`), which is what a block
order with each loop header before the blocks of its loop gives.

Mirroring notes vs the C++ source:
- The interval list is cut as `A ++ iv :: B`. The C++ code shortens `iv` in
  place and links a new interval after it; the model builds the two lists.
- The climb of `SplitBetween` runs at most `numLoops + 1` times. When headers
  strictly decrease outwards and loop ids are below `numLoops`, it never runs
  out (`climbLoopHeaders_spec`), as the C++ `while` loop would not.
-/

namespace LinearScan

/-! ## The interval walk -/

/-- The interval index `SplitAt` stops its walk at. -/
def LiveRange.splitIndex (r : LiveRange) (splitPos : Nat) : Nat :=
  splitIndexFrom r.intervals splitPos (r.splitWalkStart splitPos) r.intervals.length

/-- The range's cover holds `pos`: some use interval contains it. -/
def LiveRange.covers (r : LiveRange) (pos : Nat) : Bool := r.intervals.any (·.contains pos)

/-- The walk of `SplitAt` passes only intervals that end by the split position,
and stops at one that ends after it. -/
theorem splitIndexFrom_spec (ivs : List UseInterval) (splitPos : Nat) :
    ∀ n w, ivs.length ≤ w + n →
      (∀ i (hi : i < ivs.length), w ≤ i → i < splitIndexFrom ivs splitPos w n →
        ivs[i].stop ≤ splitPos) ∧
      ∀ iv, ivs[splitIndexFrom ivs splitPos w n]? = some iv → splitPos < iv.stop
  | 0, w, hn => ⟨fun i hi hw hk => absurd hk (by simp [splitIndexFrom]; omega),
      fun iv hiv => absurd (List.getElem?_eq_some_iff.1 hiv).1 (by simp [splitIndexFrom]; omega)⟩
  | n + 1, w, hn => by
    unfold splitIndexFrom
    rw [List.get?_eq_getElem?]
    by_cases hw : w < ivs.length
    · rw [List.getElem?_eq_getElem hw]
      dsimp only
      split_ifs with hstop
      · obtain ⟨ih₁, ih₂⟩ := splitIndexFrom_spec ivs splitPos n (w + 1) (by omega)
        refine ⟨fun i hi hwi hik => ?_, ih₂⟩
        rcases Nat.eq_or_lt_of_le hwi with rfl | hlt
        · exact hstop
        · exact ih₁ i hi hlt hik
      · refine ⟨fun i _ hwi hik => absurd hik (by omega), fun iv hiv => ?_⟩
        rw [List.getElem?_eq_getElem hw, Option.some.injEq] at hiv
        exact hiv ▸ Nat.lt_of_not_le hstop
    · rw [List.getElem?_eq_none (Nat.le_of_not_lt hw)]
      exact ⟨fun i hi _ hik => absurd hi (by omega),
        fun iv hiv => absurd (List.getElem?_eq_some_iff.1 hiv).1 hw⟩

/-- The interval at the split index ends after the split position. -/
theorem splitIndex_after {r : LiveRange} (splitPos : Nat)
    (hk : r.splitIndex splitPos < r.intervals.length) :
    splitPos < r.intervals[r.splitIndex splitPos].stop :=
  (splitIndexFrom_spec r.intervals splitPos r.intervals.length (r.splitWalkStart splitPos)
    (by omega)).2 _ (List.getElem?_eq_getElem hk)

theorem IntervalsAscending.stop_le_start {ivs : List UseInterval} (h : IntervalsAscending ivs)
    {i j : Nat} (hi : i < ivs.length) (hj : j < ivs.length) (hij : i < j) :
    ivs[i].stop ≤ ivs[j].start :=
  List.pairwise_iff_getElem.1 h.2 i j hi hj hij

theorem IntervalsAscending.sublist {l l' : List UseInterval} (h : IntervalsAscending l')
    (hs : l.Sublist l') : IntervalsAscending l :=
  ⟨fun x hx => h.1 x (hs.subset hx), h.2.sublist hs⟩

/-- On ordered intervals, those before the split index end by the split
position: the ones the walk passed, and the ones before the finger's
interval. -/
theorem splitIndex_stop_le {r : LiveRange} (hr : IntervalsAscending r.intervals) (splitPos : Nat)
    {i : Nat} (hi : i < r.intervals.length) (hik : i < r.splitIndex splitPos) :
    r.intervals[i].stop ≤ splitPos := by
  have hwalk := (splitIndexFrom_spec r.intervals splitPos r.intervals.length
    (r.splitWalkStart splitPos) (by omega)).1
  by_cases hw : r.splitWalkStart splitPos ≤ i
  · exact hwalk i hi hw hik
  · unfold LiveRange.splitWalkStart at hw
    split at hw
    · next k₀ _ =>
      rw [List.get?_eq_getElem?] at hw
      split at hw
      · next iv₀ hiv₀ =>
        split_ifs at hw with hstart
        · omega
        · obtain ⟨hk₀, hget⟩ := List.getElem?_eq_some_iff.1 hiv₀
          have := hr.stop_le_start hi hk₀ (by omega)
          rw [hget] at this
          omega
      · omega
    · omega

/-! ## The cut -/

/-- Where `SplitAt(p)` leaves a use or safepoint at `pos` in the head: before
`p`, or at `p` unless an interval of the range starts at `p`. -/
def LiveRange.keepsAt (r : LiveRange) (p pos : Nat) : Bool :=
  decide (pos < p) || (decide (pos = p) && !r.intervals.any (·.start == p))

/-- A prefix walk over a list whose test, once it fails along the order, keeps
failing, is a filter: it takes what the test accepts and leaves the rest. -/
theorem takeWhile_eq_filter {α : Type} {keep : α → Bool} {R : α → α → Prop}
    (hmono : ∀ a b, R a b → keep b = true → keep a = true) :
    ∀ {l : List α}, l.Pairwise R →
      l.takeWhile keep = l.filter keep ∧ l.dropWhile keep = l.filter fun x => !keep x
  | [], _ => ⟨rfl, rfl⟩
  | a :: l, hl => by
    obtain ⟨ha, hl⟩ := List.pairwise_cons.1 hl
    obtain ⟨ih₁, ih₂⟩ := takeWhile_eq_filter hmono hl
    by_cases hk : keep a = true
    · simp [List.takeWhile_cons, List.dropWhile_cons, List.filter_cons, hk, ih₁, ih₂]
    · have hrest : ∀ x ∈ l, keep x = false := fun x hx =>
        Bool.eq_false_iff.2 fun hx' => hk (hmono a x (ha x hx) hx')
      have h₁ : l.filter keep = [] := List.filter_eq_nil_iff.2 fun x hx => by simp [hrest x hx]
      have h₂ : (l.filter fun x => !keep x) = l := List.filter_eq_self.2 fun x hx => by simp [hrest x hx]
      simp [List.takeWhile_cons, List.dropWhile_cons, List.filter_cons, hk, h₁, h₂]

/-- On a list in position order, `SplitListOfPositions` is a filter. -/
theorem splitListOfPositions_eq_filter {α : Type} (posOf : α → Nat) {l : List α}
    (hl : l.Pairwise fun a b => posOf a ≤ posOf b) (splitPos : Nat) (splitAtStart : Bool) :
    (splitListOfPositions posOf l splitPos splitAtStart).1 = l.filter (fun x =>
        if splitAtStart then decide (posOf x < splitPos) else decide (posOf x ≤ splitPos)) ∧
      (splitListOfPositions posOf l splitPos splitAtStart).2 = l.filter (fun x =>
        !if splitAtStart then decide (posOf x < splitPos) else decide (posOf x ≤ splitPos)) := by
  simp only [splitListOfPositions, List.span_eq_take_drop]
  refine takeWhile_eq_filter (fun a b hab hb => ?_) hl
  split_ifs at hb ⊢ <;> simp at hb ⊢ <;> omega

/-- An ordered list around one of its intervals: what lies before it ends by
its start, what lies after it starts after its end. -/
theorem IntervalsAscending.around {A B : List UseInterval} {iv : UseInterval}
    (h : IntervalsAscending (A ++ iv :: B)) :
    iv.start < iv.stop ∧ (∀ x ∈ A, x.stop ≤ iv.start) ∧ ∀ x ∈ B, iv.stop ≤ x.start := by
  obtain ⟨-, -, hAB⟩ := List.pairwise_append.1 h.2
  exact ⟨h.1 iv (by simp), fun x hx => hAB x hx iv (List.mem_cons_self _ _),
    (List.pairwise_cons.1 (List.pairwise_append.1 h.2).2.1).1⟩

section Cut
variable {r : LiveRange} (hr : IntervalsAscending r.intervals) {p : Nat}
  (hp : r.start < p ∧ p < r.stop)
include hr hp

/-- Strictly inside the range, the walk stops at an interval. -/
theorem splitIndex_lt_length : r.splitIndex p < r.intervals.length := by
  by_contra hk
  have hlen : 0 < r.intervals.length := by
    rcases h : r.intervals with _ | ⟨iv, ivs⟩
    · simp [LiveRange.stop, h] at hp
    · simp
  have hlast := splitIndex_stop_le hr p (i := r.intervals.length - 1) (by omega) (by omega)
  have hstop : r.stop = r.intervals[r.intervals.length - 1].stop := by
    simp [LiveRange.stop, List.getLast?_eq_getElem?, List.getElem?_eq_getElem (by omega : r.intervals.length - 1 < r.intervals.length)]
  omega

/-- What `SplitAt(p)` does to the intervals, said once: the list is
`A ++ iv :: B`, where `A` ends by `p` and `iv` ends after it. `iv` is cut in two
when it starts before `p`, and goes to the sibling whole otherwise. -/
theorem splitParts_cut (n : Nat) :
    ∃ A iv B, r.intervals = A ++ iv :: B ∧ (∀ x ∈ A, x.stop ≤ p) ∧ p < iv.stop ∧
      r.intervals.getD (r.splitIndex p) ⟨0, 0⟩ = iv ∧
      ((iv.start < p ∧ (r.splitParts p n).1.intervals = A ++ [⟨iv.start, p⟩] ∧
          (r.splitParts p n).2.intervals = ⟨p, iv.stop⟩ :: B) ∨
        (p ≤ iv.start ∧ (r.splitParts p n).1.intervals = A ∧
          (r.splitParts p n).2.intervals = iv :: B)) := by
  have hk := splitIndex_lt_length hr hp
  have hafter := splitIndex_after p hk
  have hiv : r.intervals.getD (r.splitIndex p) ⟨0, 0⟩ = r.intervals[r.splitIndex p] := by
    simp [List.getD_eq_getElem?_getD, hk]
  refine ⟨r.intervals.take (r.splitIndex p), r.intervals[r.splitIndex p],
    r.intervals.drop (r.splitIndex p + 1),
    by rw [← List.drop_eq_getElem_cons hk, List.take_append_drop], fun x hx => ?_, hafter, hiv, ?_⟩
  · obtain ⟨i, hi, rfl⟩ := List.mem_take_iff_getElem.1 hx
    exact splitIndex_stop_le hr p (Nat.lt_min.1 hi).2 (Nat.lt_min.1 hi).1
  · have e : splitIndexFrom r.intervals p (r.splitWalkStart p) r.intervals.length =
        r.splitIndex p := rfl
    simp only [LiveRange.splitParts, e, hiv]
    by_cases hs : r.intervals[r.splitIndex p].start < p
    · rw [if_pos (by simp [UseInterval.contains, hs.ne, hs.le, hafter])]
      exact .inl ⟨hs, rfl, rfl⟩
    · rw [if_neg (by simp [UseInterval.contains]; omega)]
      exact .inr ⟨by omega, rfl, List.drop_eq_getElem_cons hk⟩

omit hp in
/-- What lies after the cut interval starts after the split position. -/
theorem cut_after {A B : List UseInterval} {iv : UseInterval} (he : r.intervals = A ++ iv :: B)
    (hiv : p < iv.stop) : ∀ x ∈ B, p < x.start :=
  fun x hx => hiv.trans_le ((he ▸ hr).around.2.2 x hx)

/-- The head covers what the range covered before `p`. -/
theorem splitParts_head_cover (n q : Nat) :
    intervalsCover (r.splitParts p n).1.intervals q = true ↔
      intervalsCover r.intervals q = true ∧ q < p := by
  obtain ⟨A, iv, B, he, hA, hiv, -, hcut⟩ := splitParts_cut hr hp n
  have hAq : intervalsCover A q = true → q < p := lt_of_intervalsCover hA
  have hBq : intervalsCover B q = true → p < q := gt_of_intervalsCover (cut_after hr he hiv)
  rw [he]
  rcases hcut with ⟨hs, h, -⟩ | ⟨hs, h, -⟩ <;> rw [h] <;>
    by_cases ha : intervalsCover A q = true <;> by_cases hb : intervalsCover B q = true <;>
    simp [ha, hb, UseInterval.contains] at hAq hBq ⊢ <;> omega

/-- The sibling covers what the range covered from `p` on. -/
theorem splitParts_tail_cover (n q : Nat) :
    intervalsCover (r.splitParts p n).2.intervals q = true ↔
      intervalsCover r.intervals q = true ∧ p ≤ q := by
  obtain ⟨A, iv, B, he, hA, hiv, -, hcut⟩ := splitParts_cut hr hp n
  have hAq : intervalsCover A q = true → q < p := lt_of_intervalsCover hA
  have hBq : intervalsCover B q = true → p < q := gt_of_intervalsCover (cut_after hr he hiv)
  rw [he]
  rcases hcut with ⟨hs, -, h⟩ | ⟨hs, -, h⟩ <;> rw [h] <;>
    by_cases ha : intervalsCover A q = true <;> by_cases hb : intervalsCover B q = true <;>
    simp [ha, hb, UseInterval.contains] at hAq hBq ⊢ <;> omega

/-- Both pieces are non-empty and ordered. -/
theorem splitParts_wf (n : Nat) :
    ((r.splitParts p n).1.intervals ≠ [] ∧ IntervalsAscending (r.splitParts p n).1.intervals) ∧
      ((r.splitParts p n).2.intervals ≠ [] ∧ IntervalsAscending (r.splitParts p n).2.intervals) := by
  obtain ⟨A, iv, B, he, -, hiv, -, hcut⟩ := splitParts_cut hr hp n
  have hX := he ▸ hr
  obtain ⟨-, hAiv, hivB⟩ := hX.around
  have hA : IntervalsAscending A := hX.sublist (List.sublist_append_left _ _)
  have hB : IntervalsAscending (iv :: B) := hX.sublist (List.sublist_append_right _ _)
  rcases hcut with ⟨hs, h₁, h₂⟩ | ⟨hs, h₁, h₂⟩ <;> rw [h₁, h₂]
  · refine ⟨⟨by simp, fun x hx => ?_, List.pairwise_append.2 ⟨hA.2, List.pairwise_singleton _ _,
      fun a ha b hb => ?_⟩⟩, ⟨by simp, fun x hx => ?_, List.pairwise_cons.2 ⟨fun b hb => ?_, hB.of_cons.2⟩⟩⟩
    · rcases List.mem_append.1 hx with hx | hx
      · exact hA.1 x hx
      · rw [List.mem_singleton.1 hx]; exact hs
    · rw [List.mem_singleton.1 hb]; exact hAiv a ha
    · rcases List.mem_cons.1 hx with rfl | hx
      · exact hiv
      · exact hB.1 x (List.mem_cons_of_mem _ hx)
    · exact hivB b hb
  · refine ⟨⟨fun hA₀ => ?_, hA⟩, ⟨by simp, hB⟩⟩
    subst hA₀
    simp only [LiveRange.start, he, List.nil_append, List.head?_cons, Option.map_some',
      Option.getD_some] at hp
    omega

/-- `r.End() <= p <= t.Start()`, and the sibling ends where the range did. -/
theorem splitParts_bounds (n : Nat) :
    (r.splitParts p n).1.stop ≤ p ∧ p ≤ (r.splitParts p n).2.start ∧
      (r.splitParts p n).2.stop = r.stop := by
  have hne := (splitParts_wf hr hp n).1.1
  obtain ⟨A, iv, B, he, hA, -, -, hcut⟩ := splitParts_cut hr hp n
  have hlast : ∀ y : UseInterval, y.stop = iv.stop → (r.splitParts p n).2.intervals = y :: B →
      (r.splitParts p n).2.stop = r.stop := by
    intro y hy h
    simp only [LiveRange.stop, h, he, List.getLast?_append_of_ne_nil _ (List.cons_ne_nil _ _),
      List.getLast?_cons]
    cases B.getLast? <;> simp [hy]
  rcases hcut with ⟨hs, h₁, h₂⟩ | ⟨hs, h₁, h₂⟩
  · exact ⟨by simp [LiveRange.stop, h₁], by simp [LiveRange.start, h₂], hlast ⟨p, iv.stop⟩ rfl h₂⟩
  · rw [h₁] at hne
    refine ⟨?_, by simpa [LiveRange.start, h₂] using hs, hlast _ rfl h₂⟩
    simpa [LiveRange.stop, h₁, List.getLast?_eq_getLast A hne] using hA _ (List.getLast_mem hne)

/-- `SplitAt` splits at an interval's start exactly when `p` starts an interval. -/
theorem splitParts_atStart :
    ((r.intervals.getD (r.splitIndex p) ⟨0, 0⟩).start == p) = r.intervals.any (·.start == p) := by
  obtain ⟨A, iv, B, he, hA, hiv, hget, -⟩ := splitParts_cut hr hp 0
  obtain ⟨hlt, -, -⟩ := (he ▸ hr).around
  have hAs : ∀ x ∈ A, x.start ≠ p := fun x hx =>
    (Nat.lt_of_lt_of_le ((he ▸ hr).1 x (by simp [hx])) (hA x hx)).ne
  have hBs : ∀ x ∈ B, x.start ≠ p := fun x hx => (cut_after hr he hiv x hx).ne'
  rw [hget, he]
  simp only [List.any_append, List.any_cons]
  rw [List.any_eq_false.2 fun x hx => by simpa using hAs x hx,
    List.any_eq_false.2 fun x hx => by simpa using hBs x hx]
  simp

/-- `SplitAt`'s cut of a list in position order keeps in the head exactly
what `keepsAt` accepts. -/
theorem splitListOfPositions_keepsAt {α : Type} (posOf : α → Nat) {l : List α}
    (hl : l.Pairwise fun a b => posOf a ≤ posOf b) :
    let cut := splitListOfPositions posOf l p ((r.intervals.getD (r.splitIndex p) ⟨0, 0⟩).start == p)
    cut.1 = l.filter (fun x => r.keepsAt p (posOf x)) ∧
      cut.2 = l.filter (fun x => !r.keepsAt p (posOf x)) := by
  have e : ∀ x, (if ((r.intervals.getD (r.splitIndex p) ⟨0, 0⟩).start == p) = true then
      decide (posOf x < p) else decide (posOf x ≤ p)) = r.keepsAt p (posOf x) := by
    intro x
    rw [splitParts_atStart hr hp, LiveRange.keepsAt]
    cases r.intervals.any (·.start == p) <;> rw [Bool.eq_iff_iff] <;> simp; omega
  simpa only [e] using splitListOfPositions_eq_filter posOf hl p
    ((r.intervals.getD (r.splitIndex p) ⟨0, 0⟩).start == p)

end Cut

/-- After a split of a range with uses in position order, the head's finger
caches no use that moved to the sibling. -/
theorem splitParts_finger {r : LiveRange} (hu : r.uses.Pairwise fun a b => a.pos ≤ b.pos)
    (p n k : Nat)
    (hk : (r.splitParts p n).1.finger.registerUse = some k ∨
      (r.splitParts p n).1.finger.registerBeneficialUse = some k) :
    k < r.uses.length → k < (r.splitParts p n).1.uses.length := by
  intro hkl
  have happ := splitParts_uses r p n
  revert hk happ
  simp only [LiveRange.splitParts]
  generalize splitListOfPositions (·.pos) r.uses p _ = L
  obtain ⟨head, tail⟩ := L
  intro hk happ
  dsimp only at hk happ ⊢
  cases tail with
  | nil => simpa [← happ] using hkl
  | cons u rest =>
    by_contra hm
    have hpos : (Finger.updateAfterSplit r.splitFinger r.uses u.pos).registerUse = some k ∨
        (Finger.updateAfterSplit r.splitFinger r.uses u.pos).registerBeneficialUse = some k →
        ((r.uses.get? k).map (·.pos)).getD 0 < u.pos := by
      intro h
      simp only [Finger.updateAfterSplit] at h
      rcases h with h | h <;> split at h <;> (try split_ifs at h) <;> simp_all
    have hlt := hpos hk
    rw [List.get?_eq_getElem?, List.getElem?_eq_getElem hkl] at hlt
    have hge : u.pos ≤ r.uses[k].pos := by
      have hm' : head.length ≤ k := Nat.le_of_not_lt hm
      have hu' := List.pairwise_iff_getElem.1 hu
      have hlen : head.length < r.uses.length := by rw [← happ]; simp
      have e : r.uses[head.length] = u := by
        simp only [← happ, List.getElem_append_right (le_refl _), Nat.sub_self, List.getElem_cons_zero]
      rcases Nat.eq_or_lt_of_le hm' with h | h
      · subst h; rw [e]
      · exact e ▸ hu' _ _ _ hkl h
    simp at hlt
    omega

/-! ## The contract of `SplitAt` -/

/-- What `SplitAt(p)` promises for a range `r` cut into the head `h`, which
keeps the range's identity, and the new sibling `t` with id `n`. -/
structure SplitContract (r h t : LiveRange) (p n : Nat) : Prop where
  /-- `r.next_sibling` is `t`, and `t.next_sibling` is `r`'s old one. -/
  linked : h.nextSibling = some n ∧ t.nextSibling = r.nextSibling
  /-- The head covers the old cover before `p`. -/
  head_cover : ∀ q, intervalsCover h.intervals q = true ↔ intervalsCover r.intervals q = true ∧ q < p
  /-- The sibling covers the old cover from `p` on. -/
  tail_cover : ∀ q, intervalsCover t.intervals q = true ↔ intervalsCover r.intervals q = true ∧ p ≤ q
  /-- Both pieces are non-empty and well formed. -/
  wf : (h.intervals ≠ [] ∧ IntervalsAscending h.intervals) ∧
    (t.intervals ≠ [] ∧ IntervalsAscending t.intervals)
  /-- `r.End() <= p <= t.Start()`, and `t.End()` is the old `End()`. -/
  bounds : h.stop ≤ p ∧ p ≤ t.start ∧ t.stop = r.stop
  /-- The uses are cut in order; those at `p` stay in the head unless `p`
  starts an interval. -/
  uses : h.uses ++ t.uses = r.uses ∧ h.uses = r.uses.filter (fun u => r.keepsAt p u.pos) ∧
    t.uses = r.uses.filter (fun u => !r.keepsAt p u.pos)
  /-- The safepoints are cut the same way. -/
  safepoints : h.safepoints ++ t.safepoints = r.safepoints ∧
    h.safepoints = r.safepoints.filter (fun sp => r.keepsAt p sp.pos) ∧
    t.safepoints = r.safepoints.filter (fun sp => !r.keepsAt p sp.pos)
  /-- The head's finger caches no use that moved to the sibling. -/
  finger : ∀ k, h.finger.registerUse = some k ∨ h.finger.registerBeneficialUse = some k →
    k < r.uses.length → k < h.uses.length

/-- `SplitAt(p)` strictly inside a well-formed range keeps its contract. -/
theorem splitParts_contract {r : LiveRange} (hr : IntervalsAscending r.intervals) {p : Nat}
    (hp : r.start < p ∧ p < r.stop) (hu : r.uses.Pairwise fun a b => a.pos ≤ b.pos)
    (hs : r.safepoints.Pairwise fun a b => a.pos ≤ b.pos) (n : Nat) :
    SplitContract r (r.splitParts p n).1 (r.splitParts p n).2 p n where
  linked := ⟨rfl, rfl⟩
  head_cover := splitParts_head_cover hr hp n
  tail_cover := splitParts_tail_cover hr hp n
  wf := splitParts_wf hr hp n
  bounds := splitParts_bounds hr hp n
  uses := ⟨splitParts_uses r p n, splitListOfPositions_keepsAt hr hp (fun u : UsePosition => u.pos) hu⟩
  safepoints := ⟨splitParts_safepoints r p n,
    splitListOfPositions_keepsAt hr hp (fun sp : SafepointPosition => sp.pos) hs⟩
  finger := splitParts_finger hu p n

/-- `SplitAt(p)` strictly inside a range with ordered intervals, uses and
safepoints returns a new sibling, linked after the range, and the two keep
`SplitContract`. -/
theorem splitAt_contract (s : AllocState) (id p : Nat) (hid : id ≠ s.fresh)
    (hr : IntervalsAscending (s.ranges id).intervals)
    (hp : (s.ranges id).start < p ∧ p < (s.ranges id).stop)
    (hu : (s.ranges id).uses.Pairwise fun a b => a.pos ≤ b.pos)
    (hs : (s.ranges id).safepoints.Pairwise fun a b => a.pos ≤ b.pos) :
    (splitAt s id p).2 = s.fresh ∧
      SplitContract (s.ranges id) ((splitAt s id p).1.ranges id)
        ((splitAt s id p).1.ranges s.fresh) p s.fresh := by
  simp only [splitAt, hp.1.ne, if_false, AllocState.setRange_ranges, hid, if_true]
  exact ⟨trivial, splitParts_contract hr hp hu hs s.fresh⟩

/-- A split of `[0, 4) [6, 10)` at `7`, with uses at `2`, `7` and `8` and a
safepoint at `7`. -/
theorem splitAt_contract_at :
    let r : LiveRange := { LiveRange.make 0 .tagged with
      intervals := [⟨0, 4⟩, ⟨6, 10⟩], uses := [⟨2, 0, none⟩, ⟨7, 1, none⟩, ⟨8, 2, none⟩],
      safepoints := [⟨7, 0⟩] }
    let s : AllocState := ⟨fun _ => r, 1, fun _ => .invalid, fun _ => 0, [], fun _ => [], .empty,
      [], fun _ => ⟨[], []⟩⟩
    (splitAt s 0 7).2 = 1 ∧ SplitContract r ((splitAt s 0 7).1.ranges 0) ((splitAt s 0 7).1.ranges 1) 7 1 :=
  splitAt_contract _ 0 7 (by decide) (by decide) (by decide) (by decide) (by decide)

/-! ## Where `SplitBetween` cuts -/

/-- What `SplitBetween` relies on of a block order in which every loop header
comes before the blocks of its loop: a block starts at or before each of its
positions; the loop of a block has its header at or before the block, and an
outer loop's header comes before an inner one's; `ComputeExtraLoopInfo` starts a
loop's extent at its header; loop ids index the loop hierarchy. -/
structure AllocCtx.LoopOrder (c : AllocCtx) : Prop where
  blockStart_le : ∀ pos, c.blockStart pos ≤ pos
  header_le_blockStart : ∀ pos l, c.loopAt pos = some l → (c.loops l).headerStart ≤ c.blockStart pos
  outer_header_lt : ∀ l l', (c.loops l).outer = some l' →
    (c.loops l').headerStart < (c.loops l).headerStart
  start_eq_header : ∀ l, (c.loops l).start = (c.loops l).headerStart
  loopAt_lt : ∀ pos l, c.loopAt pos = some l → l < c.numLoops
  outer_lt : ∀ l l', (c.loops l).outer = some l' → l' < c.numLoops

/-- `l'` is `l` or a loop around it, reached by `outer()` steps. -/
def AllocCtx.Encloses (c : AllocCtx) : Nat → Nat → Prop :=
  Relation.ReflTransGen fun a b => (c.loops a).outer = some b

/-- The loops whose header comes before `l`'s: the climb's measure. -/
def AllocCtx.headersBefore (c : AllocCtx) (l : Nat) : Nat :=
  ((List.range c.numLoops).filter fun i => (c.loops i).headerStart < (c.loops l).headerStart).length

@[simp] theorem climbLoopHeaders_none (c : AllocCtx) (fromPos n pos : Nat) :
    climbLoopHeaders c fromPos n none pos = pos := by
  cases n <;> simp [climbLoopHeaders]

section Climb
variable {c : AllocCtx} (hc : c.LoopOrder)
include hc

/-- Each step out to an enclosing loop lowers the measure. -/
theorem headersBefore_outer_lt {l l' : Nat} (h : (c.loops l).outer = some l') :
    c.headersBefore l' < c.headersBefore l := by
  have hlt := hc.outer_header_lt l l' h
  have hsub := List.monotone_filter_right (List.range c.numLoops)
    (p := fun i => decide ((c.loops i).headerStart < (c.loops l').headerStart))
    (q := fun i => decide ((c.loops i).headerStart < (c.loops l).headerStart))
    (fun i hi => by simp only [decide_eq_true_eq] at hi ⊢; omega)
  refine lt_of_le_of_ne hsub.length_le fun heq => ?_
  have hmem : l' ∈ (List.range c.numLoops).filter
      fun i => decide ((c.loops i).headerStart < (c.loops l).headerStart) := by
    simp [hc.outer_lt l l' h, hlt]
  rw [← hsub.eq_of_length heq] at hmem
  simp at hmem

omit hc in
/-- The measure stays below the number of loops. -/
theorem headersBefore_lt {l : Nat} (hl : l < c.numLoops) : c.headersBefore l < c.numLoops := by
  have := (List.length_filter_lt_length_iff_exists (p := fun i =>
    decide ((c.loops i).headerStart < (c.loops l).headerStart))).2 ⟨l, List.mem_range.2 hl, by simp⟩
  simpa [AllocCtx.headersBefore] using this

/-- Headers come earlier going outwards. -/
theorem AllocCtx.Encloses.header_le {l l' : Nat} (h : c.Encloses l l') :
    (c.loops l').headerStart ≤ (c.loops l).headerStart := by
  induction h with
  | refl => exact le_rfl
  | tail _ hstep ih => exact (hc.outer_header_lt _ _ hstep).le.trans ih

/-- The loop `SplitBetween` climbs from is a loop of the hierarchy whose header
is at or before `to`. -/
theorem loopAround_spec {toPos l : Nat} (h : c.loopAround toPos = some l) :
    l < c.numLoops ∧ (c.loops l).headerStart ≤ toPos := by
  unfold AllocCtx.loopAround at h
  split at h
  · next l₀ hl₀ =>
    cases h
    exact ⟨hc.loopAt_lt _ _ hl₀, (hc.header_le_blockStart _ _ hl₀).trans (hc.blockStart_le _)⟩
  · obtain ⟨hp, hmem⟩ := List.find?_some h, List.mem_of_find?_eq_some h
    simp only [Bool.and_eq_true, decide_eq_true_eq] at hp
    exact ⟨List.mem_range.1 hmem, hc.start_eq_header l ▸ hp.1.le⟩

/-- The climb, given more steps than loops, stops at the header of the first
enclosing loop whose outer loop's header is not after `from`; or never moves,
when the first loop's header is not after `from`. -/
theorem climbLoopHeaders_spec (fromPos : Nat) :
    ∀ (n l pos : Nat), l < c.numLoops → c.headersBefore l < n →
      ((c.loops l).headerStart ≤ fromPos ∧ climbLoopHeaders c fromPos n (some l) pos = pos) ∨
      ∃ l', c.Encloses l l' ∧ fromPos < (c.loops l').headerStart ∧
        (∀ l'', (c.loops l').outer = some l'' → (c.loops l'').headerStart ≤ fromPos) ∧
        climbLoopHeaders c fromPos n (some l) pos = (c.loops l').headerStart
  | 0, _, _, _, h => absurd h (Nat.not_lt_zero _)
  | n + 1, l, pos, hl, hn => by
    simp only [climbLoopHeaders]
    split_ifs with hf
    · right
      cases ho : (c.loops l).outer with
      | none => exact ⟨l, Relation.ReflTransGen.refl, hf, fun _ h => (by rw [ho] at h; cases h), by simp⟩
      | some l₁ =>
        have := headersBefore_outer_lt hc ho
        rcases climbLoopHeaders_spec fromPos n l₁ (c.loops l).headerStart (hc.outer_lt l l₁ ho)
            (by omega) with ⟨hle, he⟩ | ⟨l', hen, hlt, hout, he⟩
        · exact ⟨l, Relation.ReflTransGen.refl, hf, fun l'' h => (by rw [ho] at h; cases h; exact hle), he⟩
        · exact ⟨l', Relation.ReflTransGen.head ho hen, hlt, hout, he⟩
    · exact .inl ⟨by omega, rfl⟩

/-- When `from` is in an earlier block than `to`, `SplitBetween` cuts after
`from` and by `to`: at the start of `to`'s block, or at the header of the
outermost enclosing loop whose header comes after `from`. -/
theorem splitBetweenPos_of_lt {fromPos toPos : Nat} (hb : fromPos < c.blockStart toPos) :
    fromPos < splitBetweenPos c fromPos toPos ∧ splitBetweenPos c fromPos toPos ≤ toPos ∧
      ((splitBetweenPos c fromPos toPos = c.blockStart toPos ∧
          ∀ l, c.loopAround toPos = some l → (c.loops l).headerStart ≤ fromPos) ∨
        ∃ l₀ l, c.loopAround toPos = some l₀ ∧ c.Encloses l₀ l ∧
          fromPos < (c.loops l).headerStart ∧
          (∀ l', (c.loops l).outer = some l' → (c.loops l').headerStart ≤ fromPos) ∧
          splitBetweenPos c fromPos toPos = (c.loops l).headerStart) := by
  have hbl := hc.blockStart_le toPos
  have e : splitBetweenPos c fromPos toPos =
      climbLoopHeaders c fromPos (c.numLoops + 1) (c.loopAround toPos) (c.blockStart toPos) := by
    simp [splitBetweenPos, hb]
  rw [e]
  cases hl : c.loopAround toPos with
  | none => exact ⟨by simpa using hb, by simpa using hbl, .inl ⟨by simp, fun _ h => by cases h⟩⟩
  | some l₀ =>
    obtain ⟨hl₀, hto⟩ := loopAround_spec hc hl
    have := headersBefore_lt hl₀
    rcases climbLoopHeaders_spec hc fromPos (c.numLoops + 1) l₀ (c.blockStart toPos) hl₀
        (by omega) with ⟨hle, he⟩ | ⟨l, hen, hlt, hout, he⟩
    · rw [he]
      exact ⟨hb, hbl, .inl ⟨rfl, fun l h => by cases h; exact hle⟩⟩
    · have := hen.header_le hc
      rw [he]
      exact ⟨hlt, by omega, .inr ⟨l₀, l, rfl, hen, hlt, hout, rfl⟩⟩

/-- `SplitBetween` cuts strictly before `to` when `to` is not the start of its
block. -/
theorem splitBetweenPos_lt {fromPos toPos : Nat} (hb : c.blockStart toPos < toPos) :
    splitBetweenPos c fromPos toPos < toPos := by
  by_cases hf : fromPos < c.blockStart toPos
  · rcases (splitBetweenPos_of_lt hc hf).2.2 with ⟨e, -⟩ | ⟨l₀, l, hl, hen, -, -, e⟩
    · omega
    · rw [e]
      have h₀ : (c.loops l₀).headerStart < toPos := by
        unfold AllocCtx.loopAround at hl
        split at hl
        · next hl₀ => cases hl; exact (hc.header_le_blockStart _ _ hl₀).trans_lt hb
        · have hp := List.find?_some hl
          simp only [Bool.and_eq_true, decide_eq_true_eq] at hp
          exact hc.start_eq_header l₀ ▸ hp.1
      exact (hen.header_le hc).trans_lt h₀
  · simp only [splitBetweenPos, if_neg hf]
    unfold toInstructionStart
    omega

end Climb

/-- `SplitBetween(range, from, to)` splits strictly after `from` and no later
than `to`. When `from` is in an earlier block, it splits at the start of `to`'s
block, or, when an enclosing loop's header comes after `from`, at the header of
the outermost such loop. Otherwise it splits at the end of the instruction
before `to`. -/
theorem splitBetween_between {c : AllocCtx} (hc : c.LoopOrder) (s : AllocState)
    (id fromPos toPos : Nat)
    (hsame : ¬ fromPos < c.blockStart toPos → fromPos < toInstructionStart toPos - 1) :
    splitBetween c s id fromPos toPos = splitAt s id (splitBetweenPos c fromPos toPos) ∧
      fromPos < splitBetweenPos c fromPos toPos ∧ splitBetweenPos c fromPos toPos ≤ toPos ∧
      (fromPos < c.blockStart toPos →
        (splitBetweenPos c fromPos toPos = c.blockStart toPos ∧
            ∀ l, c.loopAround toPos = some l → (c.loops l).headerStart ≤ fromPos) ∨
          ∃ l₀ l, c.loopAround toPos = some l₀ ∧ c.Encloses l₀ l ∧
            fromPos < (c.loops l).headerStart ∧
            (∀ l', (c.loops l).outer = some l' → (c.loops l').headerStart ≤ fromPos) ∧
            splitBetweenPos c fromPos toPos = (c.loops l).headerStart) ∧
      (¬ fromPos < c.blockStart toPos → splitBetweenPos c fromPos toPos = toInstructionStart toPos - 1) := by
  by_cases hb : fromPos < c.blockStart toPos
  · obtain ⟨h₁, h₂, h₃⟩ := splitBetweenPos_of_lt hc hb
    exact ⟨rfl, h₁, h₂, fun _ => h₃, fun h => absurd hb h⟩
  · have e : splitBetweenPos c fromPos toPos = toInstructionStart toPos - 1 := by
      simp [splitBetweenPos, hb]
    have := toInstructionStart_le toPos
    refine ⟨rfl, ?_⟩
    rw [e]
    exact ⟨hsame hb, by omega, fun h => absurd h hb, fun _ => rfl⟩

/-- One loop with its header at `10` and extent `[10, 30)`, blocks starting
every ten positions. -/
def oneLoopCtx : AllocCtx where
  numberOfRegisters := 2
  bias := 0
  registerKind := .register
  blocked := fun _ => false
  intrinsicMode := false
  fixedSlotCount := 0
  cpuSpillSlotCount := 0
  layout := ⟨-1, 1⟩
  isBlockEntry := fun pos => pos % 10 == 0
  blockStart := fun pos => pos - pos % 10
  loopAt := fun pos => if 10 ≤ pos ∧ pos < 30 then some 0 else none
  loops := fun _ => ⟨10, none, 10, 30, fun _ => false, []⟩
  numLoops := 1
  reachingDefs := fun _ _ => false
  safepointInfo := fun _ => ⟨false, false, false⟩
  catchEntries := []
  exceptionLoc := .invalid
  stackTraceLoc := .invalid

/-- In `oneLoopCtx`, `SplitBetween` from `4` to `24` moves from the start of
`24`'s block, `20`, back to the loop header at `10`. -/
theorem splitBetween_between_at :
    oneLoopCtx.LoopOrder ∧ splitBetweenPos oneLoopCtx 4 24 = 10 ∧
      4 < splitBetweenPos oneLoopCtx 4 24 ∧ splitBetweenPos oneLoopCtx 4 24 ≤ 24 := by
  have hc : oneLoopCtx.LoopOrder :=
    { blockStart_le := fun pos => Nat.sub_le _ _
      header_le_blockStart := fun pos l h => by
        simp only [oneLoopCtx] at h ⊢
        split_ifs at h with hp
        omega
      outer_header_lt := fun _ _ h => by simp [oneLoopCtx] at h
      start_eq_header := fun _ => rfl
      loopAt_lt := fun pos l h => by
        simp only [oneLoopCtx] at h ⊢
        split_ifs at h
        cases h
        decide
      outer_lt := fun _ _ h => by simp [oneLoopCtx] at h }
  obtain ⟨-, h₁, h₂, -⟩ := splitBetween_between hc ⟨fun _ => LiveRange.make 0 .tagged, 0,
    fun _ => .invalid, fun _ => 0, [], fun _ => [], .empty, [], fun _ => ⟨[], []⟩⟩ 0 4 24
    (fun h => absurd (by decide) h)
  exact ⟨hc, by decide, h₁, h₂⟩

end LinearScan
