import LinearScan.Build
import LinearScan.Cover

/-!
# What each construction primitive keeps of a range

`BuildLiveRanges` builds every range from four primitives of `LiveRange`
(linearscan.cc 309–437): `AddUseInterval` and `DefineAt` on the interval list,
`AddUse` (and `AddHintedUse`) on the use list, and `AddSafepoint`, which
`AssignSafepoints` (lines 2900–2928) calls once per safepoint the range holds.
None of them checks the order of its list. Each keeps it only when its caller
keeps the discipline the comments in the source describe: intervals are
prepended in decreasing order, and a range is defined after all of its uses
were seen. This module states each discipline once and proves what the
primitive keeps under it.

* `IntervalsOpen r bs lim`: the range of a value while the block starting at
  `bs` is walked. Its intervals are separated, none starts before `bs`, and one
  that does not start at `bs` starts after `lim`. `AddUseInterval(bs, e)` keeps
  it for `e ≤ lim` (`IntervalsOpen.addUseInterval`). The block's live-out
  interval `[bs, e)` is added to a range that starts at `e` or later
  (`intervalsOpen_liveOut`).
* `BlockingAt r lo f t`: a blocking range during the instruction whose
  blocked interval is `[f, t)`. `AddUseInterval(f, t)` keeps it
  (`BlockingAt.addUseInterval`), since an interval added at an instruction
  either starts at `f` or later and ends by `t`, or starts at `t` or later.
* `DefineAt(d)` keeps a separated list when the first interval ends after `d`,
  and keeps every use in a closed hull when no use lies before `d`.
* `AddUse` inserts into a position-ordered list at the position's place
  (`UsesEdit`).
* `AssignSafepoints` on a range without safepoints records exactly the
  safepoints the range contains, other than those it skips and, for a range
  whose spill slot is a constant, the calls `AddSafepoint` drops, in the order
  of their positions (`assignSafepointsFrom_safepoints`).

Mirroring notes vs the C++ source:
- The source's `ASSERT`s in `AddUseInterval` and `DefineAt` are the
  disciplines here. The model goes on where the assertion would fail, as the
  release build does; the lemmas say when that cannot happen.
-/

namespace LinearScan

namespace LiveRange

/-- The use list is in position order. -/
def UsesOrdered (r : LiveRange) : Prop := r.uses.Pairwise fun a b => a.pos ≤ b.pos

/-- Every use lies in the closed hull `[start, end]` of one of the intervals. -/
def UsesInHull (r : LiveRange) : Prop :=
  ∀ u ∈ r.uses, ∃ iv ∈ r.intervals, iv.start ≤ u.pos ∧ u.pos ≤ iv.stop

/-- The representation invariant of a range: intervals non-empty, separated
and non-touching, uses in order and each in the hull of an interval. -/
structure WellFormed (r : LiveRange) : Prop where
  ne_nil : r.intervals ≠ []
  separated : r.Separated
  ordered : r.UsesOrdered
  inHull : r.UsesInHull

/-! ## `AddUseInterval` -/

section AddUseInterval
variable {r : LiveRange} {s e : Nat}

@[simp] theorem addUseInterval_uses : (r.addUseInterval s e).uses = r.uses := by
  unfold addUseInterval; split <;> (try split_ifs) <;> rfl
@[simp] theorem addUseInterval_safepoints : (r.addUseInterval s e).safepoints = r.safepoints := by
  unfold addUseInterval; split <;> (try split_ifs) <;> rfl
@[simp] theorem addUseInterval_vreg : (r.addUseInterval s e).vreg = r.vreg := by
  unfold addUseInterval; split <;> (try split_ifs) <;> rfl
@[simp] theorem addUseInterval_spillSlot : (r.addUseInterval s e).spillSlot = r.spillSlot := by
  unfold addUseInterval; split <;> (try split_ifs) <;> rfl

/-- Every interval after `AddUseInterval(s, e)` is an old one, or starts at
`s` and ends at `e` or where an old one ends. -/
theorem mem_addUseInterval {iv : UseInterval} (h : iv ∈ (r.addUseInterval s e).intervals) :
    iv ∈ r.intervals ∨ iv.start = s ∧ (iv.stop = e ∨ ∃ jv ∈ r.intervals, jv.stop = iv.stop) := by
  unfold addUseInterval at h
  split at h
  next hr => simp_all
  next i is hr =>
    have hi : i ∈ r.intervals := hr ▸ List.mem_cons_self _ _
    have his : ∀ x ∈ is, x ∈ r.intervals := fun x hx => hr ▸ List.mem_cons_of_mem _ hx
    split_ifs at h
    · exact .inl h
    · exact .inl h
    · rcases List.mem_cons.1 h with rfl | h
      · exact .inr ⟨rfl, .inl rfl⟩
      · exact .inl (his _ h)
    iterate 2
      rcases List.mem_cons.1 h with rfl | h
      · exact .inr ⟨rfl, .inr ⟨i, hi, rfl⟩⟩
      · exact .inl (his _ h)
    · simp only [List.mem_cons] at h
      rcases h with rfl | rfl | h
      · exact .inr ⟨rfl, .inl rfl⟩
      · exact .inl hi
      · exact .inl (his _ h)

/-- `AddUseInterval` only widens: every old interval lies inside a new one. -/
theorem addUseInterval_widens {iv : UseInterval} (h : iv ∈ r.intervals) :
    ∃ jv ∈ (r.addUseInterval s e).intervals, jv.start ≤ iv.start ∧ iv.stop ≤ jv.stop := by
  unfold addUseInterval
  split
  next hr => simp [hr] at h
  next i is hr =>
    rw [hr] at h
    rcases List.mem_cons.1 h with rfl | h
    · split_ifs
      all_goals first
        | exact ⟨iv, by rw [hr]; exact List.mem_cons_self _ _, le_rfl, le_rfl⟩
        | exact ⟨_, List.mem_cons_self _ _, by simp only; omega, by simp only; omega⟩
        | exact ⟨_, List.mem_cons_of_mem _ (List.mem_cons_self _ _), le_rfl, le_rfl⟩
    · split_ifs
      all_goals first
        | exact ⟨iv, by rw [hr]; exact List.mem_cons_of_mem _ h, le_rfl, le_rfl⟩
        | exact ⟨iv, List.mem_cons_of_mem _ h, le_rfl, le_rfl⟩
        | exact ⟨iv, List.mem_cons_of_mem _ (List.mem_cons_of_mem _ h), le_rfl, le_rfl⟩

/-- The interval `AddUseInterval(s, e)` adds reaches from `s` or before to
`e` or after, when no interval starts before `s`. -/
theorem addUseInterval_covers (hsep : r.Separated) (h : ∀ iv ∈ r.intervals, s ≤ iv.start) :
    ∃ jv ∈ (r.addUseInterval s e).intervals, jv.start ≤ s ∧ e ≤ jv.stop := by
  unfold addUseInterval
  split
  next => exact ⟨_, List.mem_singleton_self _, le_rfl, le_rfl⟩
  next i is hr =>
    have hi := h i (hr ▸ List.mem_cons_self _ _)
    have hlt := hsep.1 i (hr ▸ List.mem_cons_self _ _)
    split_ifs with c1 c2 c3
    · omega
    · exact ⟨i, hr ▸ List.mem_cons_self _ _, c2.symm.le, ‹_›⟩
    all_goals exact ⟨_, List.mem_cons_self _ _, le_rfl, by dsimp only; omega⟩

/-- A bound below every interval's end survives `AddUseInterval(s, e)` when
`e` is above it. -/
theorem addUseInterval_stop_gt {x : Nat} (h : ∀ iv ∈ r.intervals, x < iv.stop) (hx : x < e) :
    ∀ iv ∈ (r.addUseInterval s e).intervals, x < iv.stop := fun iv hiv => by
  rcases mem_addUseInterval hiv with hiv | ⟨-, he | ⟨jv, hjv, he⟩⟩
  · exact h iv hiv
  · exact he ▸ hx
  · exact he ▸ h jv hjv

theorem separated_cons_iff {a : UseInterval} {l : List UseInterval} :
    ({ r with intervals := a :: l } : LiveRange).Separated ↔
      a.start < a.stop ∧ (∀ j ∈ l, a.stop < j.start) ∧ ({ r with intervals := l } : LiveRange).Separated := by
  simp only [Separated, List.mem_cons, forall_eq_or_imp, List.pairwise_cons]
  tauto

theorem Separated.cons_iff {a : UseInterval} {l : List UseInterval} (hr : r.intervals = a :: l) :
    r.Separated ↔ a.start < a.stop ∧ (∀ j ∈ l, a.stop < j.start) ∧ ({ r with intervals := l } : LiveRange).Separated := by
  rw [← separated_cons_iff (r := r), ← hr]

end AddUseInterval

/-! ## `DefineAt` -/

section DefineAt
variable {r : LiveRange} {d : Nat}

@[simp] theorem defineAt_uses : (r.defineAt d).uses = r.uses := by
  unfold defineAt; split <;> rfl
@[simp] theorem defineAt_safepoints : (r.defineAt d).safepoints = r.safepoints := by
  unfold defineAt; split <;> rfl
@[simp] theorem defineAt_vreg : (r.defineAt d).vreg = r.vreg := by
  unfold defineAt; split <;> rfl
@[simp] theorem defineAt_spillSlot : (r.defineAt d).spillSlot = r.spillSlot := by
  unfold defineAt; split <;> rfl

theorem defineAt_ne_nil : (r.defineAt d).intervals ≠ [] := by
  unfold defineAt; split <;> simp

@[simp] theorem defineAt_start : (r.defineAt d).start = d := by
  unfold defineAt; split <;> rfl

/-- `DefineAt(d)` keeps the intervals separated when the first one ends after `d`. -/
theorem defineAt_separated (h : r.Separated) (hd : ∀ iv ∈ r.intervals.head?, d < iv.stop) :
    (r.defineAt d).Separated := by
  unfold defineAt
  split
  next => exact ⟨by simp, by simp⟩
  next i is hr =>
    obtain ⟨-, hij, hsep'⟩ := (Separated.cons_iff hr).1 h
    exact separated_cons_iff.2 ⟨hd i (by simp [hr]), hij, hsep'⟩

/-- `DefineAt(d)` keeps every use in a hull when no use lies before `d`. -/
theorem defineAt_inHull (h : r.UsesInHull) (hd : ∀ u ∈ r.uses, d ≤ u.pos) :
    (r.defineAt d).UsesInHull := by
  intro u hu
  rw [defineAt_uses] at hu
  obtain ⟨iv, hiv, h1, h2⟩ := h u hu
  unfold defineAt
  split
  next hr => simp [hr] at hiv
  next i is hr =>
    rw [hr] at hiv
    rcases List.mem_cons.1 hiv with rfl | hiv
    · exact ⟨_, List.mem_cons_self _ _, hd u hu, h2⟩
    · exact ⟨iv, List.mem_cons_of_mem _ hiv, h1, h2⟩

end DefineAt

/-! ## `AddUse` -/

/-- `r'` is `r` with uses added at `p`: intervals, safepoints, spill slot and
vreg unchanged, the order of the uses kept, and every use an old one's
position or `p`. -/
structure UsesEdit (r r' : LiveRange) (p : Nat) : Prop where
  intervals : r'.intervals = r.intervals
  safepoints : r'.safepoints = r.safepoints
  spillSlot : r'.spillSlot = r.spillSlot
  vreg : r'.vreg = r.vreg
  ordered : r.UsesOrdered → r'.UsesOrdered
  mem : ∀ u ∈ r'.uses, (∃ u' ∈ r.uses, u'.pos = u.pos) ∨ u.pos = p

section Uses
variable {r r' r'' : LiveRange} {p : Nat}

theorem UsesEdit.refl (r : LiveRange) (p : Nat) : UsesEdit r r p :=
  ⟨rfl, rfl, rfl, rfl, id, fun u hu => .inl ⟨u, hu, rfl⟩⟩

theorem UsesEdit.trans (h : UsesEdit r r' p) (h' : UsesEdit r' r'' p) : UsesEdit r r'' p where
  intervals := h'.intervals.trans h.intervals
  safepoints := h'.safepoints.trans h.safepoints
  spillSlot := h'.spillSlot.trans h.spillSlot
  vreg := h'.vreg.trans h.vreg
  ordered := h'.ordered ∘ h.ordered
  mem u hu := by
    rcases h'.mem u hu with ⟨u', hu', he⟩ | he
    · rcases h.mem u' hu' with ⟨u'', hu'', he'⟩ | he'
      · exact .inl ⟨u'', hu'', he'.trans he⟩
      · exact .inr (he ▸ he')
    · exact .inr he

/-- An edit at `p` keeps every use in a hull when an interval holds `p`. -/
theorem UsesEdit.inHull (h : UsesEdit r r' p) (hr : r.UsesInHull)
    (hp : ∃ iv ∈ r.intervals, iv.start ≤ p ∧ p ≤ iv.stop) : r'.UsesInHull := by
  intro u hu
  rw [h.intervals]
  rcases h.mem u hu with ⟨u', hu', he⟩ | he
  · exact he ▸ hr u' hu'
  · exact he ▸ hp

/-- An edit at `p` keeps a bound below every use's position when `p` is above it. -/
theorem UsesEdit.pos_gt {x : Nat} (h : UsesEdit r r' p) (hr : ∀ u ∈ r.uses, x < u.pos) (hp : x < p) :
    ∀ u ∈ r'.uses, x < u.pos := fun u hu => by
  rcases h.mem u hu with ⟨u', hu', he⟩ | he
  · exact he ▸ hr u' hu'
  · exact he ▸ hp

/-- In a position-ordered list, everything after the uses before `p` is at `p` or after. -/
theorem le_of_mem_dropWhile {p : Nat} :
    ∀ {l : List UsePosition}, l.Pairwise (fun a b => a.pos ≤ b.pos) →
      ∀ u ∈ l.dropWhile (fun u => decide (u.pos < p)), p ≤ u.pos
  | [], _, _, hu => absurd hu (List.not_mem_nil _)
  | a :: l, hl, u, hu => by
    rw [List.dropWhile_cons] at hu
    split_ifs at hu with ha
    · exact le_of_mem_dropWhile (List.pairwise_cons.1 hl).2 u hu
    · simp only [decide_eq_true_eq, Nat.not_lt] at ha
      rcases List.mem_cons.1 hu with rfl | hu
      · exact ha
      · exact ha.trans ((List.pairwise_cons.1 hl).1 u hu)

/-- Inserting at `p` after the uses before `p` keeps a list in position order. -/
theorem pairwise_insert_after_takeWhile {l : List UsePosition} (hl : l.Pairwise fun a b => a.pos ≤ b.pos)
    (v : UsePosition) :
    let k := (l.takeWhile fun u => decide (u.pos < v.pos)).length
    (l.take k ++ v :: l.drop k).Pairwise fun a b => a.pos ≤ b.pos := by
  have e := List.takeWhile_append_dropWhile (fun u : UsePosition => decide (u.pos < v.pos)) l
  have hdrop := le_of_mem_dropWhile (p := v.pos) hl
  intro k
  have h1 : l.take k = l.takeWhile fun u => decide (u.pos < v.pos) := by
    conv_lhs => rw [← e]
    exact List.take_left' rfl
  have h2 : l.drop k = l.dropWhile fun u => decide (u.pos < v.pos) := by
    conv_lhs => rw [← e]
    exact List.drop_left' rfl
  rw [h1, h2]
  rw [← e, List.pairwise_append] at hl
  obtain ⟨htw, hdw, hcross⟩ := hl
  refine List.pairwise_append.2 ⟨htw, List.pairwise_cons.2 ⟨hdrop, hdw⟩, fun a ha b hb => ?_⟩
  rcases List.mem_cons.1 hb with rfl | hb
  · have := List.mem_takeWhile_imp ha
    simp only [decide_eq_true_eq] at this
    exact this.le
  · exact hcross a ha b hb

theorem addUseIndex_snd_of_none {l : List UsePosition} {pos slot k : Nat}
    (h : addUseIndex l pos slot = (none, k)) : k = (l.takeWhile fun u => decide (u.pos < pos)).length := by
  unfold addUseIndex at h
  dsimp only at h
  split at h <;> simp_all

/-- `AddUse(pos, slot)` inserts the use after the uses before `pos`, or
finds it already there. -/
theorem usesEdit_addUse (r : LiveRange) (pos slot : Nat) : UsesEdit r (r.addUse pos slot).1 pos := by
  unfold addUse
  split
  next hr =>
    refine ⟨rfl, rfl, rfl, rfl, fun _ => List.pairwise_singleton _ _, fun u hu => .inr ?_⟩
    rw [List.mem_singleton.1 hu]
  next u us hr =>
    split_ifs with h1 h2
    · exact UsesEdit.refl r pos
    · split
      · exact UsesEdit.refl r pos
      · rename_i k hk
        obtain rfl := addUseIndex_snd_of_none hk
        refine ⟨rfl, rfl, rfl, rfl, fun ho => ?_, fun v hv => ?_⟩
        · exact pairwise_insert_after_takeWhile (hr ▸ ho) ⟨pos, slot, none⟩
        · simp only [List.mem_append, List.mem_cons] at hv
          rcases hv with hv | rfl | hv
          · exact .inl ⟨v, hr ▸ List.mem_of_mem_take hv, rfl⟩
          · exact .inr rfl
          · exact .inl ⟨v, hr ▸ List.mem_of_mem_drop hv, rfl⟩
    · refine ⟨rfl, rfl, rfl, rfl, fun ho => ?_, fun v hv => ?_⟩
      · have ho' : (u :: us).Pairwise fun a b => a.pos ≤ b.pos := hr ▸ ho
        refine List.pairwise_cons.2 ⟨fun v hv => ?_, ho'⟩
        rcases List.mem_cons.1 hv with rfl | hv
        · exact Nat.not_lt.1 h2
        · exact (Nat.not_lt.1 h2).trans ((List.pairwise_cons.1 ho').1 v hv)
      · rcases List.mem_cons.1 hv with rfl | hv
        · exact .inr rfl
        · exact .inl ⟨v, hr ▸ hv, rfl⟩

/-- Setting a use's hint moves no use. -/
theorem map_pos_modify_hint (h : Option Nat) :
    ∀ (l : List UsePosition) (n : Nat), (l.modify (fun u => { u with hint := h }) n).map (·.pos) = l.map (·.pos)
  | [], _ => by simp
  | _ :: _, 0 => rfl
  | a :: l, n + 1 => by
    rw [List.modify_succ_cons, List.map_cons, List.map_cons, map_pos_modify_hint h l n]

theorem usesOrdered_iff_map : r.UsesOrdered ↔ (r.uses.map (·.pos)).Pairwise (· ≤ ·) := by
  rw [UsesOrdered, List.pairwise_map]

/-- `AddHintedUse` is `AddUse` followed by a hint, which moves no use. -/
theorem usesEdit_addHintedUse (r : LiveRange) (pos slot hint : Nat) :
    UsesEdit r (r.addHintedUse pos slot hint) pos := by
  have h := usesEdit_addUse r pos slot
  have hm : (r.addHintedUse pos slot hint).uses.map (·.pos) = (r.addUse pos slot).1.uses.map (·.pos) :=
    map_pos_modify_hint _ _ _
  refine ⟨h.intervals, h.safepoints, h.spillSlot, h.vreg, fun ho => ?_, fun u hu => ?_⟩
  · rw [usesOrdered_iff_map, hm, ← usesOrdered_iff_map]
    exact h.ordered ho
  · have hu2 : u.pos ∈ (r.addUse pos slot).1.uses.map (·.pos) :=
      hm ▸ List.mem_map_of_mem (f := fun v : UsePosition => v.pos) hu
    obtain ⟨u', hu', he⟩ := List.mem_map.1 hu2
    rcases h.mem u' hu' with ⟨u'', h1, h2⟩ | h2
    · exact .inl ⟨u'', h1, h2.trans he⟩
    · exact .inr (he ▸ h2)

/-- The first interval after `DefineAt(d)` starts at `d` and holds it. -/
theorem defineAt_covers {r : LiveRange} {d : Nat} (hd : ∀ iv ∈ r.intervals.head?, d ≤ iv.stop) :
    ∃ iv ∈ (r.defineAt d).intervals, iv.start ≤ d ∧ d ≤ iv.stop := by
  unfold defineAt
  split
  next => exact ⟨⟨d, d + 1⟩, List.mem_singleton_self _, le_rfl, Nat.le_succ _⟩
  next i is hr => exact ⟨⟨d, i.stop⟩, List.mem_cons_self _ _, le_rfl, hd i (by simp [hr])⟩

/-- A range defined at `d` and then given uses at `d` is well formed when its
first interval ends after `d` and no use lies before `d`. -/
theorem wellFormed_defineAt {r r' : LiveRange} {d : Nat} (hsep : r.Separated) (ho : r.UsesOrdered)
    (hh : r.UsesInHull) (hstop : ∀ iv ∈ r.intervals.head?, d < iv.stop) (hu : ∀ u ∈ r.uses, d ≤ u.pos)
    (e : UsesEdit (r.defineAt d) r' d) : r'.WellFormed where
  ne_nil := e.intervals ▸ defineAt_ne_nil
  separated := by unfold Separated; rw [e.intervals]; exact defineAt_separated hsep hstop
  ordered := e.ordered (by unfold UsesOrdered; rw [defineAt_uses]; exact ho)
  inHull := e.inHull (defineAt_inHull hh hu) (defineAt_covers fun iv h => (hstop iv h).le)

end Uses

/-! ## `AssignSafepoints` -/

/-- The entries `AssignSafepoints` gives a range from the safepoint list `sps`
(in the order `safepoints_` records them): one entry at `ToInstructionEnd(p)`
for each safepoint `(p, k)` the range contains and `kept` keeps, in increasing
position order. -/
def coveredSafepoints (sps : List (Nat × Nat)) (kept : Nat × Nat → Bool) (r : LiveRange) :
    List SafepointPosition :=
  (sps.reverse.filter fun p => kept p && r.contains p.1).map fun p => ⟨toInstructionEnd p.1, p.2⟩

theorem contains_lt_stop {r : LiveRange} {p : Nat} (h : r.contains p = true) : p < r.stop := by
  simp only [contains, canCover, Bool.and_eq_true, decide_eq_true_eq] at h
  exact h.1.2

@[simp] theorem contains_with_safepoints {r : LiveRange} {sps : List SafepointPosition} :
    ({ r with safepoints := sps } : LiveRange).contains = r.contains := rfl

end LiveRange

/-- Whether `AddSafepoint` records the safepoint of location summary `k` on a
range, `constant` saying whether the range's spill slot is a constant: not a
call that always calls and is not callee-safe. -/
def keepsSafepoint (b : BuildCtx) (constant : Bool) (k : Nat) : Bool :=
  !(constant && (b.safepointInfo k).alwaysCalls && !(b.safepointInfo k).calleeSafeCall)

namespace LiveRange

theorem addSafepoint_eq (b : BuildCtx) (r : LiveRange) (pos locs : Nat) :
    r.addSafepoint pos locs (b.safepointInfo locs).alwaysCalls (b.safepointInfo locs).calleeSafeCall =
      if keepsSafepoint b r.spillSlot.isConstant locs
      then { r with safepoints := r.safepoints ++ [⟨toInstructionEnd pos, locs⟩] } else r := by
  unfold addSafepoint keepsSafepoint
  split_ifs <;> simp_all

section Safepoints
variable (b : BuildCtx)

/-- The walk of `AssignSafepoints` over safepoints in increasing position
order appends exactly the contained ones it neither skips nor drops: it stops
at the range's end, where no later safepoint is contained any more. -/
theorem assignSafepointsFrom_safepoints (skip : Nat → Bool) :
    ∀ (l : List (Nat × Nat)) (r : LiveRange), l.Pairwise (fun a b => a.1 ≤ b.1) →
      (assignSafepointsFrom b skip l r).safepoints = r.safepoints ++
        (l.filter fun p => (!skip p.1 && keepsSafepoint b r.spillSlot.isConstant p.2) && r.contains p.1).map
          fun p => ⟨toInstructionEnd p.1, p.2⟩
  | [], r, _ => by simp [assignSafepointsFrom]
  | (pos, locs) :: l, r, hl => by
    obtain ⟨hhead, hl⟩ := List.pairwise_cons.1 hl
    simp only [assignSafepointsFrom]
    split_ifs with h1 h2 h3
    · rw [assignSafepointsFrom_safepoints skip l r hl, List.filter_cons_of_neg (by simp [h1])]
    · have hnone : ∀ p ∈ (pos, locs) :: l, r.contains p.1 = false := fun p hp => by
        have : r.stop ≤ p.1 := by
          rcases List.mem_cons.1 hp with rfl | hp
          · exact h2
          · exact h2.trans (hhead p hp)
        cases hcon : r.contains p.1
        · rfl
        · exact absurd (contains_lt_stop hcon) (by omega)
      rw [List.filter_eq_nil_iff.2 (fun p hp => by simp [hnone p hp])]
      simp
    · rw [addSafepoint_eq]
      split_ifs with hk
      · rw [assignSafepointsFrom_safepoints skip l _ hl]
        simp [List.filter_cons, h1, h3, hk]
      · rw [assignSafepointsFrom_safepoints skip l r hl]
        simp [List.filter_cons, h1, hk]
    · rw [assignSafepointsFrom_safepoints skip l r hl]
      simp [List.filter_cons, h3]

end Safepoints

/-! ## The prepend discipline of a value's range -/

/-- A value's range while the block starting at `bs` is walked: separated
intervals, none before `bs`, and one that does not start at `bs` starts after
`lim`. -/
def IntervalsOpen (r : LiveRange) (bs lim : Nat) : Prop :=
  r.Separated ∧ ∀ iv ∈ r.intervals, bs ≤ iv.start ∧ (iv.start = bs ∨ lim < iv.start)

section Open
variable {r : LiveRange} {bs lim e : Nat}

theorem IntervalsOpen.mono {lim' : Nat} (h : r.IntervalsOpen bs lim) (hl : lim' ≤ lim) :
    r.IntervalsOpen bs lim' :=
  ⟨h.1, fun iv hiv => (h.2 iv hiv).imp_right (Or.imp_right hl.trans_lt)⟩

/-- A range none of whose intervals starts before `bs` is open at `bs - 1`
for any block that starts at `bs'` with nothing of the range before it. -/
theorem intervalsOpen_of_ge (hsep : r.Separated) (h : ∀ iv ∈ r.intervals, bs ≤ iv.start)
    {bs' : Nat} (hb : bs' ≤ bs) (hl : lim < bs) : r.IntervalsOpen bs' lim :=
  ⟨hsep, fun iv hiv => ⟨hb.trans (h iv hiv), .inr (hl.trans_le (h iv hiv))⟩⟩

/-- `AddUseInterval(bs, e)` keeps a value's range open for `e ≤ lim`: the
interval extends the one at `bs` or is prepended before all others. -/
theorem IntervalsOpen.addUseInterval (h : r.IntervalsOpen bs lim) (h1 : bs < e) (h2 : e ≤ lim) :
    (r.addUseInterval bs e).IntervalsOpen bs lim := by
  obtain ⟨hsep, hpos⟩ := h
  unfold LiveRange.addUseInterval
  split
  next => exact ⟨⟨by simpa using h1, by simp⟩, by simp⟩
  next i is hr =>
    obtain ⟨hi, hij, hsep'⟩ := (Separated.cons_iff hr).1 hsep
    have hpos' : ∀ iv ∈ i :: is, bs ≤ iv.start ∧ (iv.start = bs ∨ lim < iv.start) := hr ▸ hpos
    have hib := hpos' i (List.mem_cons_self _ _)
    have his : ∀ j ∈ is, lim < j.start := fun j hj =>
      ((hpos' j (List.mem_cons_of_mem _ hj)).2.resolve_left
        (by have := hij j hj; omega))
    have htail : ∀ j ∈ is, bs ≤ j.start ∧ (j.start = bs ∨ lim < j.start) :=
      fun j hj => hpos' j (List.mem_cons_of_mem _ hj)
    split_ifs with c1 c2 c3 c4 c5
    · exact ⟨hsep, hpos⟩
    · exact ⟨hsep, hpos⟩
    · refine ⟨separated_cons_iff.2 ⟨h1, fun j hj => h2.trans_lt (his j hj), hsep'⟩, ?_⟩
      exact List.forall_mem_cons.2 ⟨⟨le_rfl, .inl rfl⟩, htail⟩
    · omega
    · omega
    · refine ⟨separated_cons_iff.2 ⟨h1, ?_, by rw [← hr]; exact hsep⟩, ?_⟩
      · intro j hj
        rcases List.mem_cons.1 hj with rfl | hj
        · dsimp only; omega
        · exact (by omega : e < i.start).trans (hi.trans (hij j hj))
      · exact List.forall_mem_cons.2 ⟨⟨le_rfl, .inl rfl⟩, List.forall_mem_cons.2 ⟨hib, htail⟩⟩

/-- The live-out interval `[bs, e)` added to a range none of whose intervals
starts before `e` leaves it open at `e`. -/
theorem intervalsOpen_liveOut (hsep : r.Separated) (hge : ∀ iv ∈ r.intervals, e ≤ iv.start)
    (h1 : bs < e) : (r.addUseInterval bs e).IntervalsOpen bs e := by
  unfold LiveRange.addUseInterval
  split
  next => exact ⟨⟨by simpa using h1, by simp⟩, by simp⟩
  next i is hr =>
    obtain ⟨hi, hij, hsep'⟩ := (Separated.cons_iff hr).1 hsep
    have hge' : ∀ iv ∈ i :: is, e ≤ iv.start := hr ▸ hge
    have hie := hge' i (List.mem_cons_self _ _)
    have htail : ∀ j ∈ is, bs ≤ j.start ∧ (j.start = bs ∨ e < j.start) :=
      fun j hj => have := hij j hj; ⟨by omega, .inr (by omega)⟩
    split_ifs with c1 c2 c3 c4 c5
    · omega
    · omega
    · omega
    · refine ⟨separated_cons_iff.2 ⟨by simp only; omega, hij, hsep'⟩, ?_⟩
      exact List.forall_mem_cons.2 ⟨⟨le_rfl, .inl rfl⟩, htail⟩
    · omega
    · refine ⟨separated_cons_iff.2 ⟨h1, ?_, by rw [← hr]; exact hsep⟩, ?_⟩
      · intro j hj
        rcases List.mem_cons.1 hj with rfl | hj
        · dsimp only; omega
        · have := hij j hj; dsimp only; omega
      · exact List.forall_mem_cons.2 ⟨⟨le_rfl, .inl rfl⟩,
          List.forall_mem_cons.2 ⟨⟨by omega, .inr (by omega)⟩, htail⟩⟩

end Open

/-! ## The discipline of a blocking range -/

/-- A blocking range during an instruction that blocks `[f, t)`: separated
intervals, none before `lo`, each either after `t` or starting by `f` and
reaching `t`. -/
def BlockingAt (r : LiveRange) (lo f t : Nat) : Prop :=
  r.Separated ∧ ∀ iv ∈ r.intervals, lo ≤ iv.start ∧ (t ≤ iv.start ∨ iv.start ≤ f ∧ t ≤ iv.stop)

section Blocking
variable {r : LiveRange} {lo f t : Nat}

theorem BlockingAt.mono {f' : Nat} (h : r.BlockingAt lo f t) (hf : f ≤ f') : r.BlockingAt lo f' t :=
  ⟨h.1, fun iv hiv => (h.2 iv hiv).imp_right (Or.imp_right fun h => ⟨h.1.trans hf, h.2⟩)⟩

/-- A blocking range none of whose intervals starts before `t` is at any
instruction blocking up to `t`. -/
theorem blockingAt_of_ge (hsep : r.Separated) (h : ∀ iv ∈ r.intervals, t ≤ iv.start) (hlo : lo ≤ t) :
    r.BlockingAt lo f t :=
  ⟨hsep, fun iv hiv => ⟨hlo.trans (h iv hiv), .inl (h iv hiv)⟩⟩

/-- `AddUseInterval(f, t)` keeps a blocking range at its instruction: an
interval that already reaches `t` from `f` or before absorbs it, otherwise it
is merged with or prepended to intervals that start at `t` or later. -/
theorem BlockingAt.addUseInterval (h : r.BlockingAt lo f t) (hlo : lo ≤ f) (hft : f < t) :
    (r.addUseInterval f t).BlockingAt lo f t := by
  obtain ⟨hsep, hpos⟩ := h
  unfold LiveRange.addUseInterval
  split
  next => exact ⟨⟨by simpa using hft, by simp⟩, by simp [hlo]⟩
  next i is hr =>
    obtain ⟨hi, hij, hsep'⟩ := (Separated.cons_iff hr).1 hsep
    have hpos' : ∀ iv ∈ i :: is, lo ≤ iv.start ∧ (t ≤ iv.start ∨ iv.start ≤ f ∧ t ≤ iv.stop) := hr ▸ hpos
    have hib := hpos' i (List.mem_cons_self _ _)
    have htail := List.forall_mem_cons.1 hpos' |>.2
    split_ifs with c1 c2 c3 c4 c5
    · exact ⟨hsep, hpos⟩
    · exact ⟨hsep, hpos⟩
    · omega
    · refine ⟨separated_cons_iff.2 ⟨by dsimp only; omega, hij, hsep'⟩,
        List.forall_mem_cons.2 ⟨⟨hlo, .inr ⟨le_rfl, by dsimp only; omega⟩⟩, htail⟩⟩
    · omega
    · refine ⟨separated_cons_iff.2 ⟨hft, ?_, by rw [← hr]; exact hsep⟩,
        List.forall_mem_cons.2 ⟨⟨hlo, .inr ⟨le_rfl, le_rfl⟩⟩, List.forall_mem_cons.2 ⟨hib, htail⟩⟩⟩
      intro j hj
      rcases List.mem_cons.1 hj with rfl | hj
      · dsimp only; omega
      · have := hij j hj; dsimp only; omega

end Blocking

end LiveRange

end LinearScan
