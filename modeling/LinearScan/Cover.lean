import LinearScan.LoopInv
import LinearScan.SplitAt

/-!
# Safepoints follow the cover through splits

`AssignSafepoints` (linearscan.cc 2900–2928) puts a safepoint on a range when
the range contains the safepoint's position. `AddSafepoint` (344–372) records it
at the instruction's end. `SplitAt` hands each piece the safepoints before or
after the split position (`SplitListOfPositions`, 1961–1986). This module proves
that each piece gets what its own cover needs:

> `SafepointsComplete`: every slow-path safepoint in the range's cover, other
> than its value's own definition, is on the range's list.

A split keeps this for both pieces when the range is well formed (`CoverInv`):
* its intervals are non-empty, in order and apart, as `AddUseInterval` asserts
  (`end < first_use_interval()->start()`);
* its safepoints are in position order, as `AssignSafepoints` appends them;
* safepoints sit at instruction starts, as `AddSafepoint` asserts.

So `CoverInv` is split-closed. `LoopInv` then carries it through the whole
allocation pass, and `allocateUnallocatedRanges_slowPathRegisters` gives the
pass's half of the live-register guarantee. After the pass, a range in a machine
register has its register recorded at every slow-path safepoint its cover holds.

Mirroring notes vs the C++ source:
- `safepoints_` is a list `G` of (lifetime position, location summary) pairs.
  `AssignSafepoints` skips the value's own definition by instruction. The model
  skips it by position, `defPos` of the range's virtual register, one
  instruction per position.
-/

namespace LinearScan

/-! ## Where a split cuts -/

/-- Intervals non-empty, in order and apart. -/
def LiveRange.Separated (r : LiveRange) : Prop :=
  (∀ iv ∈ r.intervals, iv.start < iv.stop) ∧ r.intervals.Pairwise (fun a b => a.stop < b.start)

section Split
variable {r : LiveRange} (hsep : r.Separated) (splitPos : Nat)
include hsep

/-- Intervals of a separated range end before later ones start. -/
theorem LiveRange.Separated.stop_lt_start {i j : Nat} (hi : i < r.intervals.length) (hj : j < r.intervals.length)
    (hij : i < j) : r.intervals[i].stop < r.intervals[j].start :=
  List.pairwise_iff_getElem.1 hsep.2 i j hi hj hij

/-- The intervals before the split index end by the split position: those the
walk passed, and those before the finger's interval. -/
theorem splitIndex_before {i : Nat} (hi : i < r.intervals.length) (hik : i < r.splitIndex splitPos) :
    r.intervals[i].stop ≤ splitPos := by
  have hwalk := (splitIndexFrom_spec r.intervals splitPos r.intervals.length
    (r.splitWalkStart splitPos) (by omega)).1
  by_cases hw : r.splitWalkStart splitPos ≤ i
  · exact hwalk i hi hw hik
  · unfold LiveRange.splitWalkStart at hw
    split at hw
    · next k₀ _ =>
      rw [List.get?_eq_getElem?] at hw
      split at hw
      · next iv₀ hiv₀ =>
        split_ifs at hw with hstart
        · omega
        · have hk₀ : k₀ < r.intervals.length := (List.getElem?_eq_some_iff.1 hiv₀).1
          have hget : r.intervals[k₀] = iv₀ := (List.getElem?_eq_some_iff.1 hiv₀).2
          have := hsep.stop_lt_start hi hk₀ (by omega)
          rw [hget] at this
          omega
      · omega
    · omega

/-- Every position the head of a split covers is before the split position,
and, at a split at an interval's start, before the position just before it. -/
theorem splitParts_head_covers (n : Nat) {pos : Nat}
    (h : (r.splitParts splitPos n).1.covers pos = true) :
    pos < splitPos ∧
      ((r.intervals.getD (r.splitIndex splitPos) ⟨0, 0⟩).start = splitPos → pos + 1 < splitPos) := by
  have hb : ∀ {i} (hi : i < r.intervals.length), i < r.splitIndex splitPos →
      r.intervals[i].stop ≤ splitPos := splitIndex_before hsep splitPos
  simp only [LiveRange.splitParts, LiveRange.covers] at h
  simp only [LiveRange.splitIndex] at hb ⊢
  set k := splitIndexFrom r.intervals splitPos (r.splitWalkStart splitPos) r.intervals.length
  set iv := r.intervals.getD k ⟨0, 0⟩
  have htake : ∀ x ∈ r.intervals.take k, x.contains pos = true →
      pos < splitPos ∧ (iv.start = splitPos → pos + 1 < splitPos) := by
    intro x hx hpos
    obtain ⟨i, hik, rfl⟩ := List.mem_take_iff_getElem.1 hx
    obtain ⟨hik, hi⟩ := Nat.lt_min.1 hik
    have hstop := hb hi hik
    simp only [UseInterval.contains, Bool.and_eq_true, decide_eq_true_eq] at hpos
    refine ⟨by omega, fun hstart => ?_⟩
    by_cases hk : k < r.intervals.length
    · have hsep' := hsep.stop_lt_start hi hk hik
      rw [show iv = r.intervals[k] by simp [iv, List.getD_eq_getElem?_getD, hk]] at hstart
      omega
    · rw [show iv = ⟨0, 0⟩ by
        simp [iv, List.getD_eq_getElem?_getD, List.getElem?_eq_none (Nat.le_of_not_lt hk)]] at hstart
      simp only at hstart
      omega
  split_ifs at h with hc
  · simp only [Bool.and_eq_true, Bool.not_eq_true', beq_eq_false_iff_ne] at hc
    obtain ⟨x, hx, hpos⟩ := List.any_eq_true.1 h
    rcases List.mem_append.1 hx with hx | hx
    · exact htake x hx hpos
    · rw [List.mem_singleton] at hx
      subst hx
      simp only [UseInterval.contains, Bool.and_eq_true, decide_eq_true_eq] at hpos
      exact ⟨hpos.2, fun hstart => absurd hstart hc.1⟩
  · obtain ⟨x, hx, hpos⟩ := List.any_eq_true.1 h
    exact htake x hx hpos

/-- Every position the tail of a split covers is at or after the split
position. -/
theorem splitParts_tail_covers (n : Nat) {pos : Nat}
    (h : (r.splitParts splitPos n).2.covers pos = true) : splitPos ≤ pos := by
  simp only [LiveRange.splitParts, LiveRange.covers] at h
  set k := splitIndexFrom r.intervals splitPos (r.splitWalkStart splitPos) r.intervals.length
  have hafter : ∀ hk : k < r.intervals.length, splitPos < r.intervals[k].stop :=
    fun hk => splitIndex_after splitPos hk
  have hdrop : ∀ x ∈ r.intervals.drop (k + 1), splitPos < x.start := by
    intro x hx
    obtain ⟨i, hi, rfl⟩ := List.mem_drop_iff_getElem.1 hx
    have hk : k < r.intervals.length := by omega
    exact (hafter hk).trans (hsep.stop_lt_start hk (by omega : k + 1 + i < r.intervals.length)
      (by omega))
  split_ifs at h with hc
  · obtain ⟨x, hx, hpos⟩ := List.any_eq_true.1 h
    simp only [UseInterval.contains, Bool.and_eq_true, decide_eq_true_eq] at hpos
    rcases List.mem_cons.1 hx with rfl | hx
    · exact hpos.1
    · exact (hdrop x hx).le.trans hpos.1
  · obtain ⟨x, hx, hpos⟩ := List.any_eq_true.1 h
    simp only [UseInterval.contains, Bool.and_eq_true, decide_eq_true_eq] at hpos
    have hk : k < r.intervals.length := by
      by_contra hk
      rw [List.drop_eq_nil_of_le (Nat.le_of_not_lt hk)] at hx
      exact List.not_mem_nil x hx
    rw [List.drop_eq_getElem_cons hk] at hx
    rcases List.mem_cons.1 hx with rfl | hx
    · -- the interval at the split index starts at the split, or after it
      have hiv : r.intervals.getD k ⟨0, 0⟩ = r.intervals[k] := by
        simp [List.getD_eq_getElem?_getD, hk]
      have := hafter hk
      simp only [hiv, Bool.and_eq_true, Bool.not_eq_true', beq_eq_false_iff_ne, UseInterval.contains,
        decide_eq_true_eq, not_and] at hc
      by_cases hs : r.intervals[k].start = splitPos
      · omega
      · have := hc hs
        omega
    · exact (hdrop x hx).le.trans hpos.1

/-- Both pieces of a split are separated: the cut interval's two halves are
non-empty, and each stays apart from its neighbours. -/
theorem splitParts_separated (n : Nat) :
    (r.splitParts splitPos n).1.Separated ∧ (r.splitParts splitPos n).2.Separated := by
  simp only [LiveRange.splitParts, LiveRange.Separated]
  set k := splitIndexFrom r.intervals splitPos (r.splitWalkStart splitPos) r.intervals.length
  split_ifs with hc
  · simp only [Bool.and_eq_true, Bool.not_eq_true', beq_eq_false_iff_ne, UseInterval.contains,
      decide_eq_true_eq] at hc
    have hk : k < r.intervals.length := by
      by_contra hk
      rw [show r.intervals.getD k ⟨0, 0⟩ = ⟨0, 0⟩ by
        simp [List.getD_eq_getElem?_getD, List.getElem?_eq_none (Nat.le_of_not_lt hk)]] at hc
      simp at hc
    have hiv : r.intervals.getD k ⟨0, 0⟩ = r.intervals[k] := by
      simp [List.getD_eq_getElem?_getD, hk]
    rw [hiv] at hc ⊢
    refine ⟨⟨fun x hx => ?_, List.pairwise_append.2 ⟨hsep.2.take, List.pairwise_singleton _ _,
      fun a ha b hb => ?_⟩⟩, ⟨fun x hx => ?_, List.pairwise_cons.2 ⟨fun b hb => ?_, hsep.2.drop⟩⟩⟩
    · rcases List.mem_append.1 hx with hx | hx
      · exact hsep.1 x (List.mem_of_mem_take hx)
      · rw [List.mem_singleton.1 hx]
        exact lt_of_le_of_ne hc.2.1 hc.1
    · obtain ⟨i, hi, rfl⟩ := List.mem_take_iff_getElem.1 ha
      rw [List.mem_singleton.1 hb]
      exact hsep.stop_lt_start (Nat.lt_min.1 hi).2 hk (Nat.lt_min.1 hi).1
    · rcases List.mem_cons.1 hx with rfl | hx
      · exact hc.2.2
      · exact hsep.1 x (List.mem_of_mem_drop hx)
    · obtain ⟨i, hi, rfl⟩ := List.mem_drop_iff_getElem.1 hb
      exact hsep.stop_lt_start hk (by omega : k + 1 + i < r.intervals.length) (by omega)
  · exact ⟨⟨fun x hx => hsep.1 x (List.mem_of_mem_take hx), hsep.2.take⟩,
      ⟨fun x hx => hsep.1 x (List.mem_of_mem_drop hx), hsep.2.drop⟩⟩

end Split

/-! ## Where a split puts the safepoints -/

section Positions
variable {α : Type} (posOf : α → Nat) {l : List α} (splitPos : Nat) (splitAtStart : Bool)

/-- A prefix walk keeps every element its test accepts when the test, once it
fails along the order, keeps failing. -/
theorem mem_takeWhile_of_pairwise {R : α → α → Prop} {p : α → Bool}
    (hmono : ∀ a b, R a b → p b = true → p a = true) (hsorted : l.Pairwise R) {x : α} (hx : x ∈ l)
    (hp : p x = true) : x ∈ l.takeWhile p := by
  induction l with
  | nil => exact absurd hx (List.not_mem_nil x)
  | cons a l ih =>
    obtain ⟨ha, hl⟩ := List.pairwise_cons.1 hsorted
    by_cases hpa : p a = true
    · rw [List.takeWhile_cons_of_pos hpa]
      rcases List.mem_cons.1 hx with rfl | hx
      · exact List.mem_cons_self _ _
      · exact List.mem_cons_of_mem _ (ih hl hx)
    · rcases List.mem_cons.1 hx with rfl | hx
      · exact absurd hp hpa
      · exact absurd (hmono a x (ha x hx) hp) hpa

/-- On a list in position order, `SplitListOfPositions` keeps in the head every
element the head's test accepts. -/
theorem splitListOfPositions_mem_fst (hsorted : l.Pairwise (fun a b => posOf a ≤ posOf b))
    {x : α} (hx : x ∈ l) (hp : if splitAtStart then posOf x < splitPos else posOf x ≤ splitPos) :
    x ∈ (splitListOfPositions posOf l splitPos splitAtStart).1 := by
  simp only [splitListOfPositions, List.span_eq_take_drop]
  refine mem_takeWhile_of_pairwise (fun a b hab hb => ?_) hsorted hx (by simpa using hp)
  cases splitAtStart <;> simp at hb ⊢ <;> omega

/-- `SplitListOfPositions` leaves in the tail every element the head's test
rejects. -/
theorem splitListOfPositions_mem_snd {x : α} (hx : x ∈ l)
    (hp : ¬ if splitAtStart then posOf x < splitPos else posOf x ≤ splitPos) :
    x ∈ (splitListOfPositions posOf l splitPos splitAtStart).2 := by
  rw [← splitListOfPositions_append posOf l splitPos splitAtStart] at hx
  rcases List.mem_append.1 hx with h | h
  · simp only [splitListOfPositions, List.span_eq_take_drop] at h
    exact absurd (by simpa using List.mem_takeWhile_imp h) hp
  · exact h

end Positions

/-! ## Complete safepoint lists -/

section Complete
variable (c : AllocCtx) (G : List (Nat × Nat)) (defPos : Int → Nat)

/-- A range's safepoints are in position order. -/
def LiveRange.SafepointsSorted (r : LiveRange) : Prop :=
  r.safepoints.Pairwise (fun a b => a.pos ≤ b.pos)

/-- Every slow-path safepoint of `G` in the range's cover, other than its
value's own definition, is on the range's list, at the instruction's end. -/
def LiveRange.SafepointsComplete (r : LiveRange) : Prop :=
  ∀ p ∈ G, (c.safepointInfo p.2).alwaysCalls = false → p.1 ≠ defPos r.vreg → r.covers p.1 = true →
    (⟨toInstructionEnd p.1, p.2⟩ : SafepointPosition) ∈ r.safepoints

/-- What a split needs of a range to hand both pieces complete safepoint
lists. -/
structure LiveRange.CoverInv (r : LiveRange) : Prop where
  separated : r.Separated
  sorted : r.SafepointsSorted
  complete : r.SafepointsComplete c G defPos

/-- A split hands each piece the safepoints its cover needs: a safepoint the
head covers is before the split position, and one the tail covers, at an
instruction start, is after it. -/
theorem splitClosed_coverInv (hG : ∀ p ∈ G, p.1 % 2 = 0) :
    SplitClosed (LiveRange.CoverInv c G defPos) where
  of_shape {r r'} e h := by
    simp only [LiveRange.shape, Prod.mk.injEq] at e
    obtain ⟨e₁, e₂, e₃⟩ := e
    refine ⟨by unfold LiveRange.Separated; rw [e₂]; exact h.separated,
      by unfold LiveRange.SafepointsSorted; rw [e₃]; exact h.sorted,
      fun p hp hslow hdef hcov => ?_⟩
    rw [e₃]
    exact h.complete p hp hslow (e₁ ▸ hdef) (by unfold LiveRange.covers at hcov ⊢; rwa [← e₂])
  split {r} splitPos n h := by
    have hsorted : (r.splitParts splitPos n).1.SafepointsSorted ∧
        (r.splitParts splitPos n).2.SafepointsSorted := by
      have := h.sorted
      rw [LiveRange.SafepointsSorted, ← splitParts_safepoints r splitPos n] at this
      exact ⟨(List.pairwise_append.1 this).1, (List.pairwise_append.1 this).2.1⟩
    have hcov : ∀ pos, (r.splitParts splitPos n).1.covers pos = true ∨
        (r.splitParts splitPos n).2.covers pos = true → r.covers pos = true := by
      intro pos hpos
      rw [LiveRange.covers, splitParts_cover r splitPos n pos, List.any_append]
      simpa [LiveRange.covers] using hpos
    refine ⟨⟨(splitParts_separated h.separated splitPos n).1, hsorted.1,
      fun p hp hslow hdef hhead => ?_⟩, ⟨(splitParts_separated h.separated splitPos n).2,
      hsorted.2, fun p hp hslow hdef htail => ?_⟩⟩
    · have hq := h.complete p hp hslow hdef (hcov p.1 (Or.inl hhead))
      obtain ⟨hlt, hstart⟩ := splitParts_head_covers h.separated splitPos n hhead
      refine splitListOfPositions_mem_fst (fun x : SafepointPosition => x.pos) splitPos _ h.sorted hq ?_
      simp only [toInstructionEnd]
      split_ifs with hs
      · have := hstart (by simpa using hs)
        omega
      · omega
    · have hq := h.complete p hp hslow hdef (hcov p.1 (Or.inr htail))
      have hle := splitParts_tail_covers h.separated splitPos n htail
      have heven := hG p hp
      refine splitListOfPositions_mem_snd (fun x : SafepointPosition => x.pos) splitPos _ hq ?_
      simp only [toInstructionEnd]
      split_ifs <;> omega

/-- After `AllocateUnallocatedRanges` from a state where the invariant holds,
every interval ends by `kMaxPosition`, and every range is well formed with a
complete safepoint list: a range in a machine register has its register
recorded at every slow-path safepoint its cover holds, its own definition
apart. The one exception is a range on a register beyond the register file. -/
theorem allocateUnallocatedRanges_slowPathRegisters (hG : ∀ p ∈ G, p.1 % 2 = 0) (fuel : Nat)
    {s s' : AllocState} (h : LoopInv c (fun r => r.Bounded ∧ r.CoverInv c G defPos) s)
    (hs : allocateUnallocatedRanges c fuel s = some s') {j : Nat}
    (hj : ∀ reg, c.numberOfRegisters ≤ reg → j ∉ s'.registers reg)
    (hv : (s'.ranges j).vreg ≠ kNoVirtualRegister)
    (hm : (s'.ranges j).assigned.isMachineRegister = true) {p : Nat × Nat} (hp : p ∈ G)
    (hslow : (c.safepointInfo p.2).alwaysCalls = false) (hdef : p.1 ≠ defPos (s'.ranges j).vreg)
    (hcov : (s'.ranges j).covers p.1 = true) :
    ((s'.ranges j).assigned, (s'.ranges j).representation) ∈ (s'.locs p.2).liveRegisters := by
  have hP := splitClosed_bounded.and (splitClosed_coverInv c G defPos hG)
  have hend := (loopInv_allocateUnallocatedRanges c hP fuel h hs).shapes j
  exact allocateUnallocatedRanges_converted c hP (fun _ h => h.1) fuel h hs j hj hv hm
    ⟨toInstructionEnd p.1, p.2⟩ (hend.2.complete p hp hslow hdef hcov) hslow

end Complete

end LinearScan
