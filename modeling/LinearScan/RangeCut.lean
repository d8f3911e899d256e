import Mathlib.Data.List.InsertIdx
import LinearScan.Occupancy

/-!
# Cutting one range: what the spill operations do to occupancy

`SpillBetween`, `SpillAfter` and the splits of `AllocateFreeRegister` and
`AllocateAnyRegister` (linearscan.cc 1968–2157) each work on one range: they
split it, give a piece a spill slot, and queue a piece. This module proves that
each of them is a `Cut` of that range (`Occupancy.lean`): the other ranges keep
everything occupancy reads, the new pieces hold no register, and what is queued
is ready for the worklist. The composite operations are chained from one lemma
per primitive (`splitAt_cut`, `spill_cut`, `addToUnallocated_cut`) with
`Cut.trans`.

The shape of the pieces needs the split position to be sensible: at the
range's start, strictly inside it, or before its start. For `SplitBetween`
this is where the parity of positions enters: a register use at an
instruction's start only starts a range, and block and loop-header starts are
instruction starts, so the position `SplitBetween` picks never reaches the use
it is asked to stop before.
-/

namespace LinearScan

open AllocState Finger

@[simp] theorem AllocState.setRange_fresh (s : AllocState) (id : Nat) (r : LiveRange) :
    (s.setRange id r).fresh = s.fresh := rfl
@[simp] theorem AllocState.setRange_unallocated (s : AllocState) (id : Nat) (r : LiveRange) :
    (s.setRange id r).unallocated = s.unallocated := rfl
@[simp] theorem AllocState.setRange_registers (s : AllocState) (id : Nat) (r : LiveRange) :
    (s.setRange id r).registers = s.registers := rfl

/-! ## Calm operations -/

section Calm
variable (c : AllocCtx)

variable {c} in
theorem safeSpill_of_hasStackIndex {l : Location} (h : l.hasStackIndex = true) : SafeSpill c l := by
  refine ⟨?_, fun reg e => ?_⟩
  · cases l <;> simp_all [Location.hasStackIndex, Location.requiresRegisterPolicy]
  · subst e; unfold makeRegisterLocation at h; split at h <;> cases h

variable {c} in
theorem not_holds_of_invalid {r : LiveRange} (h : r.assigned = .invalid) (reg : Nat) :
    ¬ Holds c r reg :=
  fun e => (safeSpill_invalid c).2 reg (h ▸ e)

theorem slotsMono_setSlot (t : AllocState) (k : Nat) {l : Location}
    (hl : l.requiresRegisterPolicy = false) : SlotsMono t.slots (t.setSlot k l).slots := fun j h => by
  rw [setSlot_slots] at h
  split_ifs at h
  · rw [hl] at h; cases h
  · exact h

/-- `ConvertAllUses` of a range whose location asks for no register is calm:
it writes that location into use slots, and records live registers. -/
theorem calm_convertAllUses (s : AllocState) (id : Nat)
    (h : (s.ranges id).assigned.requiresRegisterPolicy = false) : Calm c s (convertAllUses c s id) := by
  have huses : SlotsMono s.slots
      ((s.ranges id).uses.foldl (fun t u => t.setSlot u.slot (s.ranges id).assigned) s).slots :=
    List.foldlRecOn (motive := fun t => SlotsMono s.slots t.slots) _ _ _ (SlotsMono.refl _)
      fun t ht u _ => ht.trans (slotsMono_setSlot t u.slot h)
  refine ⟨fun j => by rw [convertAllUses_ranges]; exact SameBut.refl _, ?_,
    convertAllUses_keep c AllocState.fresh (fun _ _ _ => rfl) (fun _ _ _ => rfl) s id,
    convertAllUses_keep c AllocState.unallocated (fun _ _ _ => rfl) (fun _ _ _ => rfl) s id,
    convertAllUses_keep c AllocState.registers (fun _ _ _ => rfl) (fun _ _ _ => rfl) s id⟩
  simp only [convertAllUses]
  split_ifs
  · exact SlotsMono.refl _
  · rwa [foldl_keep AllocState.slots (fun t sp => by split_ifs <;> rfl)]
  · exact huses

/-- `AllocateSpillSlotFor` is calm: the slot it gives is on the stack. -/
theorem calm_allocateSpillSlotForRange (s : AllocState) (id : Nat) :
    Calm c s (allocateSpillSlotForRange c s id) := by
  refine ⟨fun j => ?_, SlotsMono.refl _, rfl, rfl, rfl⟩
  by_cases hj : j = id
  · subst hj
    exact ⟨allocateSpillSlotForRange_self c s j,
      fun _ => safeSpill_of_hasStackIndex (allocateSpillSlotForRange_hasStackIndex c s j)⟩
  · rw [allocateSpillSlotForRange_ranges_ne c s id hj]; exact SameBut.refl _

theorem calm_markAsObjectAtSafepoints (s : AllocState) (id : Nat) :
    Calm c s (markAsObjectAtSafepoints c s id) :=
  ⟨fun j => by rw [markAsObjectAtSafepoints_ranges]; exact SameBut.refl _,
    by rw [markAsObjectAtSafepoints_slots]; exact SlotsMono.refl _,
    markAsObjectAtSafepoints_keep c AllocState.fresh (fun _ _ _ => rfl) s id,
    markAsObjectAtSafepoints_keep c AllocState.unallocated (fun _ _ _ => rfl) s id,
    markAsObjectAtSafepoints_keep c AllocState.registers (fun _ _ _ => rfl) s id⟩

variable {c}

theorem StateShape.calm {s s' : AllocState} (h : StateShape c s) (hc : Calm c s s') :
    StateShape c s' := by
  have e := hc.ranges
  refine ⟨fun j => (e j).rangeOk ((h.ranges j).slots hc.slots),
    fun j hj reg => by rw [(e j).holds]; exact h.junk j (hc.fresh ▸ hj) reg, ?_,
    hc.unallocated ▸ h.nodup, fun j hj => hc.fresh ▸ h.used j (hc.unallocated ▸ hj)⟩
  rw [hc.unallocated]
  exact h.sorted.imp fun {a b} hab => by rw [(e a).start, (e b).start]; exact hab

/-- A calm step is a cut of any range. -/
theorem Cut.of_calm {pos : Nat} {s s' : AllocState} (h : StateShape c s) (hc : Calm c s s')
    (X : Nat) : Cut c pos s s' X :=
  ⟨h.calm hc, hc.fresh.ge, hc.slots, fun j _ _ => hc.ranges j,
    fun j hj reg => by rw [(hc.ranges j).holds]; exact h.junk j hj reg,
    fun reg => (hc.ranges X).holds.1, fun q hq => (hc.ranges X).intervals ▸ hq,
    fun j hj => .inl (hc.unallocated ▸ hj)⟩

end Calm

/-! ## Replacing one range -/

section SetRange
variable {c : AllocCtx} {pos : Nat}

theorem StateShape.setRange {s : AllocState} (h : StateShape c s) {X : Nat} {r : LiveRange}
    (hr : RangeOk c s.slots r) (hX : X < s.fresh)
    (hstart : X ∈ s.unallocated → r.start = (s.ranges X).start) : StateShape c (s.setRange X r) := by
  have hq : ∀ j ∈ s.unallocated, ((s.setRange X r).ranges j).start = (s.ranges j).start := by
    intro j hj
    by_cases e : j = X
    · subst e; simp [hstart hj]
    · simp [e]
  refine ⟨fun j => ?_, fun j hj reg => ?_, ?_, h.nodup, h.used⟩
  · by_cases e : j = X
    · subst e; simpa using hr
    · simpa [e] using h.ranges j
  · rw [setRange_fresh] at hj
    rw [setRange_ranges, if_neg (by omega)]; exact h.junk j hj reg
  · exact h.sorted.imp_of_mem fun {a b} ha hb hab => by
      simp only [setRange_unallocated] at ha hb ⊢
      rw [hq a ha, hq b hb]; exact hab

/-- Replacing a range off the worklist by one with the same shape that holds
no new register and covers no new position is a cut of it. -/
theorem Cut.setRange {s : AllocState} (h : StateShape c s) {X : Nat} {r : LiveRange}
    (hr : RangeOk c s.slots r) (hX : X < s.fresh) (hXq : X ∉ s.unallocated)
    (hholds : ∀ reg, Holds c r reg → Holds c (s.ranges X) reg)
    (hcov : ∀ q, intervalsCover r.intervals q = true → intervalsCover (s.ranges X).intervals q = true) :
    Cut c pos s (s.setRange X r) X :=
  ⟨h.setRange hr hX fun hm => absurd hm hXq, le_rfl, SlotsMono.refl _,
    fun j _ hj => by rw [setRange_ranges, if_neg hj]; exact SameBut.refl _,
    fun j hj reg => by rw [setRange_ranges, if_neg (by omega)]; exact h.junk j hj reg,
    fun reg hh => hholds reg (by simpa using hh), fun q hq => hcov q (by simpa using hq),
    fun j hj => .inl hj⟩

/-- Moving the finger of a range off the worklist is a cut of it. -/
theorem cut_setFinger {s : AllocState} (h : StateShape c s) {X : Nat} (hX : X < s.fresh)
    (hXq : X ∉ s.unallocated) (f : Finger) :
    Cut c pos s (s.setRange X { s.ranges X with finger := f }) X :=
  let hr := h.ranges X
  Cut.setRange h ⟨hr.ascending, hr.bounded, hr.usesSorted, hr.safepointsSorted, hr.usesCovered,
    hr.evenUse, hr.oddUse, hr.loopPhi, hr.temp, hr.blocking, hr.spillSlot, hr.assigned⟩ hX hXq
    (fun _ hh => hh) (fun _ hq => hq)

end SetRange

/-! ## Splits and spills -/

section Split
variable {c : AllocCtx} {pos : Nat}

/-- A split `SplitAt` may be asked for: at the range's start, where nothing
happens; strictly inside it; or before the start of a range with intervals,
where the sibling takes everything. -/
def SplitOk (r : LiveRange) (p : Nat) : Prop :=
  p = r.start ∨ (r.start < p ∧ p < r.stop) ∨ (p < r.start ∧ r.intervals ≠ [])

variable (c) in
/-- Both pieces of a sensible split keep the shape, and the head covers no new
position. -/
theorem RangeOk.splitParts_ok {slots : Nat → Location} {r : LiveRange} (h : RangeOk c slots r)
    {p : Nat} (hp : SplitOk r p) (hne : p ≠ r.start) (n : Nat) :
    RangeOk c slots (r.splitParts p n).1 ∧ RangeOk c slots (r.splitParts p n).2 ∧
      ∀ q, intervalsCover (r.splitParts p n).1.intervals q = true →
        intervalsCover r.intervals q = true := by
  rcases hp with hp | hp | ⟨hp, hne'⟩
  · exact absurd hp hne
  · obtain ⟨h₁, h₂⟩ := h.splitParts c hp n
    exact ⟨h₁, h₂, fun q hq => ((splitParts_head_cover h.ascending hp n q).1 hq).1⟩
  · obtain ⟨h₁, h₂⟩ := h.splitParts_before_start c hne' hp n
    have hHi := (splitParts_of_lt_start h.ascending hne' hp
      (fun u hu => LiveRange.start_le_use h.ascending h.usesCovered hu) n).1
    exact ⟨h₁, h₂, fun q hq => by simp [hHi] at hq⟩

/-- `SplitAt` at a sensible position of a range off the worklist is a cut of
it. -/
theorem splitAt_cut {s : AllocState} (h : StateShape c s) {X p : Nat} (hX : X < s.fresh)
    (hXq : X ∉ s.unallocated) (hp : SplitOk (s.ranges X) p) : Cut c pos s (splitAt s X p).1 X := by
  unfold splitAt
  dsimp only
  split_ifs with he
  · exact Cut.of_calm h (Calm.refl s) X
  obtain ⟨hH, hT, hcov⟩ := (h.ranges X).splitParts_ok c hp (Ne.symm he) s.fresh
  set t := (s.ranges X).splitParts p s.fresh
  have hr : ∀ j, ({ (s.setRange X t.1).setRange s.fresh t.2 with fresh := s.fresh + 1 } :
      AllocState).ranges j = if j = s.fresh then t.2 else if j = X then t.1 else s.ranges j :=
    fun j => rfl
  have hold : ∀ j, j < s.fresh → j ≠ X → ({ (s.setRange X t.1).setRange s.fresh t.2 with
      fresh := s.fresh + 1 } : AllocState).ranges j = s.ranges j := fun j hj hjX => by
    rw [hr, if_neg (by omega), if_neg hjX]
  refine ⟨⟨fun j => ?_, fun j hj reg => ?_, h.sorted.imp_of_mem fun {a b} ha hb hab => ?_, h.nodup,
    fun j hj => (h.used j hj).trans (Nat.lt_succ_self _)⟩, Nat.le_succ _, SlotsMono.refl _,
    fun j hj hjX => by rw [hold j hj hjX]; exact SameBut.refl _, fun j hj reg => ?_,
    fun reg hh => ?_, fun q hq => ?_, fun j hj => .inl hj⟩
  · show RangeOk c s.slots _
    rw [hr]
    split_ifs
    exacts [hT, hH, h.ranges j]
  · dsimp only at hj
    rw [hr, if_neg (by omega), if_neg (by omega)]
    exact h.junk j (by omega) reg
  · rw [hold a (h.used a ha) fun e => hXq (e ▸ ha), hold b (h.used b hb) fun e => hXq (e ▸ hb)]
    exact hab
  · rw [hr]
    split_ifs with e₁ e₂
    · exact not_holds_of_invalid rfl reg
    · omega
    · exact h.junk j hj reg
  · rw [hr, if_neg (by omega), if_pos rfl] at hh
    exact hh
  · rw [hr, if_neg (by omega), if_pos rfl] at hq
    exact hcov q hq

variable (c) in
/-- `Spill` is a calm step (the parent's spill slot), the move of the range to
that slot, and the conversion of its uses. -/
theorem spill_eq (s : AllocState) (X : Nat) :
    ∃ s₁, Calm c s s₁ ∧ spill c s X = convertAllUses c (s₁.setRange X
      { s₁.ranges X with assigned := (s₁.ranges (s.parentOf X)).spillSlot }) X := by
  refine ⟨_, ?_, rfl⟩
  dsimp only
  split_ifs
  · exact (calm_allocateSpillSlotForRange c s _).trans (calm_markAsObjectAtSafepoints c _ _)
  · exact calm_allocateSpillSlotForRange c s _
  · exact Calm.refl s

theorem spill_unallocated (s : AllocState) (X : Nat) :
    (spill c s X).unallocated = s.unallocated := by
  obtain ⟨s₁, hc₁, e⟩ := spill_eq c s X
  rw [e, convertAllUses_keep c AllocState.unallocated (fun _ _ _ => rfl) (fun _ _ _ => rfl),
    setRange_unallocated, hc₁.unallocated]

/-- `Spill` of a range off the worklist is a cut of it, after which it holds
no register and keeps its intervals and value. -/
theorem spill_cut {s : AllocState} (h : StateShape c s) {X : Nat} (hX : X < s.fresh)
    (hXq : X ∉ s.unallocated) :
    Cut c pos s (spill c s X) X ∧ (∀ reg, ¬ Holds c ((spill c s X).ranges X) reg) ∧
      ((spill c s X).ranges X).intervals = (s.ranges X).intervals ∧
      ((spill c s X).ranges X).vreg = (s.ranges X).vreg := by
  obtain ⟨s₁, hc₁, e⟩ := spill_eq c s X
  have h₁ := h.calm hc₁
  have hsafe := (h₁.ranges (s.parentOf X)).spillSlot
  have hr := h₁.ranges X
  set s₂ := s₁.setRange X { s₁.ranges X with assigned := (s₁.ranges (s.parentOf X)).spillSlot }
  have k₂ : Cut c pos s₁ s₂ X :=
    Cut.setRange h₁ ⟨hr.ascending, hr.bounded, hr.usesSorted, hr.safepointsSorted, hr.usesCovered,
      hr.evenUse, hr.oddUse, hr.loopPhi, hr.temp, hr.blocking, hr.spillSlot, hsafe.1⟩
      (hc₁.fresh ▸ hX) (hc₁.unallocated ▸ hXq) (fun reg hh => absurd hh (hsafe.2 reg))
      (fun _ hq => hq)
  have hc₃ : Calm c s₂ (convertAllUses c s₂ X) := calm_convertAllUses c s₂ X
    (by simp only [s₂, setRange_ranges, if_pos rfl]; exact hsafe.1)
  rw [e]
  refine ⟨((Cut.of_calm h hc₁ X).trans k₂ hX (.inl rfl) (hc₁.unallocated ▸ hXq)).trans
    (Cut.of_calm k₂.base hc₃ X) hX (.inl rfl)
    (by simp only [s₂, setRange_unallocated, hc₁.unallocated]; exact hXq), fun reg => ?_, ?_, ?_⟩ <;>
    rw [convertAllUses_ranges]
  · simpa [s₂] using hsafe.2 reg
  · simp [s₂, (hc₁.ranges X).intervals]
  · simp [s₂, (hc₁.ranges X).vreg]

end Split

/-! ## The worklist -/

section Queue
variable {c : AllocCtx} {pos : Nat}

/-- The last index below `n` that `p` accepts, as the reversed scan of
`AddToSortedListOfRanges` finds it. -/
theorem find?_range_reverse {p : Nat → Bool} :
    ∀ {n i : Nat}, (List.range n).reverse.find? p = some i →
      i < n ∧ p i = true ∧ ∀ j, i < j → j < n → p j = false
  | 0, i, h => by simp at h
  | n + 1, i, h => by
    rw [List.range_succ, List.reverse_append, List.reverse_singleton, List.singleton_append,
      List.find?_cons] at h
    split at h
    · next hpn => cases h; exact ⟨by omega, hpn, fun j h₁ h₂ => by omega⟩
    · next hpn =>
      obtain ⟨h₁, h₂, h₃⟩ := find?_range_reverse h
      exact ⟨by omega, h₂, fun j hj₁ hj₂ => if e : j = n then e ▸ hpn else h₃ j hj₁ (by omega)⟩

theorem sortedInsertIndex_le (s : AllocState) (l : List Nat) (st : Nat) :
    sortedInsertIndex s l st ≤ l.length := by
  unfold sortedInsertIndex
  split
  · next i hi => exact (find?_range_reverse hi).1
  · exact Nat.zero_le _

theorem mem_addToUnallocated {s : AllocState} {X j : Nat} :
    j ∈ (addToUnallocated s X).unallocated ↔ j = X ∨ j ∈ s.unallocated :=
  List.mem_insertIdx (sortedInsertIndex_le _ _ _)

@[simp] theorem addToUnallocated_slots (s : AllocState) (X : Nat) :
    (addToUnallocated s X).slots = s.slots := rfl

@[simp] theorem addToUnallocated_registers (s : AllocState) (X : Nat) :
    (addToUnallocated s X).registers = s.registers := rfl

theorem splitAt_registers (s : AllocState) (X p : Nat) : (splitAt s X p).1.registers = s.registers := by
  unfold splitAt; dsimp only; split_ifs <;> rfl

/-- The insertion index of `AddToSortedListOfRanges` on a list sorted by
non-increasing start: the ranges before it start at or after the new one, the
ranges after it before. -/
theorem sortedInsertIndex_spec (s : AllocState) {l : List Nat} (st : Nat)
    (hl : l.Pairwise fun a b => (s.ranges b).start ≤ (s.ranges a).start) :
    sortedInsertIndex s l st ≤ l.length ∧
      (∀ x ∈ l.take (sortedInsertIndex s l st), st ≤ (s.ranges x).start) ∧
      ∀ x ∈ l.drop (sortedInsertIndex s l st), (s.ranges x).start < st := by
  have hget : ∀ i (hi : i < l.length), l.getD i 0 = l[i] := fun i hi => by
    simp [List.getD_eq_getElem?_getD, hi]
  unfold sortedInsertIndex
  split
  · next i hi =>
    obtain ⟨hlt, hp, hafter⟩ := find?_range_reverse hi
    simp only [hget i hlt, decide_eq_true_eq] at hp
    refine ⟨hlt, fun x hx => ?_, fun x hx => ?_⟩
    · rw [List.take_succ, List.getElem?_eq_getElem hlt, Option.toList_some] at hx
      rcases List.mem_append.1 hx with hx | hx
      · have hsub : (l.take i ++ [l[i]]).Sublist l := by
          rw [← Option.toList_some, ← List.getElem?_eq_getElem hlt, ← List.take_succ]
          exact List.take_sublist _ _
        exact hp.trans ((List.pairwise_append.1 (hl.sublist hsub)).2.2 x hx _ (by simp))
      · rw [List.mem_singleton.1 hx]; exact hp
    · obtain ⟨j, hj, rfl⟩ := List.getElem_of_mem hx
      have hj' : i + 1 + j < l.length := by simp at hj; omega
      have := hafter (i + 1 + j) (by omega) hj'
      rw [hget _ hj', decide_eq_false_iff_not, Nat.not_le] at this
      rw [List.getElem_drop]
      exact this
  · next hnone =>
    refine ⟨Nat.zero_le _, by simp, fun x hx => ?_⟩
    obtain ⟨j, hj, rfl⟩ := List.getElem_of_mem hx
    have hj' : j < l.length := by simpa using hj
    have := List.find?_eq_none.1 hnone j (by simp; omega)
    rw [hget j hj', decide_eq_true_eq, Nat.not_le] at this
    simpa using this

theorem insertIdx_eq_take_drop {α : Type} (x : α) :
    ∀ (k : Nat) (l : List α), k ≤ l.length → l.insertIdx k x = l.take k ++ x :: l.drop k
  | 0, l, _ => by simp [List.insertIdx_zero]
  | k + 1, [], h => by simp at h
  | k + 1, y :: l, h => by
    rw [List.insertIdx_succ_cons, insertIdx_eq_take_drop x k l (by simpa using h)]
    rfl

/-- `AddToSortedListOfRanges` of a range ready for the worklist is a cut of
it. -/
theorem addToUnallocated_cut {s : AllocState} (h : StateShape c s) {X : Nat} (hX : X < s.fresh)
    (hXq : X ∉ s.unallocated) (hstart : pos ≤ (s.ranges X).start) (hpos : 0 < (s.ranges X).start)
    (hne : (s.ranges X).intervals ≠ []) (hv : (s.ranges X).vreg ≠ kNoVirtualRegister)
    (hfree : ∀ reg, ¬ Holds c (s.ranges X) reg) : Cut c pos s (addToUnallocated s X) X := by
  set s₁ := s.setRange X { s.ranges X with finger := Finger.reset (s.ranges X) }
  have k₁ : Cut c pos s s₁ X := cut_setFinger h hX hXq _
  have e₁ : ∀ j, (s₁.ranges j).start = (s.ranges j).start := fun j => by
    by_cases e : j = X
    · subst e; simp [s₁]; rfl
    · simp [s₁, e]
  obtain ⟨hk, htake, hdrop⟩ := sortedInsertIndex_spec s₁ (s.ranges X).start
    (l := s₁.unallocated) k₁.base.sorted
  have hins : (addToUnallocated s X).unallocated =
      s.unallocated.take (sortedInsertIndex s₁ s₁.unallocated (s.ranges X).start) ++
        X :: s.unallocated.drop (sortedInsertIndex s₁ s₁.unallocated (s.ranges X).start) :=
    insertIdx_eq_take_drop X _ _ hk
  have hperm : (addToUnallocated s X).unallocated.Perm (X :: s.unallocated) :=
    List.perm_insertIdx X s.unallocated hk
  have hranges : (addToUnallocated s X).ranges = s₁.ranges := rfl
  refine ⟨⟨fun j => k₁.base.ranges j, fun j hj reg => k₁.base.junk j hj reg, ?_,
    hperm.nodup_iff.2 (List.nodup_cons.2 ⟨hXq, h.nodup⟩), fun j hj => ?_⟩, le_rfl, SlotsMono.refl _,
    k₁.keep, k₁.junk, k₁.holds, k₁.covers, fun j hj => ?_⟩
  · rw [hins, hranges]
    have hl := k₁.base.sorted
    rw [← List.take_append_drop (sortedInsertIndex s₁ s₁.unallocated (s.ranges X).start)
      s₁.unallocated] at hl
    obtain ⟨hl₁, hl₂, hl₁₂⟩ := List.pairwise_append.1 hl
    refine List.pairwise_append.2 ⟨hl₁, List.pairwise_cons.2 ⟨fun b hb => ?_, hl₂⟩,
      fun a ha b hb => ?_⟩
    · rw [e₁ X]; exact (hdrop b hb).le
    · rcases List.mem_cons.1 hb with rfl | hb
      · rw [e₁ b]; exact htake a ha
      · exact hl₁₂ a ha b hb
  · rcases List.mem_cons.1 (hperm.subset hj) with rfl | hj
    · exact hX
    · exact h.used j hj
  · rcases List.mem_cons.1 (hperm.subset hj) with rfl | hj
    · refine .inr ⟨.inl rfl, hX, ?_, ?_, ?_, ?_, ?_, fun reg => ?_⟩ <;>
        simp only [hranges, s₁, setRange_ranges, if_pos rfl]
      exacts [hstart, hpos, hne, rfl, hv, hfree reg]
    · exact .inl hj

end Queue

/-! ## The split positions of `SpillBetween` -/

section Parity
variable {c : AllocCtx} (hc : c.LoopOrder) (hbe : ∀ p, c.blockStart p % 2 = 0)
  (hhe : ∀ l, (c.loops l).headerStart % 2 = 0)
include hc hbe hhe

/-- `SplitBetween` from a range's start, asked to stop by a register use of
the range, cuts before the range's end: a register use at an instruction's
start only opens a range, and blocks and loop headers start at instruction
starts. -/
theorem splitBetweenPos_lt_stop {slots : Nat → Location} {r : LiveRange} (h : RangeOk c slots r)
    {toPos : Nat} (hlt : r.start < toPos) {u : UsePosition} (hu : u ∈ r.uses)
    (hreg : isRegisterUse slots u = true) (hle : toPos ≤ u.pos) :
    splitBetweenPos c r.start toPos < r.stop := by
  obtain ⟨iv, hiv, -, hstop⟩ := h.usesCovered u hu
  have hivstop := LiveRange.stop_le_stop h.ascending hiv
  by_cases hb : r.start < c.blockStart toPos
  · obtain ⟨-, h₂, h₃⟩ := splitBetweenPos_of_lt hc hb
    have heven : splitBetweenPos c r.start toPos % 2 = 0 := by
      rcases h₃ with ⟨e, -⟩ | ⟨-, l, -, -, -, -, e⟩ <;> rw [e]
      exacts [hbe _, hhe _]
    by_contra hge
    have := h.evenUse u hu hreg (by omega)
    omega
  · have e : splitBetweenPos c r.start toPos = toInstructionStart toPos - 1 := by
      simp [splitBetweenPos, hb]
    have := toInstructionStart_le toPos
    omega

end Parity

/-! ## `SpillBetween` and `SpillAfter` -/

section SplitAtFacts
variable {c : AllocCtx} (s : AllocState) (X p : Nat)

theorem splitAt_of_start (h : (s.ranges X).start = p) : splitAt s X p = (s, X) := by
  simp [splitAt, h]

theorem splitAt_unallocated : (splitAt s X p).1.unallocated = s.unallocated := by
  unfold splitAt; dsimp only; split_ifs <;> rfl

theorem splitAt_slots : (splitAt s X p).1.slots = s.slots := by
  unfold splitAt; dsimp only; split_ifs <;> rfl

variable {s X p} (h : (s.ranges X).start ≠ p)
include h

theorem splitAt_snd : (splitAt s X p).2 = s.fresh := by simp [splitAt, h]

theorem splitAt_fresh : (splitAt s X p).1.fresh = s.fresh + 1 := by simp [splitAt, h]

theorem splitAt_ranges (j : Nat) :
    (splitAt s X p).1.ranges j = if j = s.fresh then ((s.ranges X).splitParts p s.fresh).2
      else if j = X then ((s.ranges X).splitParts p s.fresh).1 else s.ranges j := by
  simp [splitAt, h]

end SplitAtFacts

/-- After its first split, `SpillBetween` goes on as from the start of the
piece it cut off. -/
theorem spillBetween_eq (c : AllocCtx) (s : AllocState) (X fromPos toPos : Nat) :
    spillBetween c s X fromPos toPos =
      spillBetween c (splitAt s X fromPos).1 (splitAt s X fromPos).2
        ((splitAt s X fromPos).1.ranges (splitAt s X fromPos).2).start toPos := by
  conv_rhs => unfold spillBetween
  rw [splitAt_of_start _ _ _ rfl]
  rfl

variable (c) in
/-- The sibling of a sensible split at `p`, off the range's start: it has
intervals, starts at or after the range, and at or after `p` when the cut is
inside the range, and takes every use after `p`. -/
theorem RangeOk.splitParts_tail {slots : Nat → Location} {r : LiveRange} (h : RangeOk c slots r)
    {p : Nat} (hp : SplitOk r p) (hne : p ≠ r.start) (n : Nat) :
    (r.splitParts p n).2.intervals ≠ [] ∧ r.start ≤ (r.splitParts p n).2.start ∧
      (r.start < p → p ≤ (r.splitParts p n).2.start) ∧
      ∀ u ∈ r.uses, p < u.pos → u ∈ (r.splitParts p n).2.uses := by
  rcases hp with hp | hp | ⟨hp, hne'⟩
  · exact absurd hp hne
  · have hk := splitParts_contract h.ascending hp h.usesSorted h.safepointsSorted n
    refine ⟨hk.wf.2.1, by have := hk.bounds.2.1; omega, fun _ => hk.bounds.2.1,
      fun u hu hup => ?_⟩
    rw [hk.uses.2.2, List.mem_filter]
    refine ⟨hu, ?_⟩
    cases e : r.keepsAt p u.pos
    · rfl
    · rcases LiveRange.keepsAt_eq_true.1 e with h' | ⟨h', -⟩ <;> omega
  · obtain ⟨-, -, hTi, hTu⟩ := splitParts_of_lt_start h.ascending hne' hp
      (fun u hu => LiveRange.start_le_use h.ascending h.usesCovered hu) n
    exact ⟨hTi ▸ hne', by simp [LiveRange.start, hTi], fun h' => absurd h' (by omega),
      fun u hu _ => hTu ▸ hu⟩

section Spill
variable {c : AllocCtx} (hc : c.LoopOrder) (hbe : ∀ p, c.blockStart p % 2 = 0)
  (hhe : ∀ l, (c.loops l).headerStart % 2 = 0) {pos : Nat}
include hc hbe hhe

/-- `SpillBetween(range, range->Start(), to)` on a range off the worklist is a
cut of it after which it holds no register: it is spilled up to where
`SplitBetween` cuts before `to`, and the rest is queued; or, when `to` is not
after its start, it is queued whole. -/
theorem spillBetween_start_cut {s : AllocState} (h : StateShape c s) {X toPos : Nat}
    (hX : X < s.fresh) (hXq : X ∉ s.unallocated) (hne : (s.ranges X).intervals ≠ [])
    (hpos : pos ≤ (s.ranges X).start) (hpos0 : 0 < (s.ranges X).start)
    (hv : (s.ranges X).vreg ≠ kNoVirtualRegister)
    (hto : (s.ranges X).start < toPos →
      ∃ u ∈ (s.ranges X).uses, isRegisterUse s.slots u = true ∧ toPos ≤ u.pos)
    (hfree : ¬ (s.ranges X).start < toPos → ∀ reg, ¬ Holds c (s.ranges X) reg) :
    Cut c pos s (spillBetween c s X (s.ranges X).start toPos) X ∧
      ∀ reg, ¬ Holds c ((spillBetween c s X (s.ranges X).start toPos).ranges X) reg := by
  unfold spillBetween
  rw [splitAt_of_start s X _ rfl]
  dsimp only
  split_ifs with hlt
  · obtain ⟨u, hu, hreg, hle⟩ := hto hlt
    have hsp := splitBetweenPos_lt_stop hc hbe hhe (h.ranges X) hlt hu hreg hle
    unfold splitBetween
    set sp := splitBetweenPos c (s.ranges X).start toPos
    have hok : SplitOk (s.ranges X) sp := by
      rcases lt_trichotomy sp (s.ranges X).start with h₁ | h₁ | h₁
      · exact .inr (.inr ⟨h₁, hne⟩)
      · exact .inl h₁
      · exact .inr (.inl ⟨h₁, hsp⟩)
    have k₂ : Cut c pos s (splitAt s X sp).1 X := splitAt_cut h hX hXq hok
    have hq₂ := splitAt_unallocated s X sp
    -- the piece `SpillBetween` queues: the range itself, or the new sibling
    have htt : (splitAt s X sp).2 < (splitAt s X sp).1.fresh ∧
        ((splitAt s X sp).2 = X → (splitAt s X sp).1 = s) ∧
        ((splitAt s X sp).2 = X ∨ s.fresh ≤ (splitAt s X sp).2) ∧
        (splitAt s X sp).2 ∉ s.unallocated ∧
        ((splitAt s X sp).2 ≠ X →
          ((splitAt s X sp).1.ranges (splitAt s X sp).2).intervals ≠ [] ∧
          (s.ranges X).start ≤ ((splitAt s X sp).1.ranges (splitAt s X sp).2).start ∧
          ((splitAt s X sp).1.ranges (splitAt s X sp).2).vreg = (s.ranges X).vreg ∧
          ((splitAt s X sp).1.ranges (splitAt s X sp).2).assigned = .invalid) := by
      by_cases he : (s.ranges X).start = sp
      · rw [splitAt_of_start s X sp he]
        exact ⟨hX, fun _ => rfl, .inl rfl, hXq, fun h => absurd rfl h⟩
      · rw [splitAt_snd he, splitAt_fresh he, splitAt_ranges he, if_pos rfl]
        obtain ⟨h₁, h₂, -, -⟩ := (h.ranges X).splitParts_tail c hok (Ne.symm he) s.fresh
        exact ⟨Nat.lt_succ_self _, fun e => absurd e (by omega), .inr le_rfl,
          fun hm => by have := h.used _ hm; omega, fun _ => ⟨h₁, h₂, rfl, rfl⟩⟩
    rcases e₂ : splitAt s X sp with ⟨s₂, tt⟩
    rw [e₂] at k₂ hq₂ htt
    dsimp only at htt ⊢
    obtain ⟨htt₁, htt₀, htt₂, htt₃, htt₄⟩ := htt
    have hX₂ : X < s₂.fresh := hX.trans_le k₂.fresh
    obtain ⟨k₃, hfree₃, hivs₃, hv₃⟩ :=
      (spill_cut k₂.base hX₂ (hq₂ ▸ hXq) : Cut c pos s₂ (spill c s₂ X) X ∧ _)
    have hq₃ : (spill c s₂ X).unallocated = s.unallocated := by rw [spill_unallocated, hq₂]
    -- the queued piece is ready for the worklist
    have hready : pos ≤ ((spill c s₂ X).ranges tt).start ∧ 0 < ((spill c s₂ X).ranges tt).start ∧
        ((spill c s₂ X).ranges tt).intervals ≠ [] ∧
        ((spill c s₂ X).ranges tt).vreg ≠ kNoVirtualRegister ∧
        ∀ reg, ¬ Holds c ((spill c s₂ X).ranges tt) reg := by
      by_cases htX : tt = X
      · subst htX
        have e := htt₀ rfl
        rw [e] at hivs₃ hv₃ hfree₃ ⊢
        have hst : ((spill c s tt).ranges tt).start = (s.ranges tt).start := by
          simp only [LiveRange.start, hivs₃]
        exact ⟨hst ▸ hpos, hst ▸ hpos0, hivs₃ ▸ hne, hv₃ ▸ hv, hfree₃⟩
      · have e := k₃.keep tt htt₁ htX
        obtain ⟨h₁, h₂, h₃, h₄⟩ := htt₄ htX
        exact ⟨e.start ▸ hpos.trans h₂, e.start ▸ hpos0.trans_le h₂, e.intervals ▸ h₁,
          e.vreg ▸ h₃ ▸ hv, fun reg => by rw [e.holds]; exact not_holds_of_invalid h₄ reg⟩
    have k₄ := addToUnallocated_cut k₃.base (htt₁.trans_le k₃.fresh)
      (by rw [hq₃]; exact htt₃) hready.1 hready.2.1 hready.2.2.1 hready.2.2.2.1 hready.2.2.2.2
    exact ⟨(k₂.trans k₃ hX (.inl rfl) (hq₂ ▸ hXq)).trans k₄ hX htt₂ (by rw [hq₃]; exact htt₃),
      fun reg hh => hfree₃ reg (k₄.old hh).2.1⟩
  · have k := addToUnallocated_cut h hX hXq hpos hpos0 hne hv (hfree hlt)
    exact ⟨k, fun reg hh => hfree hlt reg (k.old hh).2.1⟩

/-- `SpillBetween(range, from, to)` on a range off the worklist that covers
something from `from` on is a cut of it, after which the range holds its
register, if at all, only before `from`. -/
theorem spillBetween_cut {s : AllocState} (h : StateShape c s) {X fromPos toPos : Nat}
    (hX : X < s.fresh) (hXq : X ∉ s.unallocated) (hne : (s.ranges X).intervals ≠ [])
    (hfrom : (s.ranges X).start ≤ fromPos) (hstop : fromPos < (s.ranges X).stop)
    (hpos : pos ≤ fromPos) (hpos0 : 0 < fromPos) (hv : (s.ranges X).vreg ≠ kNoVirtualRegister)
    (hto : fromPos < toPos →
      ∃ u ∈ (s.ranges X).uses, isRegisterUse s.slots u = true ∧ toPos ≤ u.pos)
    (hfree : (s.ranges X).start = fromPos → ¬ fromPos < toPos →
      ∀ reg, ¬ Holds c (s.ranges X) reg) :
    Cut c pos s (spillBetween c s X fromPos toPos) X ∧
      ∀ reg, Holds c ((spillBetween c s X fromPos toPos).ranges X) reg →
        ∀ q, intervalsCover ((spillBetween c s X fromPos toPos).ranges X).intervals q = true →
          q < fromPos := by
  rcases Nat.lt_or_eq_of_le hfrom with hlt | heq
  · -- a cut inside the range: the head keeps what lies before `from`
    have hok : SplitOk (s.ranges X) fromPos := .inr (.inl ⟨hlt, hstop⟩)
    have he : (s.ranges X).start ≠ fromPos := hlt.ne
    have k₁ : Cut c pos s (splitAt s X fromPos).1 X := splitAt_cut h hX hXq hok
    obtain ⟨hT₁, -, hT₃, hT₄⟩ := (h.ranges X).splitParts_tail c hok (Ne.symm he) s.fresh
    have hT : (splitAt s X fromPos).1.ranges s.fresh = ((s.ranges X).splitParts fromPos s.fresh).2 := by
      rw [splitAt_ranges he, if_pos rfl]
    have hfq : s.fresh ∉ (splitAt s X fromPos).1.unallocated := by
      rw [splitAt_unallocated]; exact fun hm => by have := h.used _ hm; omega
    have hstart := hT₃ hlt
    obtain ⟨k₂, -⟩ := (spillBetween_start_cut hc hbe hhe k₁.base
      (by rw [splitAt_fresh he]; omega) hfq (hT ▸ hT₁)
      (hT ▸ hpos.trans hstart) (hT ▸ hpos0.trans_le hstart) (hT ▸ hv)
      (fun hlt' => by
        obtain ⟨u, hu, hreg, hle⟩ := hto (by rw [hT] at hlt'; omega)
        refine ⟨u, hT ▸ hT₄ u hu (by rw [hT] at hlt'; omega), by rwa [splitAt_slots], hle⟩)
      (fun _ reg => hT ▸ not_holds_of_invalid rfl reg) :
      Cut c pos (splitAt s X fromPos).1 (spillBetween c (splitAt s X fromPos).1 s.fresh
        ((splitAt s X fromPos).1.ranges s.fresh).start toPos) s.fresh ∧ _)
    rw [spillBetween_eq, splitAt_snd he]
    refine ⟨k₁.trans k₂ hX (.inr le_rfl) hfq, fun reg hh q hq => ?_⟩
    have e := k₂.keep X (by rw [splitAt_fresh he]; omega) (by omega)
    rw [e.intervals, splitAt_ranges he, if_neg (by omega), if_pos rfl] at hq
    exact ((splitParts_head_cover (h.ranges X).ascending ⟨hlt, hstop⟩ s.fresh q).1 hq).2
  · -- `from` is the start: the range itself is spilled from its start
    subst heq
    obtain ⟨k, hk⟩ := spillBetween_start_cut hc hbe hhe h hX hXq hne hpos hpos0 hv hto (hfree rfl)
    exact ⟨k, fun reg hh => absurd hh (hk reg)⟩

omit hbe hhe in
/-- `SpillAfter(range, from)` on a range off the worklist that covers
something from `from` on is a cut of it, after which the range holds its
register, if at all, only before `from`. -/
theorem spillAfter_cut {s : AllocState} (h : StateShape c s) {X fromPos : Nat}
    (hX : X < s.fresh) (hXq : X ∉ s.unallocated)
    (hfrom : (s.ranges X).start ≤ fromPos) (hstop : fromPos < (s.ranges X).stop) :
    Cut c pos s (spillAfter c s X fromPos) X ∧
      ∀ reg, Holds c ((spillAfter c s X fromPos).ranges X) reg →
        ∀ q, intervalsCover ((spillAfter c s X fromPos).ranges X).intervals q = true →
          q < fromPos := by
  -- the position after the move back to the loop header
  obtain ⟨p, hp₁, hp₂, e⟩ : ∃ p, (s.ranges X).start ≤ p ∧ p ≤ fromPos ∧
      spillAfter c s X fromPos = spill c (splitAt s X p).1 (splitAt s X p).2 := by
    unfold spillAfter
    split
    · next l hl =>
      split_ifs with hcond
      · simp only [Bool.and_eq_true, decide_eq_true_eq] at hcond
        exact ⟨_, hcond.1, (hc.header_le_blockStart _ _ hl).trans (hc.blockStart_le _), rfl⟩
      · exact ⟨fromPos, hfrom, le_rfl, rfl⟩
    · exact ⟨fromPos, hfrom, le_rfl, rfl⟩
  rw [e]
  by_cases he : (s.ranges X).start = p
  · rw [splitAt_of_start s X p he]
    obtain ⟨k, hk, -, -⟩ := (spill_cut h hX hXq : Cut c pos s (spill c s X) X ∧ _)
    exact ⟨k, fun reg hh => absurd hh (hk reg)⟩
  · have hlt : (s.ranges X).start < p := lt_of_le_of_ne hp₁ he
    have k₁ : Cut c pos s (splitAt s X p).1 X := splitAt_cut h hX hXq (.inr (.inl ⟨hlt, by omega⟩))
    have hfq : s.fresh ∉ (splitAt s X p).1.unallocated := by
      rw [splitAt_unallocated]; exact fun hm => by have := h.used _ hm; omega
    obtain ⟨k₂, -, -, -⟩ := (spill_cut k₁.base (by rw [splitAt_fresh he]; omega) hfq :
      Cut c pos (splitAt s X p).1 (spill c (splitAt s X p).1 s.fresh) s.fresh ∧ _)
    rw [splitAt_snd he]
    refine ⟨k₁.trans k₂ hX (.inr le_rfl) hfq, fun reg hh q hq => ?_⟩
    have e := k₂.keep X (by rw [splitAt_fresh he]; omega) (by omega)
    rw [e.intervals, splitAt_ranges he, if_neg (by omega), if_pos rfl] at hq
    have := ((splitParts_head_cover (h.ranges X).ascending ⟨hlt, by omega⟩ s.fresh q).1 hq).2
    omega

end Spill

end LinearScan
