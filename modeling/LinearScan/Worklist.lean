import LinearScan.Advance

/-!
# Register non-overlap

The worklist loop pops the range with the least start, advances the occupants
to it, and places the range on a free register or on any register. Each
iteration keeps the occupancy invariant, moved up to the start of the range it
pops (`allocateStep_inv`): the pop raises the invariant's position to that
start (`RegInv.pop`), `AdvanceActiveIntervals` makes the occupants live, and
`AllocateFreeRegister` and `AllocateAnyRegister` each keep it. A whole run
keeps it and empties the worklist (`allocationLoop_inv`); the final retirement
keeps it, and the catch-entry fix-up only reserves spill slots.

Main result: `allocateUnallocatedRanges_disjoint`, the invariant's `disjoint`
field read off at the end of `AllocateUnallocatedRanges`: two ranges holding
one register cover no common position. It assumes the invariant at position
`0` of the state the loop starts from.
-/

namespace LinearScan

open AllocState Finger

/-! ## The pop -/

section Pop
variable {c : AllocCtx} {p : Nat} {s : AllocState} {R : Nat}

/-- Popping the last range of the worklist, the one with the least start, moves
the invariant up to its start, where the range is in hand. -/
theorem RegInv.pop (h : RegInv c p s) (hlast : s.unallocated.getLast? = some R) :
    p ≤ (s.ranges R).start ∧
      RegInv c (s.ranges R).start { s with unallocated := s.unallocated.dropLast } ∧
      Ready c (s.ranges R).start { s with unallocated := s.unallocated.dropLast } R := by
  obtain ⟨ys, hys⟩ := List.getLast?_eq_some_iff.1 hlast
  have q := h.queued R (by rw [hys]; exact List.mem_append_right _ (List.mem_singleton_self _))
  have hsorted := h.sorted
  have hnodup := h.nodup
  rw [hys, List.pairwise_append] at hsorted
  rw [hys, List.nodup_append] at hnodup
  have hmin : ∀ j ∈ s.unallocated, (s.ranges R).start ≤ (s.ranges j).start := fun j hj => by
    rw [hys, List.mem_append, List.mem_singleton] at hj
    rcases hj with hj | rfl
    · exact hsorted.2.2 j hj R (List.mem_singleton_self _)
    · exact le_rfl
  have h' := h.mono q.start hmin
  rw [hys, List.dropLast_concat]
  refine ⟨q.start, ⟨h'.ranges, h'.junk, hsorted.1, hnodup.1, fun j hj => ?_, h'.outside,
      h'.regsNodup, h'.oneBlocking, fun reg a ha => ?_, h'.retired, h'.disjoint⟩,
    q.fresh, fun hR => hnodup.2.2 hR (List.mem_singleton_self _), q.free, rfl, q.nonempty, q.vreg,
    ?_, ?_⟩
  · obtain ⟨hf, hs, hp, hne, hr, hv, hfree⟩ := h'.queued j (by rw [hys]; exact List.mem_append_left _ hj)
    exact ⟨hf, hs, hp, hne, hr, hv, hfree⟩
  · obtain ⟨hh, hp, hc, hs⟩ := h'.occupants reg a ha
    exact ⟨hh, hp, hc, hs⟩
  · show (s.ranges R).finger.pending = some 0
    rw [q.reset]
    simp [Finger.reset, q.nonempty]
  · show UseCacheValid (isRegisterUse s.slots) (s.ranges R).uses (s.ranges R).finger.registerUse _
    rw [q.reset]
    exact useCacheValid_reset _ _ _

end Pop

/-! ## The catch-entry fix-up -/

section Fixup
variable {c : AllocCtx}

/-- The catch-entry fix-up only reserves a spill slot. -/
theorem calm_catchEntryFixup {s s' : AllocState} {pos vreg : Nat}
    (h : catchEntryFixup c s pos vreg = some s') : Calm c s s' := by
  unfold catchEntryFixup at h
  dsimp only at h
  cases hf : findCoverRange s (s.liveRanges vreg) pos with
  | none => rw [hf] at h; cases h
  | some cover =>
    rw [hf] at h
    dsimp only [bind, Option.bind, pure] at h
    split_ifs at h <;> cases h <;>
      first | exact Calm.refl s | exact calm_allocateSpillSlotForRange c s _

/-- A monadic fold of calm steps is calm. -/
theorem calm_foldlM {α : Type} {f : AllocState → α → Option AllocState}
    (hf : ∀ s a s', f s a = some s' → Calm c s s') :
    ∀ (l : List α) (s s' : AllocState), l.foldlM f s = some s' → Calm c s s'
  | [], s, _, h => by cases h; exact Calm.refl s
  | a :: l, s, s', h => by
    rw [List.foldlM_cons] at h
    obtain ⟨t, ht, h⟩ := Option.bind_eq_some.1 h
    exact (hf s a t ht).trans (calm_foldlM hf l t s' h)

end Fixup

/-! ## The loop -/

section Loop
variable {c : AllocCtx} (hc : c.LoopOrder) (hbe : ∀ p, c.blockStart p % 2 = 0)
  (hhe : ∀ l, (c.loops l).headerStart % 2 = 0)
  (hblocked : ∀ reg, c.numberOfRegisters ≤ reg → c.blocked reg = true)
include hc hbe hhe hblocked

/-- One iteration of the worklist loop keeps the invariant, moved up to the
start of the range it pops. -/
theorem allocateStep_inv {p : Nat} {s s' : AllocState} {R : Nat} (h : RegInv c p s)
    (hlast : s.unallocated.getLast? = some R)
    (hs : allocateStep c { s with unallocated := s.unallocated.dropLast } R = some s') :
    p ≤ (s.ranges R).start ∧ RegInv c (s.ranges R).start s' := by
  obtain ⟨hle, h₁, hR₁⟩ := h.pop hlast
  have H := advanceActiveIntervals_spec h₁
  refine ⟨hle, ?_⟩
  unfold allocateStep at hs
  dsimp only at hs
  split at hs
  · next hfree =>
    cases hs
    exact allocateFreeRegister_inv hblocked H.inv (H.ready R hR₁) hfree
  · split_ifs at hs
    cases hs
    exact allocateAnyRegister_inv hc hbe hhe hblocked H.inv H.toLive (H.ready R hR₁)
      (h.queued R (List.mem_of_getLast?_eq_some hlast)).positive

/-- A run of the worklist loop that completes keeps the invariant, at a
position up to `kMaxPosition`, and empties the worklist. -/
theorem allocationLoop_inv : ∀ (fuel : Nat) {p : Nat} {s s' : AllocState}, RegInv c p s →
    p ≤ kMaxPosition → allocationLoop c fuel s = some s' →
    ∃ p', p' ≤ kMaxPosition ∧ RegInv c p' s' ∧ s'.unallocated = []
  | 0, p, s, s', h, hp, hs => by
    unfold allocationLoop at hs
    split_ifs at hs with he
    cases hs
    exact ⟨p, hp, h, he⟩
  | fuel + 1, p, s, s', h, hp, hs => by
    unfold allocationLoop at hs
    cases hlast : s.unallocated.getLast? with
    | none =>
      rw [hlast] at hs
      cases hs
      exact ⟨p, hp, h, List.getLast?_eq_none_iff.1 hlast⟩
    | some R =>
      rw [hlast] at hs
      dsimp only at hs
      cases hstep : allocateStep c { s with unallocated := s.unallocated.dropLast } R with
      | none => rw [hstep] at hs; cases hs
      | some s₁ =>
        rw [hstep] at hs
        have q := h.queued R (List.mem_of_getLast?_eq_some hlast)
        exact allocationLoop_inv fuel (allocateStep_inv hc hbe hhe hblocked h hlast hstep).2
          (lt_of_intervalsCover (h.ranges R).bounded
            (LiveRange.cover_start (h.ranges R).ascending q.nonempty)).le hs

/-- After one iteration the worklist is still sorted, latest start first, and
every range on it starts no earlier than the range just allocated, so the loop
allocates ranges in order of their starts, splits and spills requeued included. -/
theorem allocateStep_worklist_order {p : Nat} {s s' : AllocState} {R : Nat} (h : RegInv c p s)
    (hlast : s.unallocated.getLast? = some R)
    (hs : allocateStep c { s with unallocated := s.unallocated.dropLast } R = some s') :
    s'.unallocated.Pairwise (fun a b => (s'.ranges b).start ≤ (s'.ranges a).start) ∧
      ∀ j ∈ s'.unallocated, (s.ranges R).start ≤ (s'.ranges j).start :=
  have h' := (allocateStep_inv hc hbe hhe hblocked h hlast hs).2
  ⟨h'.sorted, fun j hj => (h'.queued j hj).start⟩

/-- Register non-overlap: a run of `AllocateUnallocatedRanges` that completes,
from a state with the occupancy invariant at position `0`, leaves any two
ranges that hold one register covering no common position. -/
theorem allocateUnallocatedRanges_disjoint {fuel : Nat} {s s' : AllocState} (h : RegInv c 0 s)
    (hs : allocateUnallocatedRanges c fuel s = some s') :
    ∀ reg j k, j ≠ k → Holds c (s'.ranges j) reg → Holds c (s'.ranges k) reg →
      ∀ q, intervalsCover (s'.ranges j).intervals q = true →
        intervalsCover (s'.ranges k).intervals q = false := by
  unfold allocateUnallocatedRanges at hs
  obtain ⟨t, ht, hs⟩ := Option.bind_eq_some.1 hs
  obtain ⟨p, hp, h₁, hemp⟩ := allocationLoop_inv hc hbe hhe hblocked fuel h (Nat.zero_le _) ht
  have h₂ := (advanceActiveIntervals_spec (h₁.mono hp fun j hj => by rw [hemp] at hj; cases hj)).inv
  have hcalm := calm_foldlM (fun _ e _ he => calm_foldlM (fun _ _ _ => calm_catchEntryFixup)
    e.liveIn _ _ he) _ _ _ hs
  intro reg j k hjk hj hk q hq
  rw [(hcalm.ranges k).intervals]
  exact h₂.disjoint reg j k hjk ((hcalm.ranges j).holds.1 hj) ((hcalm.ranges k).holds.1 hk) q
    ((hcalm.ranges j).intervals ▸ hq)

end Loop

/-! ## Two ranges on one register -/

/-- One register, no loops, blocks every ten positions. -/
def oneRegCtx : AllocCtx where
  numberOfRegisters := 1
  bias := 0
  registerKind := .register
  blocked := fun reg => decide (1 ≤ reg)
  intrinsicMode := false
  fixedSlotCount := 0
  cpuSpillSlotCount := 0
  layout := ⟨-1, 1⟩
  isBlockEntry := fun pos => pos % 10 == 0
  blockStart := fun pos => pos - pos % 10
  loopAt := fun _ => none
  loops := fun _ => ⟨0, none, 0, 0, fun _ => false, []⟩
  numLoops := 0
  reachingDefs := fun _ _ => false
  safepointInfo := fun _ => ⟨false, false, false⟩
  catchEntries := []
  exceptionLoc := .invalid
  stackTraceLoc := .invalid

/-- `oneRegCtx` meets the assumptions on the block order and the register
file. -/
theorem oneRegCtx_ok : oneRegCtx.LoopOrder ∧ (∀ p, oneRegCtx.blockStart p % 2 = 0) ∧
    (∀ l, (oneRegCtx.loops l).headerStart % 2 = 0) ∧
    ∀ reg, oneRegCtx.numberOfRegisters ≤ reg → oneRegCtx.blocked reg = true :=
  ⟨{ blockStart_le := fun _ => Nat.sub_le _ _
     header_le_blockStart := fun _ _ h => by cases h
     outer_header_lt := fun _ _ h => by cases h
     start_eq_header := fun _ => rfl
     loopAt_lt := fun _ _ h => by cases h
     outer_lt := fun _ _ h => by cases h },
    fun p => by show (p - p % 10) % 2 = 0; omega, fun _ => rfl, fun _ h => decide_eq_true h⟩

/-- Two values without uses, over `[2, 6)` and `[8, 12)`, queued, and nothing on
the register. -/
def twoRangesState : AllocState where
  ranges := fun j =>
    if j = 0 then { LiveRange.make 0 .tagged with intervals := [⟨2, 6⟩], finger := ⟨some 0, none, none, none⟩ }
    else if j = 1 then
      { LiveRange.make 1 .tagged with intervals := [⟨8, 12⟩], finger := ⟨some 0, none, none, none⟩ }
    else LiveRange.make 0 .tagged
  fresh := 2
  slots := fun _ => .invalid
  liveRanges := fun v => v.toNat
  unallocated := [1, 0]
  registers := fun _ => []
  spillTable := ⟨[], [], []⟩
  spilled := []
  locs := fun _ => ⟨[], []⟩

/-- A value's range, not a loop phi, with no spill slot, assignment or
safepoint, is well formed when its intervals and uses are. -/
theorem rangeOk_value {c : AllocCtx} {slots : Nat → Location} {r : LiveRange} (hv : 0 ≤ r.vreg)
    (hphi : r.isLoopPhi = false) (hsp : r.spillSlot = .invalid) (ha : r.assigned = .invalid)
    (hs : r.safepoints = []) (hasc : IntervalsAscending r.intervals) (hb : r.Bounded)
    (hu : r.uses.Pairwise fun a b => a.pos ≤ b.pos)
    (hcov : ∀ u ∈ r.uses, ∃ iv ∈ r.intervals, iv.start ≤ u.pos ∧ u.pos ≤ iv.stop)
    (he : ∀ u ∈ r.uses, isRegisterUse slots u = true → u.pos % 2 = 0 → u.pos = r.start)
    (ho : ∀ u ∈ r.uses, isRegisterUse slots u = true → u.pos % 2 = 1 →
      ∀ iv ∈ r.intervals, iv.start ≠ u.pos) :
    RangeOk c slots r :=
  ⟨hasc, hb, hu, by rw [hs]; exact List.Pairwise.nil, hcov, he, ho, by simp [hphi],
    fun h => absurd h (by omega), fun h => absurd h (by unfold kNoVirtualRegister; omega),
    hsp ▸ safeSpill_invalid c, by rw [ha]; rfl⟩

theorem twoRangesState_inv : RegInv oneRegCtx 0 twoRangesState := by
  have hr : ∀ j, RangeOk oneRegCtx twoRangesState.slots (twoRangesState.ranges j) ∧
      (twoRangesState.ranges j).assigned = .invalid := by
    intro j
    simp only [twoRangesState]
    split_ifs <;> exact ⟨rangeOk_value (by decide) rfl rfl rfl rfl (by decide)
      (by unfold LiveRange.Bounded; decide) (by decide) (by decide) (by decide) (by decide), rfl⟩
  refine RegInv.initial (fun j => (hr j).1) (fun j => not_holds_of_invalid (hr j).2) (fun _ => rfl)
    (by decide) (by decide) ?_
  simp only [twoRangesState, List.mem_cons, List.mem_singleton, List.not_mem_nil, or_false]
  rintro j (rfl | rfl) <;> exact ⟨by decide, by decide, by decide, by decide, by decide⟩

/-- A value over `[2, 20)` with a register use at `17`, and one over `[6, 10)`
with a register use at `7`, both queued. -/
def evictState : AllocState where
  ranges := fun j =>
    if j = 0 then
      { LiveRange.make 0 .tagged with
        intervals := [⟨2, 20⟩]
        uses := [⟨17, 0, none⟩]
        finger := ⟨some 0, some 0, some 0, some 0⟩ }
    else if j = 1 then
      { LiveRange.make 1 .tagged with
        intervals := [⟨6, 10⟩]
        uses := [⟨7, 1, none⟩]
        finger := ⟨some 0, some 0, some 0, some 0⟩ }
    else LiveRange.make 0 .tagged
  fresh := 2
  slots := fun k => if k ≤ 1 then .unallocated .requiresRegister else .invalid
  liveRanges := fun v => v.toNat
  unallocated := [1, 0]
  registers := fun _ => []
  spillTable := ⟨[], [], []⟩
  spilled := []
  locs := fun _ => ⟨[], []⟩

theorem evictState_inv : RegInv oneRegCtx 0 evictState := by
  have hr : ∀ j, RangeOk oneRegCtx evictState.slots (evictState.ranges j) ∧
      (evictState.ranges j).assigned = .invalid := by
    intro j
    simp only [evictState]
    split_ifs <;> exact ⟨rangeOk_value (by decide) rfl rfl rfl rfl (by decide)
      (by unfold LiveRange.Bounded; decide) (by decide) (by decide) (by decide) (by decide), rfl⟩
  refine RegInv.initial (fun j => (hr j).1) (fun j => not_holds_of_invalid (hr j).2) (fun _ => rfl)
    (by decide) (by decide) ?_
  simp only [evictState, List.mem_cons, List.mem_singleton, List.not_mem_nil, or_false]
  rintro j (rfl | rfl) <;> exact ⟨by decide, by decide, by decide, by decide, by decide⟩

/-- In `evictState` the range at `6` needs the only register at `7`, where the
range at `2` holds it: `AllocateAnyRegister` evicts that one, which keeps the
register up to `6`, and the two share register `0` without sharing a position,
as `7`, which the range at `2` covered before. -/
theorem allocateUnallocatedRanges_disjoint_evict :
    ∃ s', allocateUnallocatedRanges oneRegCtx 3 evictState = some s' ∧
      Holds oneRegCtx (s'.ranges 1) 0 ∧ Holds oneRegCtx (s'.ranges 0) 0 ∧
      intervalsCover (s'.ranges 1).intervals 7 = true ∧ intervalsCover (s'.ranges 0).intervals 7 = false := by
  have hs : allocateUnallocatedRanges oneRegCtx 3 evictState =
      some ((allocateUnallocatedRanges oneRegCtx 3 evictState).getD evictState) := by
    have hsome : (allocateUnallocatedRanges oneRegCtx 3 evictState).isSome = true := by decide
    revert hsome
    cases allocateUnallocatedRanges oneRegCtx 3 evictState <;> simp
  have h₀ : Holds oneRegCtx
      (((allocateUnallocatedRanges oneRegCtx 3 evictState).getD evictState).ranges 0) 0 := by
    decide
  have h₁ : Holds oneRegCtx
      (((allocateUnallocatedRanges oneRegCtx 3 evictState).getD evictState).ranges 1) 0 := by
    decide
  have hq : intervalsCover
      (((allocateUnallocatedRanges oneRegCtx 3 evictState).getD evictState).ranges 1).intervals
      7 = true := by decide
  obtain ⟨hc, hbe, hhe, hblocked⟩ := oneRegCtx_ok
  exact ⟨_, hs, h₁, h₀, hq,
    allocateUnallocatedRanges_disjoint hc hbe hhe hblocked evictState_inv hs 0 1 0 (by decide) h₁ h₀ 7 hq⟩

/-- The state after the first iteration on `twoRangesState`. -/
def twoRangesAfterFirst : AllocState :=
  (allocateStep oneRegCtx { twoRangesState with unallocated := [1] } 0).getD twoRangesState

/-- The first iteration on `twoRangesState` pops the range at `2` and completes. -/
theorem allocateStep_twoRangesState :
    allocateStep oneRegCtx { twoRangesState with unallocated := [1] } 0 = some twoRangesAfterFirst := by
  have hsome : (allocateStep oneRegCtx { twoRangesState with unallocated := [1] } 0).isSome = true := by
    decide
  unfold twoRangesAfterFirst
  revert hsome
  cases allocateStep oneRegCtx { twoRangesState with unallocated := [1] } 0 <;> simp

/-- In `twoRangesState` the first iteration allocates the range at `2` and
leaves the one at `8` queued. -/
theorem allocateStep_worklist_order_twoRanges :
    twoRangesAfterFirst.unallocated = [1] ∧
      (twoRangesAfterFirst.unallocated.Pairwise
        (fun a b => (twoRangesAfterFirst.ranges b).start ≤ (twoRangesAfterFirst.ranges a).start) ∧
      ∀ j ∈ twoRangesAfterFirst.unallocated, (twoRangesState.ranges 0).start ≤
        (twoRangesAfterFirst.ranges j).start) := by
  obtain ⟨hc, hbe, hhe, hblocked⟩ := oneRegCtx_ok
  exact ⟨by decide, allocateStep_worklist_order hc hbe hhe hblocked twoRangesState_inv rfl
    allocateStep_twoRangesState⟩

/-- After the first iteration on `twoRangesState`, the next one pops the range
at `8` and advances to `8`, which retires the range over `[2, 6)` from
register `0`. -/
theorem advanceActiveIntervals_registers_iff_twoRanges :
    RegInv oneRegCtx 8 { twoRangesAfterFirst with unallocated := [] } ∧
      0 ∈ twoRangesAfterFirst.registers 0 ∧
      0 ∉ (advanceActiveIntervals oneRegCtx { twoRangesAfterFirst with unallocated := [] } 8).registers 0 := by
  obtain ⟨hc, hbe, hhe, hblocked⟩ := oneRegCtx_ok
  have h₁ := (allocateStep_inv hc hbe hhe hblocked twoRangesState_inv rfl allocateStep_twoRangesState).2
  obtain ⟨-, h₂, -⟩ := h₁.pop (show twoRangesAfterFirst.unallocated.getLast? = some 1 by decide)
  have e₁ : (twoRangesAfterFirst.ranges 1).start = 8 := by decide
  have e₂ : twoRangesAfterFirst.unallocated.dropLast = [] := by decide
  rw [e₁, e₂] at h₂
  refine ⟨h₂, by decide, fun hm => ?_⟩
  obtain ⟨-, q, hq, hcov⟩ := (advanceActiveIntervals_registers_iff h₂ 0 0).1 hm
  have e₃ : (twoRangesAfterFirst.ranges 0).intervals = [⟨2, 6⟩] := by decide
  simp only [e₃, intervalsCover_cons, intervalsCover_nil, Bool.or_false, UseInterval.contains,
    Bool.and_eq_true, decide_eq_true_eq] at hcov
  omega

end LinearScan
