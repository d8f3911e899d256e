import LinearScan.RangeCut

/-!
# `AllocateFreeRegister` keeps the occupancy invariant

The range in hand (`Ready`) gets the register that is free longest. What
makes this safe is `FirstIntersectionWithAllocated(reg, range)`: it is at most
every position the range shares with an occupant of `reg`
(`firstIntersectionWithAllocated_spec`). The candidate the scan settles on is
always a register of the class with that bound as its free-until position
(`CandOk`). So either the register is free for the whole range and the range
goes on it, or the range is split at the bound, the sibling queued, and the
head — which covers nothing from the bound on — goes on it or is spilled.
-/

namespace LinearScan

open AllocState Finger

/-! ## Minimum folds -/

theorem foldl_min_le_init (l : List Nat) (b : Nat) : l.foldl min b ≤ b := by
  induction l generalizing b with
  | nil => exact le_rfl
  | cons x l ih => exact (ih _).trans (min_le_left _ _)

theorem foldl_min_le {l : List Nat} {x : Nat} (hx : x ∈ l) (b : Nat) : l.foldl min b ≤ x := by
  induction l generalizing b with
  | nil => cases hx
  | cons y l ih =>
    rcases List.mem_cons.1 hx with rfl | hx
    · exact (foldl_min_le_init l _).trans (min_le_right _ _)
    · exact ih hx _

/-- A minimum fold returns its start or an element. -/
theorem foldl_min_mem (l : List Nat) (b : Nat) : l.foldl min b = b ∨ l.foldl min b ∈ l := by
  induction l generalizing b with
  | nil => exact .inl rfl
  | cons y l ih =>
    rw [List.foldl_cons]
    rcases ih (min b y) with h | h
    · rw [h]
      by_cases hby : b ≤ y
      · exact .inl (Nat.min_eq_left hby)
      · rw [Nat.min_eq_right (Nat.le_of_not_le hby)]
        exact .inr (List.mem_cons_self _ _)
    · exact .inr (List.mem_cons_of_mem _ h)

/-! ## Pending intervals -/

theorem LiveRange.pendingIntervals_sublist (r : LiveRange) :
    r.pendingIntervals.Sublist r.intervals := by
  unfold LiveRange.pendingIntervals
  split
  · exact List.nil_sublist _
  · exact List.drop_sublist _ _

theorem LiveRange.pendingIntervals_of_zero {r : LiveRange} (h : r.finger.pending = some 0) :
    r.pendingIntervals = r.intervals := by
  simp [LiveRange.pendingIntervals, h]

/-- With the pending interval valid at `pos`, what a range covers from `pos` on
is pending. -/
theorem cover_pending {r : LiveRange} {pos q : Nat}
    (hv : PendingValid r.intervals r.finger.pending pos) (hq : pos ≤ q)
    (hc : intervalsCover r.intervals q = true) : intervalsCover r.pendingIntervals q = true := by
  unfold LiveRange.pendingIntervals
  cases hp : r.finger.pending with
  | none =>
    rw [hp] at hv
    exact absurd (lt_of_intervalsCover hv hc) (by omega)
  | some k =>
    rw [hp] at hv
    rw [← List.take_append_drop k r.intervals, intervalsCover, List.any_append,
      Bool.or_eq_true] at hc
    exact hc.resolve_left fun h => absurd (lt_of_intervalsCover hv.2 h) (by omega)

/-! ## The free-until bound -/

section FirstIntersection
variable {c : AllocCtx} {pos : Nat} {s : AllocState} {R : Nat}

/-- `FirstIntersectionWithAllocated(reg, range)` for the range in hand is at
most every position the range shares with an occupant of `reg`, and is
`kMaxPosition` or a position the range covers. -/
theorem firstIntersectionWithAllocated_spec (h : RegInv c pos s) (hR : Ready c pos s R) (reg : Nat) :
    (∀ a ∈ s.registers reg, ∀ q, intervalsCover (s.ranges R).intervals q = true →
      intervalsCover (s.ranges a).intervals q = true → firstIntersectionWithAllocated s reg R ≤ q) ∧
    (firstIntersectionWithAllocated s reg R = kMaxPosition ∨
      intervalsCover (s.ranges R).intervals (firstIntersectionWithAllocated s reg R) = true) := by
  have hRp := LiveRange.pendingIntervals_of_zero hR.pending
  have hasc : ∀ j, IntervalsAscending (s.ranges j).pendingIntervals := fun j =>
    (h.ranges j).ascending.sublist (LiveRange.pendingIntervals_sublist _)
  rw [firstIntersectionWithAllocated_eq_min s reg R (hasc R) fun a _ => hasc a]
  refine ⟨fun a ha q hqR hqa => (foldl_min_le (List.mem_map_of_mem _ ha) _).trans ?_, ?_⟩
  · have hpos : pos ≤ q := hR.start ▸ LiveRange.start_le_of_cover (h.ranges R).ascending hqR
    have hcom : commonCover (s.ranges R).pendingIntervals (s.ranges a).pendingIntervals q = true := by
      rw [commonCover, hRp, hqR, cover_pending (h.occupants reg a ha).pending hpos hqa]; rfl
    rcases firstIntersection_isFirstCommon (hasc R) (hasc a) with ⟨-, hno⟩ | ⟨-, hle⟩
    · rw [hno q] at hcom; cases hcom
    · exact hle q hcom
  · rcases foldl_min_mem _ kMaxPosition with e | e
    · exact .inl e
    obtain ⟨a, -, ea⟩ := List.mem_map.1 e
    rw [← ea]
    rcases firstIntersection_isFirstCommon (hasc R) (hasc a) with ⟨e', -⟩ | ⟨hc, -⟩
    · exact .inl e'
    · rw [commonCover, Bool.and_eq_true] at hc
      rw [hRp] at hc ⊢
      exact .inr hc.1

end FirstIntersection

/-! ## The candidate -/

section Candidate
variable (c : AllocCtx)

/-- What `AllocateFreeRegister`'s candidate is: none yet, free nowhere, or a
register of the class with its free-until bound. -/
def CandOk (s : AllocState) (R : Nat) (x : Option Nat × Nat) : Prop :=
  (x.1 = none ∧ x.2 = 0) ∨
    ∃ reg, x.1 = some reg ∧ reg < c.numberOfRegisters ∧ x.2 = firstIntersectionWithAllocated s reg R

variable {c}

theorem lt_of_mem_regOrder {reg : Nat} (h : reg ∈ c.regOrder) : reg < c.numberOfRegisters := by
  obtain ⟨i, hi, rfl⟩ := List.mem_map.1 h
  exact Nat.mod_lt _ (by rw [List.mem_range] at hi; omega)

/-- The hint, or the first register with no occupant: a register of the class
whenever the registers past the class are blocked. -/
theorem candOk_freeRegisterFirstCandidate
    (hblocked : ∀ reg, c.numberOfRegisters ≤ reg → c.blocked reg = true) (s : AllocState) (R : Nat) :
    CandOk c s R (freeRegisterFirstCandidate c s R) := by
  unfold freeRegisterFirstCandidate
  dsimp only
  split_ifs with hm hb
  · exact .inl ⟨rfl, rfl⟩
  · exact .inr ⟨_, rfl, Nat.lt_of_not_le fun hle => hb (hblocked _ hle), rfl⟩
  · split
    · next reg hf =>
      have hp := List.find?_some hf
      rw [Bool.and_eq_true, List.isEmpty_iff] at hp
      refine .inr ⟨reg, rfl, lt_of_mem_regOrder (List.mem_of_find?_eq_some hf), ?_⟩
      simp [firstIntersectionWithAllocated, hp.2]
    · exact .inl ⟨rfl, rfl⟩

theorem candOk_freeRegisterScan (s : AllocState) (R : Nat) :
    ∀ (regs : List Nat) (x : Option Nat × Nat), (∀ reg ∈ regs, reg < c.numberOfRegisters) →
      CandOk c s R x → CandOk c s R (freeRegisterScan c s R regs x)
  | [], _, _, hx => hx
  | reg :: regs, (cand, fu), hr, hx => by
    have hr' := fun r hm => hr r (List.mem_cons_of_mem _ hm)
    have hnew : CandOk c s R (some reg, firstIntersectionWithAllocated s reg R) :=
      .inr ⟨reg, rfl, hr reg (List.mem_cons_self _ _), rfl⟩
    unfold freeRegisterScan
    dsimp only
    split_ifs
    · exact candOk_freeRegisterScan s R regs _ hr' hx
    · exact hnew
    · exact candOk_freeRegisterScan s R regs _ hr' hnew
    · exact candOk_freeRegisterScan s R regs _ hr' hx

/-- The loop heuristic moves only to a register of the class free at least as
long. -/
theorem candOk_backedgeCandidate {s : AllocState} {R : Nat} {cand : Option Nat} {fu : Nat}
    (hx : CandOk c s R (cand, fu)) :
    CandOk c s R (backedgeCandidate c s R cand fu) ∧ fu ≤ (backedgeCandidate c s R cand fu).2 := by
  unfold backedgeCandidate
  dsimp only
  split
  · split_ifs
    · split
      · next reg hf =>
        have hp := List.find?_some hf
        simp only [Bool.and_eq_true, decide_eq_true_eq] at hp
        exact ⟨.inr ⟨reg, rfl, lt_of_mem_regOrder (List.mem_of_find?_eq_some hf), rfl⟩, hp.2⟩
      · exact ⟨hx, le_rfl⟩
    · exact ⟨hx, le_rfl⟩
  · exact ⟨hx, le_rfl⟩

end Candidate

/-! ## Splitting the range in hand -/

section SplitQueue
variable {c : AllocCtx} {pos : Nat} {s : AllocState} {R : Nat}

/-- The head of a split keeps a register-use cache valid from where the range's
was. -/
theorem UseCacheValid.splitParts_head {slots : Nat → Location} {r : LiveRange} {last : Nat}
    (hv : UseCacheValid (isRegisterUse slots) r.uses r.finger.registerUse last) (p n : Nat) :
    UseCacheValid (isRegisterUse slots) (r.splitParts p n).1.uses
      (r.splitParts p n).1.finger.registerUse last := by
  have happ := splitParts_uses r p n
  have hsf : UseCacheValid (isRegisterUse slots) r.uses r.splitFinger.registerUse last :=
    useCacheValid_splitFinger rfl hv
  rw [splitParts_head_finger]
  cases ht : (r.splitParts p n).2.uses with
  | nil =>
    rw [ht, List.append_nil] at happ
    rw [happ]
    exact hsf
  | cons u rest =>
    rw [ht] at happ
    rw [updateAfterSplit_registerUse]
    exact hsf.keepAfterSplit happ (splitListOfPositions_lt_first _ _ _ _ ht)

/-- The range in hand is on no register. -/
theorem Ready.registers_filter (hR : Ready c pos s R) (h : RegInv c pos s) (reg : Nat) :
    (s.registers reg).filter (· ≠ R) = s.registers reg :=
  List.filter_eq_self.2 fun a ha => by
    simpa using fun e : a = R => hR.free reg (e ▸ (h.occupants reg a ha).holds)

/-- Splitting the range in hand strictly inside it and queueing the sibling
keeps the invariant; the head stays in hand, covering what the range covered
before the cut, and no other range changes. -/
theorem RegInv.splitQueue (h : RegInv c pos s) (hR : Ready c pos s R) {p : Nat}
    (hp : pos < p ∧ p < (s.ranges R).stop) :
    RegInv c pos (addToUnallocated (splitAt s R p).1 (splitAt s R p).2) ∧
      Ready c pos (addToUnallocated (splitAt s R p).1 (splitAt s R p).2) R ∧
      (addToUnallocated (splitAt s R p).1 (splitAt s R p).2).registers = s.registers ∧
      (∀ j < s.fresh, j ≠ R →
        SameBut c (s.ranges j) ((addToUnallocated (splitAt s R p).1 (splitAt s R p).2).ranges j)) ∧
      ∀ q, intervalsCover ((addToUnallocated (splitAt s R p).1 (splitAt s R p).2).ranges R).intervals
        q = true → intervalsCover (s.ranges R).intervals q = true ∧ q < p := by
  have hp' : (s.ranges R).start < p ∧ p < (s.ranges R).stop := ⟨hR.start ▸ hp.1, hp.2⟩
  have he : (s.ranges R).start ≠ p := hp'.1.ne
  have hr := h.ranges R
  have k₁ : Cut c pos s (splitAt s R p).1 R := splitAt_cut h.base hR.fresh hR.notQueued (.inr (.inl hp'))
  rw [splitAt_snd he]
  set s₁ := (splitAt s R p).1 with hs₁
  obtain ⟨hTne, -, hTp, -⟩ := hr.splitParts_tail c (.inr (.inl hp')) (Ne.symm he) s.fresh
  set t := (s.ranges R).splitParts p s.fresh
  have hT : s₁.ranges s.fresh = t.2 := by rw [splitAt_ranges he, if_pos rfl]
  have hH : s₁.ranges R = t.1 := by rw [splitAt_ranges he, if_neg hR.fresh.ne, if_pos rfl]
  have hf₁ : s₁.fresh = s.fresh + 1 := splitAt_fresh he
  have hTp := hTp hp'.1
  have hq₁ : s.fresh ∉ s₁.unallocated := fun hm =>
    absurd (h.queued _ (splitAt_unallocated s R p ▸ hm)).fresh (lt_irrefl _)
  have k₂ : Cut c pos s₁ (addToUnallocated s₁ s.fresh) s.fresh :=
    addToUnallocated_cut k₁.base (by omega) hq₁ (by rw [hT]; omega) (by rw [hT]; omega)
      (hT ▸ hTne) (by rw [hT]; exact hR.vreg) (fun reg => hT ▸ not_holds_of_invalid rfl reg)
  have k := k₁.trans k₂ hR.fresh (.inr le_rfl) hq₁
  have hregs : (addToUnallocated s₁ s.fresh).registers = s.registers := splitAt_registers s R p
  have hRR : SameBut c t.1 ((addToUnallocated s₁ s.fresh).ranges R) := by
    have := hR.fresh
    rw [← hH]; exact k₂.keep R (by omega) hR.fresh.ne
  refine ⟨h.cut k hR.notQueued (fun reg => by rw [hregs, hR.registers_filter h])
      (fun reg hh => absurd (k.old hh).2.1 (hR.free reg)), ⟨hR.fresh.trans_le k.fresh, fun hm => ?_,
      fun reg hh => hR.free reg (k.old hh).2.1, ?_, ?_, ?_, ?_, ?_⟩, hregs,
      fun j hj hjR => k.keep j hj hjR, fun q hq => ?_⟩
  · rcases mem_addToUnallocated.1 hm with e | hm
    · exact absurd e hR.fresh.ne
    · exact hR.notQueued (splitAt_unallocated s R p ▸ hm)
  · rw [hRR.start, splitParts_head_start hr.ascending hp', hR.start]
  · rw [hRR.intervals]; exact (splitParts_wf hr.ascending hp' s.fresh).1.1
  · rw [hRR.vreg]; exact hR.vreg
  · rw [hRR.finger, splitParts_head_pending]
    unfold LiveRange.splitFinger
    split
    · next e => rw [hR.pending] at e; cases e
    · exact hR.pending
  · rw [hRR.finger, hRR.uses, addToUnallocated_slots, hs₁, splitAt_slots]
    exact hR.cache.splitParts_head p s.fresh
  · rw [hRR.intervals] at hq
    exact (splitParts_head_cover hr.ascending hp' s.fresh q).1 hq

end SplitQueue

/-! ## The step -/

section Allocate
variable {c : AllocCtx} {pos : Nat} {s s' : AllocState} {R : Nat}

/-- `Spill(range)` of the range in hand keeps the invariant: the range ends
with no register. -/
theorem RegInv.spill_ready (h : RegInv c pos s) (hR : Ready c pos s R) : RegInv c pos (spill c s R) := by
  obtain ⟨k, hfree, -⟩ := spill_cut h.base hR.fresh hR.notQueued
  exact h.cut k hR.notQueued (fun reg => by rw [(steady_spill c s R).registers, hR.registers_filter h])
    fun reg hh => absurd hh (hfree reg)

/-- `AllocateFreeRegister` keeps the occupancy invariant: the register it
picks is free wherever the range, or the head it keeps, lives. -/
theorem allocateFreeRegister_inv (hblocked : ∀ reg, c.numberOfRegisters ≤ reg → c.blocked reg = true)
    (h : RegInv c pos s) (hR : Ready c pos s R) (hs : allocateFreeRegister c s R = some s') :
    RegInv c pos s' := by
  have hscan : CandOk c s R (if (freeRegisterFirstCandidate c s R).2 = kMaxPosition then
      freeRegisterFirstCandidate c s R
      else freeRegisterScan c s R c.regOrder (freeRegisterFirstCandidate c s R)) := by
    have := candOk_freeRegisterFirstCandidate hblocked s R
    split_ifs
    · exact this
    · exact candOk_freeRegisterScan s R _ _ (fun _ => lt_of_mem_regOrder) this
  unfold allocateFreeRegister at hs
  dsimp only at hs
  generalize (if (freeRegisterFirstCandidate c s R).2 = kMaxPosition then
      freeRegisterFirstCandidate c s R
      else freeRegisterScan c s R c.regOrder (freeRegisterFirstCandidate c s R)) = x at hs hscan
  obtain ⟨cand, fu⟩ := x
  dsimp only at hs
  by_cases hfu : fu ≤ (s.ranges R).start
  · rw [if_pos hfu] at hs; cases hs
  rw [if_neg hfu] at hs
  obtain ⟨hok, hle⟩ := candOk_backedgeCandidate hscan
  generalize backedgeCandidate c s R cand fu = y at hs hok hle
  obtain ⟨cand', fu'⟩ := y
  dsimp only at hs hok hle
  obtain ⟨reg, rfl, hreg, rfl⟩ : ∃ reg, cand' = some reg ∧ reg < c.numberOfRegisters ∧
      fu' = firstIntersectionWithAllocated s reg R := by
    rcases hok with ⟨-, h0⟩ | hok
    · omega
    · exact hok
  obtain ⟨hbound, hcov⟩ := firstIntersectionWithAllocated_spec h hR reg
  simp only [Option.getD_some] at hs
  by_cases hmax : firstIntersectionWithAllocated s reg R = kMaxPosition
  · -- free for the whole range
    rw [if_pos hmax] at hs
    cases hs
    refine h.assign hR hreg fun a ha q hqR => ?_
    cases e : intervalsCover (s.ranges a).intervals q
    · rfl
    · have := hbound a ha q hqR e
      have := lt_of_intervalsCover (h.ranges a).bounded e
      omega
  · -- free up to the bound: split there and queue the rest
    rw [if_neg hmax] at hs
    have hfR := hcov.resolve_left hmax
    obtain ⟨h₂, hR₂, hregs, hkeep, hcov₂⟩ := h.splitQueue hR
      ⟨by rw [← hR.start]; omega, LiveRange.lt_stop_of_cover (h.ranges R).ascending hfR⟩
    split_ifs at hs
    · cases hs
      exact h₂.spill_ready hR₂
    · cases hs
      refine h₂.assign hR₂ hreg fun a ha q hqR => ?_
      rw [hregs] at ha
      have ha' := h.occupants reg a ha
      have haR : a ≠ R := fun e => hR.free reg (e ▸ ha'.holds)
      rw [(hkeep a (h.base.lt_of_holds ha'.holds) haR).intervals]
      obtain ⟨hqR', hq⟩ := hcov₂ q hqR
      cases e : intervalsCover (s.ranges a).intervals q
      · rfl
      · have := hbound a ha q hqR' e
        omega

end Allocate

end LinearScan
