import LinearScan.FingerCache
import LinearScan.Cover

/-!
# Cheap eviction of loop phis never reaches the null spill

`AllocateAnyRegister` (linearscan.cc 2617–2668) spills a range without a
register use, unless it is a loop phi with a cheap eviction candidate
(`HasCheapEvictionCandidate`, lines 2599–2615): an unblocked register all of
whose occupants are either outside the loop or have only unconstrained uses in
it (`IsCheapToEvictRegisterInLoop`, lines 2577–2597). It then scans every
unblocked register with `UpdateFreeUntil` (lines 2670–2721) and, when the best
`free_until` is below the phi's start, calls `SpillBetween` up to
`register_use->pos()`, on a null `register_use`. This module proves that this
branch is dead:

> in every state the worklist loop reaches, after `AdvanceActiveIntervals` at
> the start of a loop phi that has no register use and a cheap eviction
> candidate, the best `free_until` of the scan exceeds the phi's start.

The cheap register's scan never gives up on it. An occupant whose pending
interval holds the loop's start has a value, not a blocking range, and its next
register use lies past the loop, at least two positions on; one outside the
loop meets the phi only from the loop's end on. So its `free_until` exceeds the
start, and the scan keeps the best `free_until` seen. This rests on what the
loop keeps of every state (`CheapInv`): the intervals of each range in order,
its uses in position order, the loop flags of `has_only_any_uses_in_loops_`
true of the uses in the loop (`FlagSound`), and no location that requires a
register ever written to a use slot (`LocsSettled`).

Mirroring notes vs the C++ source:
- The theorem is stated over the states `LoopReach` names: those the worklist
  loop reaches from an initial state, and the state after `AdvanceActiveIntervals`
  at the popped range's start.
- `ASSERT(phi_range->Start() == header->start_pos())` is a hypothesis, as is
  the shape of the loop's extent from `ComputeExtraLoopInfo`: an even header
  start, and an end at least one instruction later.
-/

namespace LinearScan

open AllocState Finger

/-! ## What a scan step reads -/

/-- `Intersect` answers a position at or after the first interval's start. -/
theorem UseInterval.start_le_of_intersect {a u : UseInterval} {p : Nat}
    (h : a.intersect u = some p) : a.start ≤ p := by
  unfold UseInterval.intersect at h
  split_ifs at h <;> cases h <;> omega

/-- Every position `FirstIntersection` returns but `kMaxPosition` lies in an
interval of the first list, so at or after a lower bound of their starts. -/
theorem firstIntersectionAux_ge {b : Nat} :
    ∀ (n : Nat) (as us : List UseInterval), (∀ x ∈ as, b ≤ x.start) →
      firstIntersectionAux n as us = kMaxPosition ∨ b ≤ firstIntersectionAux n as us
  | 0, _, _, _ => .inl (by simp [firstIntersectionAux])
  | _ + 1, [], _, _ => .inl (by simp [firstIntersectionAux])
  | _ + 1, _ :: _, [], _ => .inl (by simp [firstIntersectionAux])
  | n + 1, a :: as, u :: us, h => by
    simp only [firstIntersectionAux]
    cases hi : a.intersect u with
    | some p => exact .inr ((h a (List.mem_cons_self _ _)).trans (UseInterval.start_le_of_intersect hi))
    | none =>
      dsimp only
      split_ifs
      · exact firstIntersectionAux_ge n as (u :: us) fun x hx => h x (List.mem_cons_of_mem _ hx)
      · exact firstIntersectionAux_ge n (a :: as) us h

/-- An interval of a separated range ends by the range's end. -/
theorem LiveRange.Separated.stop_le {r : LiveRange} (h : r.Separated) {iv : UseInterval}
    (hiv : iv ∈ r.intervals) : iv.stop ≤ r.stop := by
  have hne : r.intervals ≠ [] := List.ne_nil_of_mem hiv
  obtain ⟨i, hi, rfl⟩ := List.getElem_of_mem hiv
  have hlast : r.stop = r.intervals[r.intervals.length - 1].stop := by
    simp [LiveRange.stop, List.getLast?_eq_getLast _ hne, List.getLast_eq_getElem]
  rw [hlast]
  rcases Nat.lt_or_ge i (r.intervals.length - 1) with hlt | hge
  · have := h.stop_lt_start hi (by omega) hlt
    have := h.1 _ (List.getElem_mem (by omega : r.intervals.length - 1 < r.intervals.length))
    omega
  · obtain rfl : i = r.intervals.length - 1 := by omega
    exact le_rfl

/-- The pending interval of a separated range is one of its intervals, and the
later pending ones start after it ends. -/
theorem LiveRange.Separated.pending {r : LiveRange} (h : r.Separated) {head : UseInterval}
    {rest : List UseInterval} (hp : r.pendingIntervals = head :: rest) :
    head ∈ r.intervals ∧ ∀ x ∈ rest, head.stop < x.start := by
  unfold LiveRange.pendingIntervals at hp
  split at hp
  · cases hp
  · next k _ =>
    have hd := h.2.drop (n := k)
    rw [hp] at hd
    exact ⟨List.mem_of_mem_drop (hp ▸ List.mem_cons_self head rest), (List.pairwise_cons.1 hd).1⟩

/-- The answer of `FirstRegisterUse` is the scan from its cache. -/
theorem firstRegisterUse_snd (f : Finger) (uses : List UsePosition) (slots : Nat → Location)
    (a : Nat) :
    (f.firstRegisterUse uses slots a).2 = (firstUseAfter uses f.registerUse a).find? (isRegisterUse slots ·.2) := by
  unfold Finger.firstRegisterUse
  cases (firstUseAfter uses f.registerUse a).find? (isRegisterUse slots ·.2) <;> rfl

/-- On uses in position order, what the scan from a cache reads is a use of
the range at or after its argument. -/
theorem mem_firstUseAfter {uses : List UsePosition} (hs : uses.Pairwise fun a b => a.pos ≤ b.pos)
    {c : Option Nat} {a : Nat} {x : Nat × UsePosition} (hx : x ∈ firstUseAfter uses c a) :
    x.2 ∈ uses ∧ a ≤ x.2.pos := by
  cases c with
  | none => simp [firstUseAfter] at hx
  | some k =>
    have hsorted := (enum_sorted hs).sublist (List.drop_sublist k uses.enum)
    have hdrop := (@takeWhile_eq_filter _ (fun x : Nat × UsePosition => decide (x.2.pos < a)) _
      (fun x y hxy hy => by simp only [decide_eq_true_eq] at hy ⊢; omega) _ hsorted).2
    rw [firstUseAfter, usesFrom_eq_drop, hdrop, List.mem_filter] at hx
    simp only [Bool.not_eq_true', decide_eq_false_iff_not, Nat.not_lt] at hx
    exact ⟨List.snd_mem_of_mem_enum (List.mem_of_mem_drop hx.1), hx.2⟩

/-- The register use `FirstRegisterUse` answers is a use of the range, at or
after its argument, that requires a register. -/
theorem firstRegisterUse_some {f : Finger} {uses : List UsePosition} {slots : Nat → Location}
    {a : Nat} (hs : uses.Pairwise fun a b => a.pos ≤ b.pos) {u : Nat × UsePosition}
    (h : (f.firstRegisterUse uses slots a).2 = some u) :
    u.2 ∈ uses ∧ a ≤ u.2.pos ∧ isRegisterUse slots u.2 = true := by
  rw [firstRegisterUse_snd] at h
  have ⟨hmem, hpos⟩ := mem_firstUseAfter hs (List.mem_of_find?_eq_some h)
  exact ⟨hmem, hpos, List.find?_some (p := fun x : Nat × UsePosition => isRegisterUse slots x.2) h⟩

/-! ## The scans change only use caches -/

/-- What the scans of `AllocateAnyRegister` change: at most the use caches of
fingers. -/
structure ScanFrame (s s' : AllocState) : Prop where
  registers : s'.registers = s.registers
  slots : s'.slots = s.slots
  liveRanges : s'.liveRanges = s.liveRanges
  ranges : ∀ j, ∃ f : Finger, f.pending = (s.ranges j).finger.pending ∧
    s'.ranges j = { s.ranges j with finger := f }

namespace ScanFrame
variable {s s' s'' : AllocState}

theorem refl (s : AllocState) : ScanFrame s s := ⟨rfl, rfl, rfl, fun _ => ⟨_, rfl, rfl⟩⟩

theorem trans (h₁ : ScanFrame s s') (h₂ : ScanFrame s' s'') : ScanFrame s s'' := by
  refine ⟨h₂.registers.trans h₁.registers, h₂.slots.trans h₁.slots,
    h₂.liveRanges.trans h₁.liveRanges, fun j => ?_⟩
  obtain ⟨f₁, hf₁, e₁⟩ := h₁.ranges j
  obtain ⟨f₂, hf₂, e₂⟩ := h₂.ranges j
  rw [e₁] at hf₂ e₂
  exact ⟨f₂, hf₂.trans hf₁, e₂⟩

theorem setFinger (s : AllocState) (a : Nat) {f : Finger}
    (hf : f.pending = (s.ranges a).finger.pending) :
    ScanFrame s (s.setRange a { s.ranges a with finger := f }) := by
  refine ⟨rfl, rfl, rfl, fun j => ?_⟩
  by_cases h : j = a
  · subst h
    exact ⟨f, hf, by simp⟩
  · exact ⟨_, rfl, by simp [h]⟩

theorem view (h : ScanFrame s s') (j : Nat) :
    (s'.ranges j).uses = (s.ranges j).uses ∧ (s'.ranges j).intervals = (s.ranges j).intervals ∧
      (s'.ranges j).vreg = (s.ranges j).vreg ∧
      (s'.ranges j).onlyAnyUsesInLoop = (s.ranges j).onlyAnyUsesInLoop ∧
      (s'.ranges j).pendingIntervals = (s.ranges j).pendingIntervals := by
  obtain ⟨f, hf, e⟩ := h.ranges j
  rw [e]
  exact ⟨rfl, rfl, rfl, rfl, by simp [LiveRange.pendingIntervals, hf]⟩

theorem rangeHas (h : ScanFrame s s') (a l : Nat) :
    rangeHasOnlyUnconstrainedUsesInLoop s' a l = rangeHasOnlyUnconstrainedUsesInLoop s a l := by
  simp only [rangeHasOnlyUnconstrainedUsesInLoop, parentOf, LiveRange.hasOnlyUnconstrainedUsesInLoop,
    (h.view a).2.2.1, h.liveRanges, (h.view (s.liveRanges (s.ranges a).vreg)).2.2.2.1]

end ScanFrame

/-- `UpdateFreeUntil` for one occupant moves at most its register-use cache. -/
theorem scanFrame_updateFreeUntilStep (s : AllocState) (start : Nat) (unIvs : List UseInterval)
    (a fu ba : Nat) : ScanFrame s (updateFreeUntilStep s start unIvs a fu ba).1 := by
  unfold updateFreeUntilStep
  dsimp only
  split
  · exact ScanFrame.refl s
  · have hf := ScanFrame.setFinger s a
      (f := ((s.ranges a).finger.firstInterferingUse (s.ranges a).uses s.slots start).1)
      (firstRegisterUse_pending _ _ _ _)
    split_ifs
    · exact ScanFrame.refl s
    · split <;> first | exact hf | (split_ifs <;> exact hf)
    all_goals exact ScanFrame.refl s

section Cheap
variable (c : AllocCtx)

/-- The loop flags of `has_only_any_uses_in_loops_`, as ranges read them on
their parent, are true: no use of the range in the loop requires a register. -/
def FlagSound (s : AllocState) : Prop :=
  ∀ a l, rangeHasOnlyUnconstrainedUsesInLoop s a l = true → ∀ u ∈ (s.ranges a).uses,
    (c.loops l).start ≤ u.pos → u.pos < (c.loops l).stop → isRegisterUse s.slots u = false

variable {c}

theorem FlagSound.of_scanFrame {s s' : AllocState} (h : FlagSound c s) (hf : ScanFrame s s') :
    FlagSound c s' := by
  intro a l ha u hu
  rw [hf.rangeHas] at ha
  rw [(hf.view a).1] at hu
  rw [hf.slots]
  exact h a l ha u hu

/-- The test `IsCheapToEvictRegisterInLoop` applies to each occupant. -/
def cheapOccupant (s : AllocState) (l a : Nat) : Bool :=
  match (s.ranges a).pendingIntervals with
  | [] => true
  | iv :: _ =>
    if iv.contains (c.loops l).start then rangeHasOnlyUnconstrainedUsesInLoop s a l
    else !decide (iv.start < (c.loops l).stop)

theorem isCheapToEvictRegisterInLoop_eq (s : AllocState) (l reg : Nat) :
    isCheapToEvictRegisterInLoop c s l reg = (s.registers reg).all (cheapOccupant (c := c) s l) :=
  rfl

/-- On an occupant of a cheap register, one step of `UpdateFreeUntil` at the
loop's start keeps `free_until` after the start. An occupant live at the start
has a value whose register uses lie past the loop, at least one instruction
on; one that is not meets the phi from the loop's end on. -/
theorem updateFreeUntilStep_cheap {s : AllocState} {l a fu ba : Nat} {unIvs : List UseInterval}
    (hflag : FlagSound c s) (hsep : (s.ranges a).Separated)
    (hsorted : (s.ranges a).uses.Pairwise fun a b => a.pos ≤ b.pos)
    (hocc : cheapOccupant (c := c) s l a = true)
    (hev : (c.loops l).start % 2 = 0) (hlen : (c.loops l).start + 2 ≤ (c.loops l).stop)
    (hfu : (c.loops l).start < fu) :
    ∃ fu' ba', (updateFreeUntilStep s (c.loops l).start unIvs a fu ba).2 = some (fu', ba') ∧
      (c.loops l).start < fu' ∧ fu' ≤ fu := by
  unfold cheapOccupant at hocc
  unfold updateFreeUntilStep
  dsimp only
  cases hp : (s.ranges a).pendingIntervals with
  | nil => exact ⟨fu, ba, rfl, hfu, le_rfl⟩
  | cons head rest =>
    rw [hp] at hocc
    obtain ⟨hmem, hrest⟩ := hsep.pending hp
    dsimp only at hocc ⊢
    by_cases hc : head.contains (c.loops l).start = true
    · rw [if_pos hc] at hocc
      have hv : ¬ (s.ranges a).vreg < 0 := by
        simp only [rangeHasOnlyUnconstrainedUsesInLoop, Bool.and_eq_true, decide_eq_true_eq] at hocc
        omega
      rw [if_pos hc, if_neg hv]
      have hin : (c.loops l).start < head.stop := by
        simp only [UseInterval.contains, Bool.and_eq_true, decide_eq_true_eq] at hc
        exact hc.2
      rcases hu : (s.ranges a).finger.firstInterferingUse (s.ranges a).uses s.slots (c.loops l).start
        with ⟨f, _ | u⟩
      · exact ⟨_, _, rfl, lt_min hfu (hin.trans_le (hsep.stop_le hmem)), min_le_left _ _⟩
      · rw [firstInterferingUse_eq] at hu
        obtain ⟨hmemu, hpos, hreg⟩ := firstRegisterUse_some hsorted (congrArg Prod.snd hu)
        have hfrom : (c.loops l).start ≤ interferingFrom (c.loops l).start := by
          unfold interferingFrom; split_ifs <;> omega
        have hout : (c.loops l).stop ≤ u.2.pos := by
          by_contra hlt
          rw [hflag a l hocc u.2 hmemu (hfrom.trans hpos) (by omega)] at hreg
          cases hreg
        dsimp only
        rw [if_neg (by unfold toInstructionStart; omega)]
        exact ⟨_, _, rfl, lt_min hfu (by omega), min_le_left _ _⟩
    · rw [if_neg hc] at hocc ⊢
      simp only [Bool.not_eq_true', decide_eq_false_iff_not, Nat.not_lt] at hocc
      have hge : ∀ x ∈ head :: rest, head.start ≤ x.start := by
        intro x hx
        rcases List.mem_cons.1 hx with rfl | hx
        · exact le_rfl
        · exact (hsep.1 head hmem).le.trans (hrest x hx).le
      by_cases hi : firstIntersection (head :: rest) unIvs = kMaxPosition
      · rw [if_neg (not_not.2 hi)]
        exact ⟨fu, ba, rfl, hfu, le_rfl⟩
      · have := (firstIntersectionAux_ge _ _ unIvs hge).resolve_left hi
        rw [if_pos hi]
        exact ⟨_, _, rfl, lt_min hfu (by unfold firstIntersection at *; omega), min_le_left _ _⟩

theorem cheapOccupant_of_scanFrame {s s' : AllocState} (h : ScanFrame s s') (l a : Nat) :
    cheapOccupant (c := c) s' l a = cheapOccupant (c := c) s l a := by
  simp only [cheapOccupant, (h.view a).2.2.2.2, h.rangeHas]

theorem LiveRange.Separated.of_scanFrame {s s' : AllocState} (h : ScanFrame s s') {a : Nat}
    (hsep : (s.ranges a).Separated) : (s'.ranges a).Separated := by
  unfold LiveRange.Separated
  rw [(h.view a).2.1]
  exact hsep

/-- What `UpdateFreeUntil` needs of a cheap register's occupant. -/
def CheapOccupants (s : AllocState) (l : Nat) (as : List Nat) : Prop :=
  ∀ a ∈ as, (s.ranges a).Separated ∧ (s.ranges a).uses.Pairwise (fun a b => a.pos ≤ b.pos) ∧
    cheapOccupant (c := c) s l a = true

/-- The walk of `UpdateFreeUntil` over a cheap register's occupants either ends
with a `free_until` after the loop's start, or gives up because the best one so
far is after it. -/
theorem updateFreeUntil_go_cheap {s₀ : AllocState} {l curFree : Nat} {unIvs : List UseInterval}
    (hflag : FlagSound c s₀) (hev : (c.loops l).start % 2 = 0)
    (hlen : (c.loops l).start + 2 ≤ (c.loops l).stop) :
    ∀ (as : List Nat) (s : AllocState) (fu ba : Nat), ScanFrame s₀ s →
      CheapOccupants (c := c) s₀ l as → (c.loops l).start < fu →
      match (updateFreeUntil.go curFree (c.loops l).start unIvs as s fu ba).2 with
      | none => (c.loops l).start < curFree
      | some p => (c.loops l).start < p.1
  | [], _, _, _, _, _, hfu => hfu
  | a :: as, s, fu, ba, hf, hocc, hfu => by
    obtain ⟨hsep, hsorted, hcheap⟩ := hocc a (List.mem_cons_self _ _)
    obtain ⟨fu', ba', hstep, hlt, -⟩ := @updateFreeUntilStep_cheap _ _ _ _ _ ba unIvs
      (hflag.of_scanFrame hf) (hsep.of_scanFrame hf) ((hf.view a).1 ▸ hsorted)
      ((cheapOccupant_of_scanFrame hf l a).trans hcheap) hev hlen hfu
    unfold updateFreeUntil.go
    rw [show updateFreeUntilStep s (c.loops l).start unIvs a fu ba =
      ((updateFreeUntilStep s (c.loops l).start unIvs a fu ba).1, some (fu', ba')) from
      Prod.ext rfl hstep]
    dsimp only
    split_ifs with hle
    · exact hlt.trans_le hle
    · exact updateFreeUntil_go_cheap hflag hev hlen as _ fu' ba'
        (hf.trans (scanFrame_updateFreeUntilStep _ _ _ _ _ _))
        (fun a' ha' => hocc a' (List.mem_cons_of_mem _ ha')) hlt

end Cheap

/-! ## The scan keeps the best `free_until` -/

theorem updateFreeUntilStep_le {s : AllocState} {start : Nat} {unIvs : List UseInterval}
    {a fu ba : Nat} {p : Nat × Nat} (h : (updateFreeUntilStep s start unIvs a fu ba).2 = some p) :
    p.1 ≤ fu := by
  revert h
  unfold updateFreeUntilStep
  dsimp only
  split
  · rintro ⟨⟩
    exact le_rfl
  · split_ifs <;> (try split) <;> (try split_ifs) <;> rintro ⟨⟩ <;>
      first | exact le_rfl | exact min_le_left _ _

/-- The walk of `UpdateFreeUntil` only lowers `free_until`, and answers one
above the best so far unless the register has no occupant. -/
theorem updateFreeUntil_go_le (curFree start : Nat) (unIvs : List UseInterval) :
    ∀ (as : List Nat) (s : AllocState) (fu ba : Nat) (p : Nat × Nat),
      (updateFreeUntil.go curFree start unIvs as s fu ba).2 = some p →
      p.1 ≤ fu ∧ (curFree < p.1 ∨ p.1 = fu)
  | [], _, _, _, _, h => by
    cases h
    exact ⟨le_rfl, .inr rfl⟩
  | a :: as, s, fu, ba, p, h => by
    unfold updateFreeUntil.go at h
    rcases hstep : updateFreeUntilStep s start unIvs a fu ba with ⟨t, _ | ⟨fu', ba'⟩⟩
    all_goals rw [hstep] at h; dsimp only at h
    · cases h
    · have hle := updateFreeUntilStep_le (congrArg Prod.snd hstep)
      split_ifs at h with hc
      obtain ⟨h₁, h₂⟩ := updateFreeUntil_go_le curFree start unIvs as t fu' ba' p h
      exact ⟨h₁.trans hle, .inl (h₂.elim id fun e => e ▸ Nat.lt_of_not_le hc)⟩

theorem updateFreeUntil_le {s : AllocState} {reg id curFree : Nat} {p : Nat × Nat}
    (h : (updateFreeUntil s reg id curFree).2 = some p) (hcur : curFree ≤ kMaxPosition) :
    curFree ≤ p.1 ∧ p.1 ≤ kMaxPosition := by
  obtain ⟨h₁, h₂⟩ := updateFreeUntil_go_le _ _ _ _ _ _ _ p h
  exact ⟨h₂.elim le_of_lt fun e => e ▸ hcur, h₁⟩

theorem scanFrame_updateFreeUntil_go (curFree start : Nat) (unIvs : List UseInterval) :
    ∀ (as : List Nat) (s : AllocState) (fu ba : Nat),
      ScanFrame s (updateFreeUntil.go curFree start unIvs as s fu ba).1
  | [], s, _, _ => ScanFrame.refl s
  | a :: as, s, fu, ba => by
    unfold updateFreeUntil.go
    have k := scanFrame_updateFreeUntilStep s start unIvs a fu ba
    rcases h : updateFreeUntilStep s start unIvs a fu ba with ⟨t, _ | ⟨fu', ba'⟩⟩
    all_goals rw [h] at k
    · exact k
    · dsimp only
      split_ifs
      · exact k
      · exact k.trans (scanFrame_updateFreeUntil_go curFree start unIvs as t fu' ba')

theorem scanFrame_updateFreeUntil (s : AllocState) (reg id curFree : Nat) :
    ScanFrame s (updateFreeUntil s reg id curFree).1 :=
  scanFrame_updateFreeUntil_go _ _ _ _ s _ _

section Scan
variable (c : AllocCtx)

theorem scanFrame_anyRegisterScan (id : Nat) :
    ∀ (regs : List Nat) (s : AllocState) (acc : Option Nat × Nat × Nat),
      ScanFrame s (anyRegisterScan c s id regs acc).1
  | [], s, _ => ScanFrame.refl s
  | reg :: regs, s, (cand, fu, ba) => by
    unfold anyRegisterScan
    split_ifs
    · exact scanFrame_anyRegisterScan id regs s _
    · have k := scanFrame_updateFreeUntil s reg id fu
      rcases h : updateFreeUntil s reg id fu with ⟨t, _ | ⟨fu', ba'⟩⟩
      all_goals rw [h] at k
      · exact k.trans (scanFrame_anyRegisterScan id regs t _)
      · exact k.trans (scanFrame_anyRegisterScan id regs t _)

/-- The scan of `AllocateAnyRegister` keeps the best `free_until` seen, which
stays within `kMaxPosition`. -/
theorem anyRegisterScan_mono (id : Nat) :
    ∀ (regs : List Nat) (s : AllocState) (cand : Option Nat) (fu ba : Nat), fu ≤ kMaxPosition →
      fu ≤ (anyRegisterScan c s id regs (cand, fu, ba)).2.2.1 ∧
        (anyRegisterScan c s id regs (cand, fu, ba)).2.2.1 ≤ kMaxPosition
  | [], _, _, _, _, h => ⟨le_rfl, h⟩
  | reg :: regs, s, cand, fu, ba, h => by
    unfold anyRegisterScan
    split_ifs
    · exact anyRegisterScan_mono id regs s cand fu ba h
    · rcases hu : updateFreeUntil s reg id fu with ⟨t, _ | ⟨fu', ba'⟩⟩
      · exact anyRegisterScan_mono id regs t cand fu ba h
      · obtain ⟨h₁, h₂⟩ := updateFreeUntil_le (congrArg Prod.snd hu) h
        have ih := anyRegisterScan_mono id regs t (some reg) fu' ba' h₂
        exact ⟨h₁.trans ih.1, ih.2⟩

variable {c}

/-- `UpdateFreeUntil` on a cheap register, anywhere in the scan. -/
theorem updateFreeUntil_cheap {s₀ s : AllocState} {id l reg curFree : Nat} (hf : ScanFrame s₀ s)
    (hflag : FlagSound c s₀) (hev : (c.loops l).start % 2 = 0)
    (hlen : (c.loops l).start + 2 ≤ (c.loops l).stop)
    (hst : (s₀.ranges id).start = (c.loops l).start) (hmax : (c.loops l).start < kMaxPosition)
    (hocc : CheapOccupants (c := c) s₀ l (s₀.registers reg)) :
    match (updateFreeUntil s reg id curFree).2 with
    | none => (c.loops l).start < curFree
    | some p => (c.loops l).start < p.1 := by
  have e : (s.ranges id).start = (c.loops l).start := by
    rw [← hst]
    simp only [LiveRange.start, (hf.view id).2.1]
  unfold updateFreeUntil
  dsimp only
  rw [e, hf.registers]
  exact updateFreeUntil_go_cheap hflag hev hlen _ s _ _ hf hocc hmax

/-- Once the scan has passed a cheap register, its best `free_until` is after
the loop's start. -/
theorem anyRegisterScan_cheap {s₀ : AllocState} {id l creg : Nat} (hflag : FlagSound c s₀)
    (hev : (c.loops l).start % 2 = 0) (hlen : (c.loops l).start + 2 ≤ (c.loops l).stop)
    (hst : (s₀.ranges id).start = (c.loops l).start) (hmax : (c.loops l).start < kMaxPosition)
    (hb : c.blocked creg = false) (hocc : CheapOccupants (c := c) s₀ l (s₀.registers creg)) :
    ∀ (regs : List Nat) (s : AllocState) (cand : Option Nat) (fu ba : Nat), creg ∈ regs →
      ScanFrame s₀ s → fu ≤ kMaxPosition →
      (c.loops l).start < (anyRegisterScan c s id regs (cand, fu, ba)).2.2.1
  | [], _, _, _, _, hmem, _, _ => absurd hmem (List.not_mem_nil _)
  | reg :: regs, s, cand, fu, ba, hmem, hf, hfu => by
    unfold anyRegisterScan
    by_cases e : reg = creg
    · subst e
      rw [if_neg (by simp [hb])]
      have hc := @updateFreeUntil_cheap _ _ _ _ _ _ fu hf hflag hev hlen hst hmax hocc
      rcases hu : updateFreeUntil s reg id fu with ⟨t, _ | ⟨fu', ba'⟩⟩
      all_goals rw [hu] at hc
      · exact hc.trans_le (anyRegisterScan_mono c id regs t cand fu ba hfu).1
      · have h₂ := (updateFreeUntil_le (congrArg Prod.snd hu) hfu).2
        exact hc.trans_le (anyRegisterScan_mono c id regs t (some reg) fu' ba' h₂).1
    · have hmem' := (List.mem_cons.1 hmem).resolve_left (Ne.symm e)
      split_ifs
      · exact anyRegisterScan_cheap hflag hev hlen hst hmax hb hocc regs s cand fu ba hmem' hf hfu
      · have k := hf.trans (scanFrame_updateFreeUntil s reg id fu)
        rcases hu : updateFreeUntil s reg id fu with ⟨t, _ | ⟨fu', ba'⟩⟩
        all_goals rw [hu] at k
        · exact anyRegisterScan_cheap hflag hev hlen hst hmax hb hocc regs t cand fu ba hmem' k hfu
        · exact anyRegisterScan_cheap hflag hev hlen hst hmax hb hocc regs t (some reg) fu' ba' hmem' k
            (updateFreeUntil_le (congrArg Prod.snd hu) hfu).2

/-- At a state where the loop flags are sound and every range is separated with
its uses in order, the scan of `AllocateAnyRegister` for a loop phi with a cheap
eviction candidate finds a `free_until` after the phi's start. -/
theorem anyRegisterScan_freeUntil_gt {s : AllocState} {id l : Nat} (hflag : FlagSound c s)
    (hsep : ∀ j, (s.ranges j).Separated)
    (hsorted : ∀ j, (s.ranges j).uses.Pairwise fun a b => a.pos ≤ b.pos)
    (hl : c.loopAt (s.ranges id).start = some l) (hhdr : (c.loops l).start = (s.ranges id).start)
    (hev : (c.loops l).start % 2 = 0) (hlen : (c.loops l).start + 2 ≤ (c.loops l).stop)
    (hmax : (s.ranges id).start < kMaxPosition) (hcheap : hasCheapEvictionCandidate c s id = true) :
    (s.ranges id).start < (anyRegisterScan c s id c.regOrder (none, 0, kMaxPosition)).2.2.1 := by
  unfold hasCheapEvictionCandidate at hcheap
  rw [hl] at hcheap
  obtain ⟨creg, hmem, hc⟩ := List.any_eq_true.1 hcheap
  simp only [Bool.and_eq_true, Bool.not_eq_true'] at hc
  rw [← hhdr]
  exact anyRegisterScan_cheap hflag hev hlen hhdr.symm (hhdr ▸ hmax) hc.1
    (fun a ha => ⟨hsep a, hsorted a, List.all_eq_true.1 hc.2 a ha⟩) c.regOrder s none 0 kMaxPosition
    (mem_regOrder c (List.mem_range.1 hmem)) (ScanFrame.refl s) (Nat.zero_le _)

end Scan

/-! ## What the loop keeps -/

/-- No range holds a location that requires a register, as its assigned
location or as its spill slot: `ConvertAllUses` never writes one. -/
def LocsSettled (s : AllocState) : Prop :=
  ∀ j, (s.ranges j).assigned.requiresRegisterPolicy = false ∧
    (s.ranges j).spillSlot.requiresRegisterPolicy = false

/-- Every range's uses are in position order. -/
def UsesSorted (s : AllocState) : Prop :=
  ∀ j, (s.ranges j).uses.Pairwise fun a b => a.pos ≤ b.pos

/-- `s'` keeps what the argument reads of `s`. Every range of `s'` has the
value of a range of `s` and a part of its uses; the loop flags only fall; no
slot gains a location that requires a register; and no range holds one. -/
structure KeepsFlags (s s' : AllocState) : Prop where
  liveRanges : s'.liveRanges = s.liveRanges
  slots : ∀ k, s'.slots k = s.slots k ∨ (s'.slots k).requiresRegisterPolicy = false
  origin : ∀ j, ∃ j₀, (s'.ranges j).vreg = (s.ranges j₀).vreg ∧
    (s'.ranges j).uses.Sublist (s.ranges j₀).uses
  flags : ∀ j l, (s'.ranges j).hasOnlyUnconstrainedUsesInLoop l = true →
    (s.ranges j).hasOnlyUnconstrainedUsesInLoop l = true
  settled : LocsSettled s'

namespace KeepsFlags
variable {s s' s'' : AllocState}

theorem refl (h : LocsSettled s) : KeepsFlags s s :=
  ⟨rfl, fun _ => .inl rfl, fun j => ⟨j, rfl, List.Sublist.refl _⟩, fun _ _ h => h, h⟩

theorem trans (h₁ : KeepsFlags s s') (h₂ : KeepsFlags s' s'') : KeepsFlags s s'' := by
  refine ⟨h₂.liveRanges.trans h₁.liveRanges, fun k => ?_, fun j => ?_,
    fun j l h => h₁.flags j l (h₂.flags j l h), h₂.settled⟩
  · rcases h₂.slots k with e | e
    · rw [e]
      exact h₁.slots k
    · exact .inr e
  · obtain ⟨j₁, hv₁, hu₁⟩ := h₂.origin j
    obtain ⟨j₀, hv₀, hu₀⟩ := h₁.origin j₁
    exact ⟨j₀, hv₁.trans hv₀, hu₁.trans hu₀⟩

/-- Go on from a state that keeps the flags with a step that keeps them from
any settled state. -/
theorem then_ (h : KeepsFlags s s') (f : LocsSettled s' → KeepsFlags s' s'') : KeepsFlags s s'' :=
  h.trans (f h.settled)

/-- Keeping the ranges, the slots and the value map keeps everything. -/
theorem of_eq (h : LocsSettled s) (hr : s'.ranges = s.ranges) (hsl : s'.slots = s.slots)
    (hlr : s'.liveRanges = s.liveRanges) : KeepsFlags s s' :=
  ⟨hlr, fun _ => .inl (by rw [hsl]), fun j => ⟨j, by rw [hr], by rw [hr]⟩,
    fun _ _ h => by rwa [hr] at h, fun j => by rw [hr]; exact h j⟩

end KeepsFlags

theorem FlagSound.keeps {c : AllocCtx} {s s' : AllocState} (h : FlagSound c s)
    (k : KeepsFlags s s') : FlagSound c s' := by
  intro a l ha u hu hlo hhi
  obtain ⟨a₀, hv, hsub⟩ := k.origin a
  have ha₀ : rangeHasOnlyUnconstrainedUsesInLoop s a₀ l = true := by
    simp only [rangeHasOnlyUnconstrainedUsesInLoop, parentOf, Bool.and_eq_true,
      decide_eq_true_eq] at ha ⊢
    rw [k.liveRanges, hv] at ha
    exact ⟨ha.1, k.flags _ l ha.2⟩
  have := h a₀ l ha₀ u (hsub.subset hu) hlo hhi
  unfold isRegisterUse at this ⊢
  rcases k.slots u.slot with e | e
  · rw [e]
    exact this
  · exact e

theorem UsesSorted.keeps {s s' : AllocState} (h : UsesSorted s) (k : KeepsFlags s s') :
    UsesSorted s' := fun j =>
  let ⟨j₀, _, hsub⟩ := k.origin j
  (h j₀).sublist hsub

theorem ScanFrame.keepsFlags {s s' : AllocState} (hs : LocsSettled s) (h : ScanFrame s s') :
    KeepsFlags s s' := by
  refine ⟨h.liveRanges, fun _ => .inl (by rw [h.slots]), fun j => ⟨j, (h.view j).2.2.1,
    by rw [(h.view j).1]⟩, fun j l hj => ?_, fun j => ?_⟩
  · simpa only [LiveRange.hasOnlyUnconstrainedUsesInLoop, (h.view j).2.2.2.1] using hj
  · obtain ⟨f, -, e⟩ := h.ranges j
    rw [e]
    exact hs j

/-! ## One lemma per operation -/

/-- A stack slot is no policy. -/
theorem Location.requiresRegisterPolicy_of_hasStackIndex {l : Location} (h : l.hasStackIndex = true) :
    l.requiresRegisterPolicy = false := by
  cases l <;> first | rfl | cases h


section Ops
variable (c : AllocCtx) {s : AllocState} (hs : LocsSettled s)
include hs

/-- Replacing a range by one with the same value, part of its uses, no new
loop flag and settled locations keeps the flags. -/
theorem keepsFlags_setRange (a : Nat) (r : LiveRange) (hv : r.vreg = (s.ranges a).vreg)
    (hu : r.uses.Sublist (s.ranges a).uses)
    (hf : ∀ l, r.hasOnlyUnconstrainedUsesInLoop l = true →
      (s.ranges a).hasOnlyUnconstrainedUsesInLoop l = true)
    (hl : r.assigned.requiresRegisterPolicy = false ∧ r.spillSlot.requiresRegisterPolicy = false) :
    KeepsFlags s (s.setRange a r) := by
  refine ⟨rfl, fun _ => .inl rfl, fun j => ?_, fun j l => ?_, fun j => ?_⟩ <;>
    by_cases h : j = a <;> simp only [setRange_ranges, h, if_true, if_false]
  · exact ⟨a, hv, hu⟩
  · exact ⟨j, rfl, List.Sublist.refl _⟩
  · exact hf l
  · exact id
  · exact hl
  · exact hs j

theorem keepsFlags_setFinger (a : Nat) (f : Finger) :
    KeepsFlags s (s.setRange a { s.ranges a with finger := f }) :=
  keepsFlags_setRange hs a _ rfl (List.Sublist.refl _) (fun _ h => h) (hs a)

theorem keepsFlags_setSlot (k : Nat) {loc : Location} (hl : loc.requiresRegisterPolicy = false) :
    KeepsFlags s (s.setSlot k loc) :=
  ⟨rfl, fun j => by by_cases h : j = k <;> simp [h, hl], fun j => ⟨j, rfl, List.Sublist.refl _⟩,
    fun _ _ h => h, hs⟩

omit hs in
/-- A fold whose every step keeps the flags keeps them. -/
theorem keepsFlags_foldl {α : Type} {f : AllocState → α → AllocState}
    (hf : ∀ t a, LocsSettled t → KeepsFlags t (f t a)) :
    ∀ (l : List α) (s : AllocState), LocsSettled s → KeepsFlags s (l.foldl f s)
  | [], _, hs => KeepsFlags.refl hs
  | a :: l, s, hs => (hf s a hs).trans (keepsFlags_foldl hf l _ (hf s a hs).settled)

theorem keepsFlags_convertAllUses (id : Nat) : KeepsFlags s (convertAllUses c s id) := by
  have huses := keepsFlags_foldl (f := fun t (u : UsePosition) => t.setSlot u.slot (s.ranges id).assigned)
    (fun t u ht => keepsFlags_setSlot ht u.slot (hs id).1) (s.ranges id).uses s hs
  unfold convertAllUses
  dsimp only
  split_ifs
  · exact KeepsFlags.refl hs
  · refine huses.trans (keepsFlags_foldl (fun t sp ht => ?_) _ _ huses.settled)
    split_ifs
    · exact KeepsFlags.refl ht
    · exact KeepsFlags.of_eq ht rfl rfl rfl
  · exact huses

theorem keepsFlags_allocateSpillSlotForRange (id : Nat) :
    KeepsFlags s (allocateSpillSlotForRange c s id) := by
  unfold allocateSpillSlotForRange
  dsimp only
  have k := keepsFlags_setRange hs id { s.ranges id with spillSlot :=
    (allocateSpillSlotFor c.spillCtx s.spillTable (s.ranges id).start
      (((s.chain id).getLast?.map fun j => (s.ranges j).stop).getD (s.ranges id).stop)
      (s.ranges id).representation).1 } rfl (List.Sublist.refl _) (fun _ h => h)
    ⟨(hs id).1, Location.requiresRegisterPolicy_of_hasStackIndex (allocateSpillSlotFor_hasStackIndex _ _ _ _ _)⟩
  exact k.trans (KeepsFlags.of_eq k.settled rfl rfl rfl)

theorem keepsFlags_markAsObjectAtSafepoints (id : Nat) :
    KeepsFlags s (markAsObjectAtSafepoints c s id) :=
  KeepsFlags.of_eq hs (markAsObjectAtSafepoints_ranges c s id) (markAsObjectAtSafepoints_slots c s id)
    (markAsObjectAtSafepoints_keep c AllocState.liveRanges (fun _ _ _ => rfl) s id)

theorem keepsFlags_addToUnallocated (id : Nat) : KeepsFlags s (addToUnallocated s id) :=
  (keepsFlags_setFinger hs id _).trans (KeepsFlags.of_eq (keepsFlags_setFinger hs id _).settled rfl rfl rfl)

theorem keepsFlags_assignRegister (id reg : Nat) : KeepsFlags s (assignRegister c s id reg) := by
  have k := keepsFlags_setRange hs id { s.ranges id with
    assigned := makeRegisterLocation c.registerKind reg } rfl (List.Sublist.refl _) (fun _ h => h)
    ⟨by unfold makeRegisterLocation; split <;> rfl, (hs id).2⟩
  exact k.trans (KeepsFlags.of_eq k.settled rfl rfl rfl)

theorem keepsFlags_spill (id : Nat) : KeepsFlags s (spill c s id) := by
  have cont : ∀ t, KeepsFlags s t → KeepsFlags s (convertAllUses c (t.setRange id
      { t.ranges id with assigned := (t.ranges (s.parentOf id)).spillSlot }) id) := fun t kt => by
    have k := keepsFlags_setRange kt.settled id
      { t.ranges id with assigned := (t.ranges (s.parentOf id)).spillSlot } rfl
      (List.Sublist.refl _) (fun _ h => h) ⟨(kt.settled (s.parentOf id)).2, (kt.settled id).2⟩
    exact kt.trans (k.trans (keepsFlags_convertAllUses c k.settled id))
  refine cont _ ?_
  have k := keepsFlags_allocateSpillSlotForRange c hs (s.parentOf id)
  split_ifs
  · dsimp only
    split_ifs
    · exact k.trans (keepsFlags_markAsObjectAtSafepoints c k.settled _)
    · exact k
  · exact KeepsFlags.refl hs

omit hs in
/-- What `SplitAt` hands on to its pieces beyond the cut lists: the value, and
for the head the flags and locations; the tail has no flag and no location. -/
theorem splitParts_fields (r : LiveRange) (pos n : Nat) :
    (r.splitParts pos n).1.vreg = r.vreg ∧ (r.splitParts pos n).2.vreg = r.vreg ∧
      (r.splitParts pos n).1.onlyAnyUsesInLoop = r.onlyAnyUsesInLoop ∧
      (r.splitParts pos n).2.onlyAnyUsesInLoop = (fun _ => false) ∧
      (r.splitParts pos n).1.assigned = r.assigned ∧ (r.splitParts pos n).2.assigned = .invalid ∧
      (r.splitParts pos n).1.spillSlot = r.spillSlot ∧ (r.splitParts pos n).2.spillSlot = .invalid :=
  ⟨rfl, rfl, rfl, rfl, rfl, rfl, rfl, rfl⟩

/-- A split puts two pieces of the range where it was: each has the range's
value and a part of its uses. -/
theorem keepsFlags_splitAt (id pos : Nat) : KeepsFlags s (splitAt s id pos).1 := by
  unfold splitAt
  dsimp only
  split_ifs
  · exact KeepsFlags.refl hs
  have happ := splitParts_uses (s.ranges id) pos s.fresh
  obtain ⟨hv₁, hv₂, hf₁, hf₂, ha₁, ha₂, hsp₁, hsp₂⟩ := splitParts_fields (s.ranges id) pos s.fresh
  refine ⟨rfl, fun _ => .inl rfl, fun j => ?_, fun j l => ?_, fun j => ?_⟩ <;>
    simp only [setRange_ranges] <;> split_ifs
  · exact ⟨id, hv₂, happ ▸ List.sublist_append_right _ _⟩
  · exact ⟨id, hv₁, happ ▸ List.sublist_append_left _ _⟩
  · exact ⟨j, rfl, List.Sublist.refl _⟩
  · simp [LiveRange.hasOnlyUnconstrainedUsesInLoop, hf₂]
  · subst_vars
    simp only [LiveRange.hasOnlyUnconstrainedUsesInLoop, hf₁]
    exact fun h => h
  · exact fun h => h
  · rw [ha₂, hsp₂]
    exact ⟨rfl, rfl⟩
  · rw [ha₁, hsp₁]
    exact hs id
  · exact hs j

theorem keepsFlags_splitBetween (id fromPos toPos : Nat) :
    KeepsFlags s (splitBetween c s id fromPos toPos).1 :=
  keepsFlags_splitAt hs id _

theorem keepsFlags_spillBetween (id fromPos toPos : Nat) :
    KeepsFlags s (spillBetween c s id fromPos toPos) := by
  unfold spillBetween
  rcases h₁ : splitAt s id fromPos with ⟨s₁, tail⟩
  have k₁ := keepsFlags_splitAt hs id fromPos
  rw [h₁] at k₁
  dsimp only
  split_ifs
  · rcases h₂ : splitBetween c s₁ tail (s₁.ranges tail).start toPos with ⟨s₂, tailTail⟩
    have k₂ := keepsFlags_splitBetween c k₁.settled tail (s₁.ranges tail).start toPos
    rw [h₂] at k₂
    have k₃ := keepsFlags_spill c k₂.settled tail
    exact k₁.trans (k₂.trans (k₃.trans (keepsFlags_addToUnallocated k₃.settled _)))
  · exact k₁.trans (keepsFlags_addToUnallocated k₁.settled tail)

theorem keepsFlags_spillAfter (id fromPos : Nat) : KeepsFlags s (spillAfter c s id fromPos) := by
  have key : ∀ p, KeepsFlags s (match splitAt s id p with | (s, tail) => spill c s tail) := by
    intro p
    rcases h₁ : splitAt s id p with ⟨s₁, tail⟩
    have k₁ := keepsFlags_splitAt hs id p
    rw [h₁] at k₁
    exact k₁.trans (keepsFlags_spill c k₁.settled tail)
  exact key _

theorem keepsFlags_evictIntersection (a id : Nat) :
    KeepsFlags s (evictIntersection c s a id).1 := by
  unfold evictIntersection
  dsimp only
  split_ifs
  · exact KeepsFlags.refl hs
  all_goals
    have k := keepsFlags_setFinger hs a
      ((s.ranges a).finger.firstInterferingUse (s.ranges a).uses s.slots
        (((s.ranges id).pendingIntervals.head?.map (·.start)).getD 0)).1
    split
    · exact k.trans (keepsFlags_spillAfter c k.settled a _)
    · exact k.trans (keepsFlags_spillBetween c k.settled a _ _)

theorem keepsFlags_anyRegisterScan (id : Nat) (regs : List Nat) (acc : Option Nat × Nat × Nat) :
    KeepsFlags s (anyRegisterScan c s id regs acc).1 :=
  (scanFrame_anyRegisterScan c id regs s acc).keepsFlags hs

end Ops

/-! ## The register lists -/

section Walks
variable (c : AllocCtx)

/-- A walk over the occupants whose every visit keeps the flags keeps them. -/
theorem keepsFlags_walkOccupants (occs : List Nat)
    {visit : AllocState × List (Option Nat) → Nat → AllocState × List (Option Nat)}
    (hv : ∀ t kept i, LocsSettled t → KeepsFlags t (visit (t, kept) i).1) {s : AllocState}
    (hs : LocsSettled s) : KeepsFlags s (walkOccupants occs visit s).1 :=
  List.foldlRecOn (motive := fun acc => KeepsFlags s acc.1) _ _ _ (KeepsFlags.refl hs)
    fun (acc : AllocState × List (Option Nat)) h i _ => h.trans (hv acc.1 acc.2 i h.settled)

theorem keepsFlags_removeEvicted {s : AllocState} (hs : LocsSettled s) (reg : Nat)
    (kept : List (Option Nat)) : KeepsFlags s (removeEvicted s reg kept) :=
  KeepsFlags.of_eq hs rfl rfl rfl

theorem keepsFlags_advanceRegister {s : AllocState} (hs : LocsSettled s) (start reg : Nat) :
    KeepsFlags s (advanceRegister c s start reg) := by
  have k := @keepsFlags_walkOccupants (s.registers reg) (advanceOccupant c start (s.registers reg))
    (fun t kept i ht => by
      unfold advanceOccupant
      dsimp only
      have k := keepsFlags_setFinger ht ((s.registers reg).getD i 0)
        ((t.ranges ((s.registers reg).getD i 0)).finger.advance
          (t.ranges ((s.registers reg).getD i 0)).intervals start).1
      split_ifs
      · exact k.trans (keepsFlags_convertAllUses c k.settled _)
      · exact k) s hs
  exact k.trans (keepsFlags_removeEvicted k.settled reg _)

theorem keepsFlags_advanceActiveIntervals {s : AllocState} (hs : LocsSettled s) (start : Nat) :
    KeepsFlags s (advanceActiveIntervals c s start) :=
  keepsFlags_foldl (fun _ reg ht => keepsFlags_advanceRegister c ht start reg) c.regOrder s hs

theorem keepsFlags_assignNonFreeRegister {s : AllocState} (hs : LocsSettled s) (id reg : Nat) :
    KeepsFlags s (assignNonFreeRegister c s id reg) := by
  have k := @keepsFlags_walkOccupants (s.registers reg) (evictOccupant c id (s.registers reg))
    (fun t _ i ht => by
      unfold evictOccupant
      dsimp only
      have k := keepsFlags_evictIntersection c ht ((s.registers reg).getD i 0) id
      split_ifs
      · exact KeepsFlags.refl ht
      · exact k.trans (keepsFlags_convertAllUses c k.settled _)
      · exact k
      · exact k) s hs
  exact (k.then_ fun h => keepsFlags_removeEvicted h reg _).then_ fun h =>
    keepsFlags_assignRegister c h id reg

theorem keepsFlags_allocateFreeRegister {s s' : AllocState} (hs : LocsSettled s) {id : Nat}
    (h : allocateFreeRegister c s id = some s') : KeepsFlags s s' := by
  have ksplit : ∀ pos, KeepsFlags s (addToUnallocated (splitAt s id pos).1 (splitAt s id pos).2) :=
    fun pos => (keepsFlags_splitAt hs id pos).trans
      (keepsFlags_addToUnallocated (keepsFlags_splitAt hs id pos).settled _)
  unfold allocateFreeRegister at h
  dsimp only at h
  split_ifs at h <;> cases h <;> first
    | exact keepsFlags_assignRegister c hs _ _
    | exact (ksplit _).trans (keepsFlags_spill c (ksplit _).settled _)
    | exact (ksplit _).trans (keepsFlags_assignRegister c (ksplit _).settled _ _)

theorem keepsFlags_allocateAnyRegister {s : AllocState} (hs : LocsSettled s) (id : Nat) :
    KeepsFlags s (allocateAnyRegister c s id) := by
  unfold allocateAnyRegister
  dsimp only
  have k₁ := keepsFlags_setFinger hs id
    ((s.ranges id).finger.firstRegisterUse (s.ranges id).uses s.slots (s.ranges id).start).1
  have k₂ := k₁.trans (keepsFlags_anyRegisterScan c k₁.settled id c.regOrder (none, 0, kMaxPosition))
  split_ifs
  · exact k₁.trans (keepsFlags_spill c k₁.settled id)
  · exact k₂.trans (keepsFlags_spillBetween c k₂.settled id _ _)
  · exact ((k₂.then_ fun h => keepsFlags_splitBetween c h id _ _).then_ fun h =>
      keepsFlags_addToUnallocated h _).then_ fun h => keepsFlags_assignNonFreeRegister c h id _
  · exact k₂.trans (keepsFlags_assignNonFreeRegister c k₂.settled id _)

/-- One iteration of the worklist loop keeps the flags. -/
theorem keepsFlags_allocateStep {s s' : AllocState} (hs : LocsSettled s) {id : Nat}
    (h : allocateStep c s id = some s') : KeepsFlags s s' := by
  have k := keepsFlags_advanceActiveIntervals c hs (s.ranges id).start
  unfold allocateStep at h
  dsimp only at h
  split at h
  · next t hfree => exact Option.some.inj h ▸ k.trans (keepsFlags_allocateFreeRegister c k.settled hfree)
  · split_ifs at h
    exact Option.some.inj h ▸ k.trans (keepsFlags_allocateAnyRegister c k.settled id)

end Walks

/-! ## Every state of the loop -/

/-- Both pieces of a split are separated. -/
theorem splitClosed_separated : SplitClosed LiveRange.Separated where
  of_shape {r r'} e h := by
    simp only [LiveRange.shape, Prod.mk.injEq] at e
    unfold LiveRange.Separated
    rw [e.2.1]
    exact h
  split pos n h := splitParts_separated h pos n

section Run
variable (c : AllocCtx)

/-- What the worklist loop keeps of every state for the cheap-eviction
argument: the live-register invariant with bounded, separated ranges, sound
loop flags, uses in order and settled locations. -/
structure CheapInv (s : AllocState) : Prop where
  loop : LoopInv c (fun r => r.Bounded ∧ r.Separated) s
  flags : FlagSound c s
  sorted : UsesSorted s
  settled : LocsSettled s

/-- The states the worklist loop reaches from `s₀`: one `allocateStep` on the
last queued range at a time, as `allocationLoop` runs it. -/
inductive LoopReach (s₀ : AllocState) : AllocState → Prop
  | start : LoopReach s₀ s₀
  | step {s s' : AllocState} {id : Nat} : LoopReach s₀ s → s.unallocated.getLast? = some id →
      allocateStep c { s with unallocated := s.unallocated.dropLast } id = some s' → LoopReach s₀ s'

/-- The state `allocationLoop` ends in is one it reaches. -/
theorem allocationLoop_reach {s₀ : AllocState} :
    ∀ (fuel : Nat) {s s' : AllocState}, LoopReach c s₀ s → allocationLoop c fuel s = some s' →
      LoopReach c s₀ s'
  | 0, _, _, h, hs => by
    unfold allocationLoop at hs
    split_ifs at hs
    exact Option.some.inj hs ▸ h
  | n + 1, s, _, h, hs => by
    unfold allocationLoop at hs
    split at hs
    · exact Option.some.inj hs ▸ h
    · next id hid =>
      split at hs
      · next t ht => exact allocationLoop_reach n (h.step hid ht) hs
      · cases hs

variable {c}

theorem CheapInv.dropLast {s : AllocState} (h : CheapInv c s) :
    CheapInv c { s with unallocated := s.unallocated.dropLast } :=
  ⟨⟨h.loop.liveRegs, h.loop.shapes⟩, h.flags, h.sorted, h.settled⟩

theorem CheapInv.allocateStep {s s' : AllocState} (h : CheapInv c s) {id : Nat}
    (hs : allocateStep c s id = some s') : CheapInv c s' :=
  have k := keepsFlags_allocateStep c h.settled hs
  ⟨loopInv_allocateStep c (splitClosed_bounded.and splitClosed_separated) h.loop hs,
    h.flags.keeps k, h.sorted.keeps k, k.settled⟩

/-- Every state the loop reaches keeps the invariant. -/
theorem CheapInv.reach {s₀ s : AllocState} (h₀ : CheapInv c s₀) (h : LoopReach c s₀ s) :
    CheapInv c s := by
  induction h with
  | start => exact h₀
  | step _ _ hs ih => exact ih.dropLast.allocateStep hs

/-- A bounded, separated range starts before `kMaxPosition`. -/
theorem LiveRange.start_lt_kMaxPosition {r : LiveRange} (hb : r.Bounded) (hsep : r.Separated) :
    r.start < kMaxPosition := by
  cases h : r.intervals with
  | nil => simp [LiveRange.start, h, kMaxPosition]
  | cons iv ivs =>
    have := hsep.1 iv (by simp [h])
    have := hb iv (by simp [h])
    simp only [LiveRange.start, h, List.head?_cons, Option.map_some', Option.getD_some]
    omega

/-- In every state the worklist loop reaches from a state with the invariant,
once `AdvanceActiveIntervals` has run at the start of the range it pops and
`FirstRegisterUse` has moved its finger, the scan of `AllocateAnyRegister`
finds a `free_until` after the range's start whenever the range starts at the
header of its loop and has a cheap eviction candidate. `AllocateAnyRegister`
asks for a candidate only for a loop phi without a register use, and then
compares `free_until` with the phi's start, so it never reaches `SpillBetween`
with a null use. -/
theorem cheapEviction_freeUntil_gt {s₀ s : AllocState} (h₀ : CheapInv c s₀)
    (hreach : LoopReach c s₀ s) (id : Nat)
    (hloops : ∀ l, (c.loops l).start % 2 = 0 ∧ (c.loops l).start + 2 ≤ (c.loops l).stop) :
    let t := advanceActiveIntervals c { s with unallocated := s.unallocated.dropLast } (s.ranges id).start
    let r := t.ranges id
    let t' := t.setRange id { r with finger := (r.finger.firstRegisterUse r.uses t.slots r.start).1 }
    (∀ l, c.loopAt r.start = some l → (c.loops l).start = r.start) →
      hasCheapEvictionCandidate c t' id = true →
      r.start < (anyRegisterScan c t' id c.regOrder (none, 0, kMaxPosition)).2.2.1 := by
  intro t r t' hhdr hcheap
  have hinv := (h₀.reach hreach).dropLast
  have hloop := loopInv_advanceActiveIntervals c (splitClosed_bounded.and splitClosed_separated)
    hinv.loop (s.ranges id).start
  have kfin := (keepsFlags_advanceActiveIntervals c hinv.settled (s.ranges id).start).then_
    fun h => keepsFlags_setFinger h id (r.finger.firstRegisterUse r.uses t.slots r.start).1
  have hview : ∀ j, (t'.ranges j).intervals = (t.ranges j).intervals := fun j => by
    by_cases hj : j = id <;> simp [t', hj, r]
  have hsep : ∀ j, (t'.ranges j).Separated := fun j => by
    unfold LiveRange.Separated
    rw [hview]
    exact (hloop.shapes j).2
  have hst : (t'.ranges id).start = r.start := by
    simp only [LiveRange.start, hview]
  obtain ⟨l, hl⟩ : ∃ l, c.loopAt r.start = some l := by
    unfold hasCheapEvictionCandidate at hcheap
    rw [hst] at hcheap
    split at hcheap
    · exact ⟨_, ‹_›⟩
    · cases hcheap
  rw [← hst]
  exact anyRegisterScan_freeUntil_gt (hinv.flags.keeps kfin) hsep (hinv.sorted.keeps kfin)
    (hst ▸ hl) (hst ▸ hhdr l hl) (hloops l).1 (hloops l).2
    (hst ▸ LiveRange.start_lt_kMaxPosition (hloop.shapes id).1 (hloop.shapes id).2) hcheap

end Run

/-- One register and one loop with its header at `10` and extent `[10, 20)`. -/
def cheapLoopCtx : AllocCtx where
  numberOfRegisters := 1
  bias := 0
  registerKind := .register
  blocked := fun _ => false
  intrinsicMode := false
  fixedSlotCount := 0
  cpuSpillSlotCount := 0
  layout := ⟨-1, 1⟩
  isBlockEntry := fun pos => pos % 10 == 0
  blockStart := fun pos => pos - pos % 10
  loopAt := fun pos => if 10 ≤ pos ∧ pos < 20 then some 0 else none
  loops := fun _ => ⟨10, none, 10, 20, fun _ => false, []⟩
  numLoops := 1
  reachingDefs := fun _ _ => false
  safepointInfo := fun _ => ⟨false, false, false⟩
  catchEntries := []
  exceptionLoc := .invalid
  stackTraceLoc := .invalid

/-- A loop phi `0` over `[10, 30)` without uses, queued, and a value `1` on the
register over `[4, 40)`, flagged as having only unconstrained uses in the loop,
whose one register use is at `32`, after the loop. -/
def cheapLoopState : AllocState where
  ranges := fun j =>
    if j = 0 then { LiveRange.make 0 .tagged with
      intervals := [⟨10, 30⟩], isLoopPhi := true, finger := ⟨some 0, none, none, none⟩ }
    else if j = 1 then { LiveRange.make 1 .tagged with
      assigned := .register 0, intervals := [⟨4, 40⟩], uses := [⟨32, 0, none⟩],
      finger := ⟨some 0, some 0, some 0, none⟩, onlyAnyUsesInLoop := fun l => l == 0 }
    else LiveRange.make 0 .tagged
  fresh := 2
  slots := fun _ => .unallocated .requiresRegister
  liveRanges := fun v => v.toNat
  unallocated := [0]
  registers := fun reg => if reg = 0 then [1] else []
  spillTable := ⟨[], [], []⟩
  spilled := []
  locs := fun _ => ⟨[], []⟩

theorem cheapLoopState_inv : CheapInv cheapLoopCtx cheapLoopState := by
  refine ⟨⟨fun j hj => ?_, fun j => ?_⟩, fun a l _ u hu _ hhi => ?_, fun j => ?_, fun j => ?_⟩
  · by_cases h : j = 1
    · exact absurd (by simp [cheapLoopState, h]) (hj 0)
    · exact converted_of_not_machine cheapLoopCtx (by
        simp only [cheapLoopState, h, if_false]
        split_ifs <;> rfl)
  · simp only [cheapLoopState, LiveRange.Bounded, LiveRange.Separated]
    split_ifs <;> decide
  · simp only [cheapLoopState] at hu
    split_ifs at hu
    · simp [LiveRange.make] at hu
    · simp only [List.mem_singleton] at hu
      subst hu
      simp [cheapLoopCtx] at hhi
    · simp [LiveRange.make] at hu
  · simp only [cheapLoopState]
    split_ifs <;> decide
  · simp only [cheapLoopState]
    split_ifs <;> decide

/-- In `cheapLoopState`, the phi's scan finds the register free until the
value's register use at `32`. -/
theorem cheapEviction_freeUntil_gt_loop :
    let t := advanceActiveIntervals cheapLoopCtx
      { cheapLoopState with unallocated := cheapLoopState.unallocated.dropLast }
      (cheapLoopState.ranges 0).start
    let r := t.ranges 0
    let t' := t.setRange 0 { r with finger := (r.finger.firstRegisterUse r.uses t.slots r.start).1 }
    hasCheapEvictionCandidate cheapLoopCtx t' 0 = true ∧
      r.start < (anyRegisterScan cheapLoopCtx t' 0 cheapLoopCtx.regOrder (none, 0, kMaxPosition)).2.2.1 :=
  ⟨by decide, cheapEviction_freeUntil_gt cheapLoopState_inv LoopReach.start 0
    (fun _ => by simp [cheapLoopCtx]) (fun _ _ => rfl) (by decide)⟩

end LinearScan
