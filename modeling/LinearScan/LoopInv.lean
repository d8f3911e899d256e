import LinearScan.AllocateLoop

/-!
# Registers recorded at slow-path safepoints, over whole runs

`ConvertAllUses` (linearscan.cc 2818–2849) records a range's machine register
in the `live_registers()` of every safepoint on its list that does not always
call, so that the slow path saves it. The allocation loop runs it whenever a
range leaves `registers_`. `AdvanceActiveIntervals` retires ranges,
`AssignNonFreeRegister` evicts them, and `Spill` sends them to the stack.
This module proves that the loop keeps the resulting invariant over whole runs:

> `LiveRegsInv`: every range outside the register lists is `Converted`, that
> is, its register is recorded at every slow-path safepoint on its list.

The argument is one fact per operation. Every operation but `assignRegister`
and the two list edits is `Steady`:
* it keeps each range's conversion;
* it keeps every property of the ranges that both pieces of a split keep
  (`SplitClosed`);
* it leaves the register lists alone.

The operations do this as follows.
* A split hands the head part of its safepoints and gives the tail no location.
* `Spill` converts the range it moves.
* Finger moves, spill-slot reservations and stack bits touch nothing the
  invariants read.
* Recorded live registers are only ever appended to.

`assignRegister` changes a range's register, but puts the range into a register
list. The two list edits, retirement and eviction, share one walk
(`walkOccupants`). Every range it removes is converted first.
`loopInv_allocationLoop` is the run lemma, for any split-closed property `P` of
the ranges. With `P` bounding every interval by `kMaxPosition`, the final
`AdvanceActiveIntervals(kMaxPosition)` empties every register of the class.
`allocateUnallocatedRanges_converted` then states the pass's result for every
range.
-/

namespace LinearScan

open AllocState

section Conversion
variable (c : AllocCtx)

/-- A range records its register at every slow-path safepoint on its list. -/
def Converted (s : AllocState) (j : Nat) : Prop :=
  (s.ranges j).vreg ≠ kNoVirtualRegister → (s.ranges j).assigned.isMachineRegister = true →
    ∀ sp ∈ (s.ranges j).safepoints, (c.safepointInfo sp.locs).alwaysCalls = false →
      ((s.ranges j).assigned, (s.ranges j).representation) ∈ (s.locs sp.locs).liveRegisters

/-- Every range outside the register lists is converted. -/
def LiveRegsInv (s : AllocState) : Prop :=
  ∀ j, (∀ reg, j ∉ s.registers reg) → Converted c s j

/-- What a split hands on to its pieces: the value, the intervals and the
safepoints. -/
def LiveRange.shape (r : LiveRange) : Int × List UseInterval × List SafepointPosition :=
  (r.vreg, r.intervals, r.safepoints)

/-- A property of ranges that reads only their shape, and that both pieces of
every split keep. -/
structure SplitClosed (P : LiveRange → Prop) : Prop where
  of_shape : ∀ {r r' : LiveRange}, r'.shape = r.shape → P r → P r'
  split : ∀ {r : LiveRange} (pos n : Nat), P r → P (r.splitParts pos n).1 ∧ P (r.splitParts pos n).2

/-- Split-closed properties combine. -/
theorem SplitClosed.and {P Q : LiveRange → Prop} (hP : SplitClosed P) (hQ : SplitClosed Q) :
    SplitClosed (fun r => P r ∧ Q r) where
  of_shape e h := ⟨hP.of_shape e h.1, hQ.of_shape e h.2⟩
  split pos n h := ⟨⟨(hP.split pos n h.1).1, (hQ.split pos n h.2).1⟩,
    ⟨(hP.split pos n h.1).2, (hQ.split pos n h.2).2⟩⟩

/-- Every range of the state has property `P`. -/
def AllRanges (P : LiveRange → Prop) (s : AllocState) : Prop := ∀ j, P (s.ranges j)

/-- No interval of the range ends after `kMaxPosition`. -/
def LiveRange.Bounded (r : LiveRange) : Prop := ∀ iv ∈ r.intervals, iv.stop ≤ kMaxPosition

/-- No interval ends after `kMaxPosition`, so that the final
`AdvanceActiveIntervals(kMaxPosition)` retires every range. -/
def IntervalsBounded (s : AllocState) : Prop := AllRanges LiveRange.Bounded s

/-- `s'` keeps the conversion of every range of `s`. -/
def KeepsConverted (s s' : AllocState) : Prop :=
  ∀ j, Converted c s j → Converted c s' j

/-- An operation that keeps every conversion and every split-closed property
of the ranges, and leaves the register lists alone: every operation of the loop
but the two list edits and `assignRegister`. -/
structure Steady (s s' : AllocState) : Prop where
  keeps : KeepsConverted c s s'
  shapes : ∀ P, SplitClosed P → AllRanges P s → AllRanges P s'
  registers : s'.registers = s.registers

theorem Steady.refl (s : AllocState) : Steady c s s := ⟨fun _ h => h, fun _ _ h => h, rfl⟩

theorem Steady.trans {s₁ s₂ s₃ : AllocState} (h₁ : Steady c s₁ s₂) (h₂ : Steady c s₂ s₃) :
    Steady c s₁ s₃ :=
  ⟨fun j h => h₂.keeps j (h₁.keeps j h), fun P hP h => h₂.shapes P hP (h₁.shapes P hP h),
    h₂.registers.trans h₁.registers⟩

/-- The pieces of a split end no later than the range's intervals. -/
theorem splitParts_stop_le {r : LiveRange} {bound : Nat} (h : ∀ iv ∈ r.intervals, iv.stop ≤ bound)
    (pos n : Nat) :
    ∀ iv ∈ (r.splitParts pos n).1.intervals ++ (r.splitParts pos n).2.intervals, iv.stop ≤ bound := by
  simp only [LiveRange.splitParts]
  set k := splitIndexFrom r.intervals pos (r.splitWalkStart pos) r.intervals.length
  set iv := r.intervals.getD k ⟨0, 0⟩
  split_ifs with hc
  · simp only [Bool.and_eq_true, Bool.not_eq_true'] at hc
    have hk : k < r.intervals.length := by
      by_contra hk
      have : iv = ⟨0, 0⟩ := by
        simp only [iv, List.getD_eq_getElem?_getD, List.getElem?_eq_none (Nat.le_of_not_lt hk),
          Option.getD_none]
      simp [this, UseInterval.contains] at hc
    have hiv : iv.stop ≤ bound := h iv (by simp [iv, List.getD_eq_getElem?_getD, hk])
    have hlt : pos < iv.stop := by
      simp only [UseInterval.contains, Bool.and_eq_true, decide_eq_true_eq] at hc
      exact hc.2.2
    intro x hx
    simp only [List.mem_append, List.mem_cons, List.not_mem_nil, or_false] at hx
    rcases hx with (hx | rfl) | rfl | hx
    · exact h x (List.mem_of_mem_take hx)
    · exact hlt.le.trans hiv
    · exact hiv
    · exact h x (List.mem_of_mem_drop hx)
  · intro x hx
    rcases List.mem_append.1 hx with hx | hx
    · exact h x (List.mem_of_mem_take hx)
    · exact h x (List.mem_of_mem_drop hx)

theorem splitClosed_bounded : SplitClosed LiveRange.Bounded where
  of_shape e h iv hiv := h iv (by simp only [LiveRange.shape, Prod.mk.injEq] at e; exact e.2.1 ▸ hiv)
  split pos n h := ⟨fun iv hiv => splitParts_stop_le h pos n iv (List.mem_append_left _ hiv),
    fun iv hiv => splitParts_stop_le h pos n iv (List.mem_append_right _ hiv)⟩

variable {c} in
theorem Steady.bounded {s s' : AllocState} (h : Steady c s s') :
    IntervalsBounded s → IntervalsBounded s' :=
  h.shapes _ splitClosed_bounded

/-- A range outside a machine register is converted. -/
theorem converted_of_not_machine {s : AllocState} {j : Nat}
    (h : (s.ranges j).assigned.isMachineRegister = false) : Converted c s j :=
  fun _ hm => absurd (h.symm.trans hm) Bool.false_ne_true

/-- A range that keeps its value, register and representation, and no new
safepoint, stays converted while recorded live registers are kept. -/
theorem Converted.of_sub {s s' : AllocState} {j j' : Nat} (h : Converted c s j)
    (hv : (s'.ranges j').vreg = (s.ranges j).vreg)
    (ha : (s'.ranges j').assigned = (s.ranges j).assigned)
    (hr : (s'.ranges j').representation = (s.ranges j).representation)
    (hsp : ∀ sp ∈ (s'.ranges j').safepoints, sp ∈ (s.ranges j).safepoints)
    (hl : ∀ k x, x ∈ (s.locs k).liveRegisters → x ∈ (s'.locs k).liveRegisters) :
    Converted c s' j' := by
  intro hv' hm sp hsp' hslow
  rw [ha, hr]
  rw [hv] at hv'
  rw [ha] at hm
  exact hl _ _ (h hv' hm sp (hsp sp hsp') hslow)

/-- A range left as it was stays converted while recorded live registers are
kept. -/
theorem Converted.of_eq {s s' : AllocState} {j : Nat} (h : Converted c s j)
    (e : s'.ranges j = s.ranges j)
    (hl : ∀ k x, x ∈ (s.locs k).liveRegisters → x ∈ (s'.locs k).liveRegisters) :
    Converted c s' j :=
  h.of_sub c (by rw [e]) (by rw [e]) (by rw [e]) (fun _ hsp => by rwa [e] at hsp) hl

/-- What the invariants read of a range. -/
def LiveRange.regView (r : LiveRange) :
    Int × Location × Representation × List SafepointPosition × List UseInterval :=
  (r.vreg, r.assigned, r.representation, r.safepoints, r.intervals)

/-- Keeping what the invariants read of every range, every recorded live
register and the register lists is steady. -/
theorem steady_of_frame {s s' : AllocState}
    (hr : ∀ j, (s'.ranges j).regView = (s.ranges j).regView)
    (hl : ∀ k x, x ∈ (s.locs k).liveRegisters → x ∈ (s'.locs k).liveRegisters)
    (hregs : s'.registers = s.registers) : Steady c s s' := by
  have e : ∀ j, _ := fun j => by simpa only [LiveRange.regView, Prod.mk.injEq] using hr j
  refine ⟨fun j h => ?_, fun P hP hs j => hP.of_shape ?_ (hs j), hregs⟩
  · exact h.of_sub c (e j).1 (e j).2.1 (e j).2.2.1 (fun sp hsp => (e j).2.2.2.1 ▸ hsp) hl
  · simp only [LiveRange.shape, (e j).1, (e j).2.2.2.1, (e j).2.2.2.2]

/-! ## Operations that touch nothing `Converted` reads -/

theorem steady_setFinger (s : AllocState) (id : Nat) (f : Finger) :
    Steady c s (s.setRange id { s.ranges id with finger := f }) :=
  steady_of_frame c (fun j => by by_cases h : j = id <;> simp [h, LiveRange.regView])
    (fun _ _ h => h) rfl

theorem steady_allocateSpillSlotForRange (s : AllocState) (id : Nat) :
    Steady c s (allocateSpillSlotForRange c s id) :=
  steady_of_frame c (fun j => by
      by_cases h : j = id
      · subst h; rw [allocateSpillSlotForRange_self]; rfl
      · rw [allocateSpillSlotForRange_ranges_ne c s id h])
    (fun _ _ h => h) rfl

@[simp] theorem AllocState.setStackBit_liveRegisters (s : AllocState) (bit k j : Nat) :
    ((s.setStackBit bit k).locs j).liveRegisters = (s.locs j).liveRegisters := by
  by_cases h : j = k <;> simp [setStackBit, h]

/-- A projection that `setStackBit` keeps is kept by `MarkAsObjectAtSafepoints`. -/
theorem markAsObjectAtSafepoints_keep {γ : Type} (g : AllocState → γ)
    (hg : ∀ (t : AllocState) bit k, g (t.setStackBit bit k) = g t) (s : AllocState) (id : Nat) :
    g (markAsObjectAtSafepoints c s id) = g s :=
  foldl_keep g (fun _ _ => foldl_keep g (fun t (sp : SafepointPosition) => hg t _ sp.locs) _ _) _ _

theorem steady_markAsObjectAtSafepoints (s : AllocState) (id : Nat) :
    Steady c s (markAsObjectAtSafepoints c s id) :=
  steady_of_frame c (fun j => by rw [markAsObjectAtSafepoints_ranges])
    (fun k x h => by
      rwa [markAsObjectAtSafepoints_keep c (fun t => (t.locs k).liveRegisters)
        (fun t _ _ => t.setStackBit_liveRegisters _ _ k)])
    (markAsObjectAtSafepoints_keep c AllocState.registers (fun _ _ _ => rfl) s id)

theorem steady_addToUnallocated (s : AllocState) (id : Nat) :
    Steady c s (addToUnallocated s id) :=
  steady_of_frame c (fun j => by
      by_cases h : j = id <;> simp [addToUnallocated, h, LiveRange.regView])
    (fun _ _ h => h) rfl

/-! ## Conversion -/

/-- A projection that slot writes and live-register records keep is kept by
`ConvertAllUses`. -/
theorem convertAllUses_keep {γ : Type} (g : AllocState → γ)
    (hs : ∀ (t : AllocState) k l, g (t.setSlot k l) = g t)
    (hl : ∀ (t : AllocState) k x, g (t.addLiveRegister k x) = g t) (s : AllocState) (id : Nat) :
    g (convertAllUses c s id) = g s := by
  have huses : ∀ t (l : List UsePosition) loc, g (l.foldl (fun t u => t.setSlot u.slot loc) t) = g t :=
    fun t l loc => foldl_keep g (fun t u => hs t u.slot loc) l t
  simp only [convertAllUses]
  split_ifs
  · rfl
  · exact (foldl_keep g (fun t _ => by split_ifs; exacts [rfl, hl _ _ _]) _ _).trans (huses _ _ _)
  · exact huses _ _ _

/-- `ConvertAllUses` only adds live registers. -/
theorem convertAllUses_liveRegisters_mono (s : AllocState) (id k : Nat)
    {x : Location × Representation} (h : x ∈ (s.locs k).liveRegisters) :
    x ∈ ((convertAllUses c s id).locs k).liveRegisters := by
  simp only [convertAllUses]
  split_ifs
  · exact h
  · exact List.foldlRecOn (motive := fun t : AllocState => x ∈ (t.locs k).liveRegisters) _ _ _
      (by beta_reduce; rwa [foldl_setSlot_locs])
      (fun t ht sp _ => by dsimp only; split_ifs; exacts [ht, t.addLiveRegister_mono ht])
  · rwa [foldl_setSlot_locs]

theorem convertAllUses_ranges (s : AllocState) (id : Nat) :
    (convertAllUses c s id).ranges = s.ranges :=
  convertAllUses_keep c AllocState.ranges (fun _ _ _ => rfl) (fun _ _ _ => rfl) s id

/-- `ConvertAllUses` converts its range. -/
theorem converted_convertAllUses (s : AllocState) (id : Nat) :
    Converted c (convertAllUses c s id) id := by
  intro hv hm sp hsp hslow
  rw [convertAllUses_ranges] at hv hm hsp ⊢
  exact convertAllUses_liveRegisters c s id hv hm hsp hslow

theorem steady_convertAllUses (s : AllocState) (id : Nat) :
    Steady c s (convertAllUses c s id) :=
  steady_of_frame c (fun j => by rw [convertAllUses_ranges])
    (fun _ _ h => convertAllUses_liveRegisters_mono c s id _ h)
    (convertAllUses_keep c AllocState.registers (fun _ _ _ => rfl) (fun _ _ _ => rfl) s id)

/-- Whatever a range is changed to, converting it afterwards is steady, as long
as its shape stays. -/
theorem steady_convertAllUses_setRange (s : AllocState) (id : Nat) (r : LiveRange)
    (hr : r.shape = (s.ranges id).shape) :
    Steady c s (convertAllUses c (s.setRange id r) id) := by
  refine ⟨fun j h => ?_, fun P hP hs j => ?_, (steady_convertAllUses c _ id).registers⟩
  rotate_left
  · rw [convertAllUses_ranges, setRange_ranges]
    split_ifs with hj
    · exact hP.of_shape hr (hs id)
    · exact hs j
  by_cases hj : j = id
  · subst hj
    exact converted_convertAllUses c _ j
  · refine (steady_convertAllUses c _ id).keeps j (h.of_sub c ?_ ?_ ?_ ?_ fun _ _ h => h) <;>
      simp [hj]

/-! ## Splits and spills -/

/-- A split keeps every conversion: the head keeps its register and part of
its safepoints, and the tail has no location yet. It puts the two pieces where
the range was, so it keeps every split-closed property. -/
theorem steady_splitAt (s : AllocState) (id pos : Nat) : Steady c s (splitAt s id pos).1 := by
  unfold splitAt
  dsimp only
  split_ifs
  · exact Steady.refl c s
  refine ⟨fun j h => ?_, fun P hP hs j => ?_, rfl⟩
  · by_cases hf : j = s.fresh
    · exact converted_of_not_machine c (by simp [hf]; rfl)
    by_cases hi : j = id
    · subst hi
      have hhead : ∀ sp ∈ ((s.ranges j).splitParts pos s.fresh).1.safepoints,
          sp ∈ (s.ranges j).safepoints := fun sp hsp =>
        splitParts_safepoints (s.ranges j) pos s.fresh ▸ List.mem_append_left _ hsp
      exact h.of_sub c (by simp only [setRange_ranges, hf, if_false, if_true]; rfl)
        (by simp only [setRange_ranges, hf, if_false, if_true]; rfl)
        (by simp only [setRange_ranges, hf, if_false, if_true]; rfl)
        (fun sp hsp => hhead sp (by simpa [hf] using hsp)) (fun _ _ h => h)
    · exact h.of_sub c (by simp [hf, hi]) (by simp [hf, hi]) (by simp [hf, hi])
        (fun sp hsp => by simpa [hf, hi] using hsp) (fun _ _ h => h)
  · have hpieces := hP.split pos s.fresh (hs id)
    simp only [setRange_ranges]
    split_ifs
    · exact hpieces.2
    · exact hpieces.1
    · exact hs j

theorem steady_splitBetween (s : AllocState) (id fromPos toPos : Nat) :
    Steady c s (splitBetween c s id fromPos toPos).1 :=
  steady_splitAt c s id _

/-- `Spill` converts the range it moves to the stack and keeps every other
conversion. -/
theorem steady_spill (s : AllocState) (id : Nat) : Steady c s (spill c s id) := by
  simp only [spill]
  refine (Steady.trans c ?_ (steady_convertAllUses_setRange c _ id _ rfl))
  split_ifs
  · exact (steady_allocateSpillSlotForRange c s _).trans c (steady_markAsObjectAtSafepoints c _ _)
  · exact steady_allocateSpillSlotForRange c s _
  · exact Steady.refl c s

theorem steady_spillBetween (s : AllocState) (id fromPos toPos : Nat) :
    Steady c s (spillBetween c s id fromPos toPos) := by
  unfold spillBetween
  rcases h₁ : splitAt s id fromPos with ⟨s₁, tail⟩
  have k₁ := steady_splitAt c s id fromPos
  rw [h₁] at k₁
  dsimp only
  split_ifs
  · rcases h₂ : splitBetween c s₁ tail (s₁.ranges tail).start toPos with ⟨s₂, tailTail⟩
    have k₂ := steady_splitBetween c s₁ tail (s₁.ranges tail).start toPos
    rw [h₂] at k₂
    exact k₁.trans c (k₂.trans c ((steady_spill c s₂ tail).trans c (steady_addToUnallocated c _ _)))
  · exact k₁.trans c (steady_addToUnallocated c s₁ tail)

theorem steady_spillAfter (s : AllocState) (id fromPos : Nat) :
    Steady c s (spillAfter c s id fromPos) := by
  have key : ∀ p, Steady c s (match splitAt s id p with | (s, tail) => spill c s tail) := by
    intro p
    rcases h₁ : splitAt s id p with ⟨s₁, tail⟩
    have k₁ := steady_splitAt c s id p
    rw [h₁] at k₁
    exact k₁.trans c (steady_spill c s₁ tail)
  exact key _

/-! ## The scans and the eviction -/

/-- `UpdateFreeUntil` for one occupant moves at most its finger. -/
theorem steady_updateFreeUntilStep (s : AllocState) (start : Nat) (unIvs : List UseInterval)
    (a fu ba : Nat) : Steady c s (updateFreeUntilStep s start unIvs a fu ba).1 := by
  unfold updateFreeUntilStep
  dsimp only
  split
  · exact Steady.refl c s
  · split_ifs
    · exact Steady.refl c s
    · split <;> first | exact steady_setFinger c s a _ | (split_ifs <;> exact steady_setFinger c s a _)
    all_goals exact Steady.refl c s

theorem steady_updateFreeUntil_go (curFree start : Nat) (unIvs : List UseInterval) (as : List Nat)
    (s : AllocState) (fu ba : Nat) :
    Steady c s (updateFreeUntil.go curFree start unIvs as s fu ba).1 := by
  induction as generalizing s fu ba with
  | nil => exact Steady.refl c s
  | cons a as ih =>
    unfold updateFreeUntil.go
    have k := steady_updateFreeUntilStep c s start unIvs a fu ba
    rcases h : updateFreeUntilStep s start unIvs a fu ba with ⟨t, _ | ⟨fu', ba'⟩⟩
    all_goals rw [h] at k; dsimp only
    · exact k
    · split_ifs
      · exact k
      · exact k.trans c (ih t fu' ba')

theorem steady_updateFreeUntil (s : AllocState) (reg id curFree : Nat) :
    Steady c s (updateFreeUntil s reg id curFree).1 :=
  steady_updateFreeUntil_go c _ _ _ _ s _ _

theorem steady_anyRegisterScan (s : AllocState) (id : Nat) (regs : List Nat)
    (acc : Option Nat × Nat × Nat) : Steady c s (anyRegisterScan c s id regs acc).1 := by
  induction regs generalizing s acc with
  | nil => exact Steady.refl c s
  | cons reg regs ih =>
    obtain ⟨cand, fu, ba⟩ := acc
    unfold anyRegisterScan
    split_ifs
    · exact ih s _
    · have k := steady_updateFreeUntil c s reg id fu
      rcases h : updateFreeUntil s reg id fu with ⟨t, _ | ⟨fu', ba'⟩⟩
      all_goals rw [h] at k; dsimp only
      · exact k.trans c (ih t _)
      · exact k.trans c (ih t _)

/-- `EvictIntersection` splits and spills the occupant and moves its finger. -/
theorem steady_evictIntersection (s : AllocState) (a id : Nat) :
    Steady c s (evictIntersection c s a id).1 := by
  unfold evictIntersection
  dsimp only
  split_ifs
  · exact Steady.refl c s
  all_goals
    split
    · exact (steady_setFinger c s a _).trans c (steady_spillAfter c _ a _)
    · exact (steady_setFinger c s a _).trans c (steady_spillBetween c _ a _ _)

/-! ## The register lists -/

/-- What one visit of `walkOccupants` may do: a steady step that keeps the
entry, or clears it once the occupant is converted. -/
def VisitOk (occs : List Nat)
    (visit : AllocState × List (Option Nat) → Nat → AllocState × List (Option Nat)) : Prop :=
  ∀ t kept i, Steady c t (visit (t, kept) i).1 ∧
    ((visit (t, kept) i).2 = kept ∨
      (visit (t, kept) i).2 = kept.set i none ∧ Converted c (visit (t, kept) i).1 (occs.getD i 0))

/-- The state of the walk: steady since the start, and each entry the occupant
or cleared with the occupant converted. -/
structure WalkInv (s : AllocState) (occs : List Nat) (acc : AllocState × List (Option Nat)) :
    Prop where
  steady : Steady c s acc.1
  length : acc.2.length = occs.length
  entries : ∀ (k j : Nat), occs[k]? = some j →
    acc.2[k]? = some (some j) ∨ (acc.2[k]? = some none ∧ Converted c acc.1 j)

theorem walkInv_start (s : AllocState) (occs : List Nat) :
    WalkInv c s occs (s, occs.map some) :=
  ⟨Steady.refl c s, List.length_map _ _, fun k j h => Or.inl (by simp [h])⟩

theorem walkInv_visit {s : AllocState} {occs : List Nat} {visit}
    (hv : VisitOk c occs visit) {acc : AllocState × List (Option Nat)} (h : WalkInv c s occs acc)
    (i : Nat) : WalkInv c s occs (visit acc i) := by
  obtain ⟨t, kept⟩ := acc
  obtain ⟨hs, hlen, hk⟩ := h
  obtain ⟨hstep, hkept | ⟨hset, hconv⟩⟩ := hv t kept i
  · refine ⟨hs.trans c hstep, by rw [hkept]; exact hlen, fun k j hj => ?_⟩
    rw [hkept]
    exact (hk k j hj).imp_right fun h => ⟨h.1, hstep.keeps j h.2⟩
  · refine ⟨hs.trans c hstep, by rw [hset, List.length_set, hlen], fun k j hj => ?_⟩
    rw [hset]
    by_cases hik : i = k
    · subst hik
      have hi : i < kept.length := hlen ▸ (List.getElem?_eq_some_iff.1 hj).1
      have hget : occs.getD i 0 = j := by simp [List.getD_eq_getElem?_getD, hj]
      exact Or.inr ⟨by simp [hi], hget ▸ hconv⟩
    · rw [List.getElem?_set_ne hik]
      exact (hk k j hj).imp_right fun h => ⟨h.1, hstep.keeps j h.2⟩

/-- After a walk whose visits are all allowed, every occupant it dropped is
converted. -/
theorem walkOccupants_spec (occs : List Nat) {visit} (hv : VisitOk c occs visit) (s : AllocState) :
    Steady c s (walkOccupants occs visit s).1 ∧
      ∀ j ∈ occs, j ∉ (walkOccupants occs visit s).2.filterMap (fun x => x) →
        Converted c (walkOccupants occs visit s).1 j := by
  have hw : WalkInv c s occs (walkOccupants occs visit s) :=
    List.foldlRecOn (motive := WalkInv c s occs) _ _ _ (walkInv_start c s occs)
      (fun acc h i _ => walkInv_visit c hv h i)
  refine ⟨hw.steady, fun j hj hdrop => ?_⟩
  obtain ⟨k, hk⟩ := List.mem_iff_getElem?.1 hj
  rcases hw.entries k j hk with hsome | ⟨_, hconv⟩
  · exact (hdrop (List.mem_filterMap.2 ⟨some j, List.mem_iff_getElem?.2 ⟨k, hsome⟩, rfl⟩)).elim
  · exact hconv

theorem visitOk_advanceOccupant (start : Nat) (occs : List Nat) :
    VisitOk c occs (advanceOccupant c start occs) := by
  intro t kept i
  unfold advanceOccupant
  dsimp only
  split_ifs
  · exact ⟨(steady_setFinger c t _ _).trans c (steady_convertAllUses c _ _),
      Or.inr ⟨rfl, converted_convertAllUses c _ _⟩⟩
  · exact ⟨steady_setFinger c t _ _, Or.inl rfl⟩

theorem visitOk_evictOccupant (id : Nat) (occs : List Nat) :
    VisitOk c occs (evictOccupant c id occs) := by
  intro t kept i
  unfold evictOccupant
  dsimp only
  have k := steady_evictIntersection c t (occs.getD i 0) id
  split_ifs with _ _ hm
  · exact ⟨Steady.refl c t, Or.inl rfl⟩
  · exact ⟨k.trans c (steady_convertAllUses c _ _), Or.inr ⟨rfl, converted_convertAllUses c _ _⟩⟩
  · exact ⟨k, Or.inr ⟨rfl, converted_of_not_machine c (by simpa using hm)⟩⟩
  · exact ⟨k, Or.inl rfl⟩

theorem steady_splitAt_addToUnallocated (s : AllocState) (id pos : Nat) :
    Steady c s (addToUnallocated (splitAt s id pos).1 (splitAt s id pos).2) :=
  (steady_splitAt c s id pos).trans c (steady_addToUnallocated c _ _)


/-- The catch-entry fix-up only reserves a spill slot. -/
theorem steady_catchEntryFixup {s s' : AllocState} {pos vreg : Nat}
    (h : catchEntryFixup c s pos vreg = some s') : Steady c s s' := by
  unfold catchEntryFixup at h
  dsimp only at h
  cases hf : findCoverRange s (s.liveRanges vreg) pos with
  | none => rw [hf] at h; cases h
  | some cover =>
    rw [hf] at h
    dsimp only [bind, Option.bind, pure] at h
    split_ifs at h <;> cases h <;>
      first | exact Steady.refl c s | exact steady_allocateSpillSlotForRange c s _


/-- A monadic fold of steady steps is steady. -/
theorem steady_foldlM {α : Type} {f : AllocState → α → Option AllocState}
    (hf : ∀ s a s', f s a = some s' → Steady c s s') :
    ∀ (l : List α) (s s' : AllocState), l.foldlM f s = some s' → Steady c s s'
  | [], s, _, h => by cases h; exact Steady.refl c s
  | a :: l, s, s', h => by
    rw [List.foldlM_cons] at h
    obtain ⟨t, ht, h⟩ := Option.bind_eq_some.1 h
    exact (hf s a t ht).trans c (steady_foldlM hf l t s' h)


/-- `AllocateUnallocatedRanges` is the worklist loop, the final retirement and
a steady fix-up. -/
theorem allocateUnallocatedRanges_steps {fuel : Nat} {s s' : AllocState}
    (hs : allocateUnallocatedRanges c fuel s = some s') :
    ∃ t, allocationLoop c fuel s = some t ∧ Steady c (advanceActiveIntervals c t kMaxPosition) s' := by
  unfold allocateUnallocatedRanges at hs
  obtain ⟨t, ht, hs⟩ := Option.bind_eq_some.1 hs
  exact ⟨t, ht, steady_foldlM c (fun _ e _ he =>
    steady_foldlM c (fun _ _ _ => steady_catchEntryFixup c) e.liveIn _ _ he) _ _ _ hs⟩


/-! ## The final retirement -/

/-- `Advance` from index `k` finds no interval when none ends after `start`. -/
theorem advanceFrom_eq_none {ivs : List UseInterval} {start : Nat}
    (h : ∀ iv ∈ ivs, iv.stop ≤ start) : ∀ n k, ivs.length ≤ k + n → Finger.advanceFrom ivs start k n = none
  | 0, k, hk => by simp only [Finger.advanceFrom]; split_ifs <;> first | rfl | omega
  | n + 1, k, hk => by
    unfold Finger.advanceFrom
    split
    · rfl
    · next iv hiv =>
      rw [if_pos (h iv (List.get?_mem hiv))]
      exact advanceFrom_eq_none h n (k + 1) (by omega)

/-- `Advance(kMaxPosition)` retires a range whose intervals are bounded. -/
theorem advance_retires (f : Finger) {ivs : List UseInterval} (h : ∀ iv ∈ ivs, iv.stop ≤ kMaxPosition) :
    (f.advance ivs kMaxPosition).2 = true := by
  unfold Finger.advance
  split <;> simp [advanceFrom_eq_none h]

/-- A walk whose visits all clear their entry leaves nothing on the list. -/
theorem walkOccupants_clears (occs : List Nat) {visit} (I : AllocState → Prop)
    (hv : ∀ t kept i, I t → I (visit (t, kept) i).1 ∧ (visit (t, kept) i).2 = kept.set i none)
    (s : AllocState) (hs : I s) : (walkOccupants occs visit s).2.filterMap (fun x => x) = [] := by
  let J := fun acc : AllocState × List (Option Nat) => I acc.1 ∧ acc.2.length = occs.length
  have hJ : ∀ acc i, J acc → J (visit acc i) := fun ⟨t, kept⟩ i ⟨ht, hlen⟩ =>
    ⟨(hv t kept i ht).1, by rw [(hv t kept i ht).2, List.length_set, hlen]⟩
  have hcleared := foldl_inv J (fun i acc => ∀ x, acc.2[i]? ≠ some (some x)) hJ
    (fun ⟨t, kept⟩ i ⟨ht, _⟩ x => by
      rw [(hv t kept i ht).2, List.getElem?_set, if_pos rfl]
      split_ifs <;> simp)
    (fun ⟨t, kept⟩ i i' ⟨ht, _⟩ hq x => by
      rw [(hv t kept i ht).2, List.getElem?_set]
      split_ifs <;> simp [hq x])
    (List.range occs.length).reverse (s, occs.map some) ⟨hs, List.length_map _ _⟩
  have hlen := (List.foldlRecOn (motive := J) _ _ _ ⟨hs, List.length_map _ _⟩
    (fun acc h i _ => hJ acc i h) : J (walkOccupants occs visit s)).2
  refine List.eq_nil_iff_forall_not_mem.2 fun x hx => ?_
  obtain ⟨a, ha, rfl⟩ := List.mem_filterMap.1 hx
  obtain ⟨k, hk⟩ := List.mem_iff_getElem?.1 ha
  have hk' : k < occs.length := hlen ▸ (List.getElem?_eq_some_iff.1 hk).1
  exact hcleared k (by simpa using hk') x hk

/-- `AdvanceActiveIntervals(kMaxPosition)` empties the register it visits. -/
theorem advanceRegister_max_registers {s : AllocState} (hb : IntervalsBounded s) (reg : Nat) :
    (advanceRegister c s kMaxPosition reg).registers reg = [] := by
  unfold advanceRegister removeEvicted
  dsimp only
  rw [if_pos rfl]
  refine walkOccupants_clears (s.registers reg) IntervalsBounded (fun t kept i ht => ?_) s hb
  refine ⟨(visitOk_advanceOccupant c kMaxPosition _ t kept i).1.bounded ht, ?_⟩
  unfold advanceOccupant
  dsimp only
  rw [if_pos (advance_retires _ (ht _))]

theorem advanceRegister_bounded {s : AllocState} (hb : IntervalsBounded s) (start reg : Nat) :
    IntervalsBounded (advanceRegister c s start reg) :=
  (walkOccupants_spec c _ (visitOk_advanceOccupant c start (s.registers reg)) s).1.bounded hb

theorem advanceRegister_registers_ne {s : AllocState} {start reg r : Nat} (h : r ≠ reg) :
    (advanceRegister c s start reg).registers r = s.registers r := by
  unfold advanceRegister removeEvicted
  dsimp only
  rw [if_neg h, (walkOccupants_spec c _ (visitOk_advanceOccupant c start (s.registers reg)) s).1.registers]

/-- The scans visit every register of the class. -/
theorem mem_regOrder {reg : Nat} (h : reg < c.numberOfRegisters) : reg ∈ c.regOrder := by
  set n := c.numberOfRegisters
  have hn : 0 < n := by omega
  refine List.mem_map.2 ⟨(reg + (n - c.bias % n)) % n, List.mem_range.2 (Nat.mod_lt _ hn), ?_⟩
  have hsplit := Nat.mod_add_div c.bias n
  have hlt := Nat.mod_lt c.bias hn
  calc ((reg + (n - c.bias % n)) % n + c.bias) % n
      = (reg + (n - c.bias % n) + c.bias) % n := Nat.mod_add_mod _ _ _
    _ = (reg + n * (1 + c.bias / n)) % n := by
        congr 1
        rw [Nat.mul_add, Nat.mul_one]
        generalize c.bias % n = r at hsplit hlt ⊢
        generalize n * (c.bias / n) = m at hsplit ⊢
        omega
    _ = reg := by rw [Nat.add_mul_mod_self_left, Nat.mod_eq_of_lt h]

/-- After the final `AdvanceActiveIntervals(kMaxPosition)`, every register of
the class has an empty list. -/
theorem advanceActiveIntervals_max_registers {s : AllocState} (hb : IntervalsBounded s) {reg : Nat}
    (h : reg < c.numberOfRegisters) : (advanceActiveIntervals c s kMaxPosition).registers reg = [] :=
  foldl_inv IntervalsBounded (fun reg t => t.registers reg = [])
    (fun t reg hb => advanceRegister_bounded c hb kMaxPosition reg)
    (fun t reg hb => advanceRegister_max_registers c hb reg)
    (fun t reg reg' hb hq => by
      by_cases e : reg' = reg
      · exact e ▸ advanceRegister_max_registers c hb reg
      · exact (advanceRegister_registers_ne c e).trans hq)
    c.regOrder s hb reg (mem_regOrder c h)

/-! ## The loop -/

/-- The invariant of the loop: the live registers, and a property `P` of every
range. -/
structure LoopInv (P : LiveRange → Prop) (s : AllocState) : Prop where
  liveRegs : LiveRegsInv c s
  shapes : AllRanges P s

section Loop
variable {P : LiveRange → Prop} (hP : SplitClosed P)
include hP

theorem LoopInv.of_steady {s s' : AllocState} (hi : LoopInv c P s) (h : Steady c s s') :
    LoopInv c P s' :=
  ⟨fun j hj => h.keeps j (hi.liveRegs j (h.registers ▸ hj)), h.shapes P hP hi.shapes⟩

/-- `assignRegister` changes only the range it puts on a register. -/
theorem loopInv_assignRegister {s : AllocState} (h : LoopInv c P s) (id reg : Nat) :
    LoopInv c P (assignRegister c s id reg) := by
  refine ⟨fun j hj => ?_, fun j => hP.of_shape ?_ (h.shapes j)⟩
  · have hji : j ≠ id := fun e => hj reg (by simp [assignRegister, e])
    have hjs : ∀ r, j ∉ s.registers r := fun r hr => hj r (by
      simp only [assignRegister]
      split_ifs <;> simp [hr])
    exact (h.liveRegs j hjs).of_eq c (by simp [assignRegister, hji]) (fun _ _ h => h)
  · by_cases hj : j = id <;> simp [assignRegister, hj, LiveRange.shape]

/-- `RemoveEvicted` after a walk from `s`: dropping from `reg`'s list only
converted ranges keeps the invariant. -/
theorem loopInv_removeEvicted {s t : AllocState} (h : LoopInv c P s) (reg : Nat)
    (kept : List (Option Nat)) (hst : Steady c s t)
    (hconv : ∀ j ∈ s.registers reg, j ∉ kept.filterMap (fun x => x) → Converted c t j) :
    LoopInv c P (removeEvicted t reg kept) := by
  refine ⟨fun j hj => ?_, hst.shapes P hP h.shapes⟩
  by_cases hin : j ∈ s.registers reg
  · exact hconv j hin (by simpa [removeEvicted] using hj reg)
  · refine hst.keeps j (h.liveRegs j fun r hr => ?_)
    by_cases e : r = reg
    · exact hin (e ▸ hr)
    · exact hj r (by simpa [removeEvicted, e, hst.registers] using hr)

/-- `AdvanceActiveIntervals` on one register keeps the invariant: the ranges it
retires are converted first. -/
theorem loopInv_advanceRegister {s : AllocState} (h : LoopInv c P s) (start reg : Nat) :
    LoopInv c P (advanceRegister c s start reg) :=
  have hw := walkOccupants_spec c _ (visitOk_advanceOccupant c start (s.registers reg)) s
  loopInv_removeEvicted c hP h reg _ hw.1 hw.2

theorem loopInv_advanceActiveIntervals {s : AllocState} (h : LoopInv c P s) (start : Nat) :
    LoopInv c P (advanceActiveIntervals c s start) :=
  List.foldlRecOn (motive := LoopInv c P) _ _ _ h
    (fun _ ht reg _ => loopInv_advanceRegister c hP ht start reg)

/-- `AssignNonFreeRegister` keeps the invariant: every occupant it evicts is
converted or no longer in a register, and the range it places is on the list. -/
theorem loopInv_assignNonFreeRegister {s : AllocState} (h : LoopInv c P s) (id reg : Nat) :
    LoopInv c P (assignNonFreeRegister c s id reg) :=
  have hw := walkOccupants_spec c _ (visitOk_evictOccupant c id (s.registers reg)) s
  loopInv_assignRegister c hP (loopInv_removeEvicted c hP h reg _ hw.1 hw.2) id reg


theorem loopInv_allocateFreeRegister {s s' : AllocState} (h : LoopInv c P s) {id : Nat}
    (hs : allocateFreeRegister c s id = some s') : LoopInv c P s' := by
  unfold allocateFreeRegister at hs
  dsimp only at hs
  -- the first candidate either is free forever or goes through the scan;
  -- then the range is placed whole, or split and placed or spilled
  split_ifs at hs <;> cases hs <;> first
    | exact loopInv_assignRegister c hP h _ _
    | exact h.of_steady c hP ((steady_splitAt_addToUnallocated c s id _).trans c (steady_spill c _ _))
    | exact loopInv_assignRegister c hP (h.of_steady c hP (steady_splitAt_addToUnallocated c s id _)) _ _

theorem loopInv_allocateAnyRegister {s : AllocState} (h : LoopInv c P s) (id : Nat) :
    LoopInv c P (allocateAnyRegister c s id) := by
  unfold allocateAnyRegister
  dsimp only
  have k₁ := steady_setFinger c s id
    ((s.ranges id).finger.firstRegisterUse (s.ranges id).uses s.slots (s.ranges id).start).1
  have k₂ := k₁.trans c (steady_anyRegisterScan c _ id c.regOrder (none, 0, kMaxPosition))
  split_ifs
  · exact h.of_steady c hP (k₁.trans c (steady_spill c _ id))
  · exact h.of_steady c hP (k₂.trans c (steady_spillBetween c _ id _ _))
  · exact loopInv_assignNonFreeRegister c hP
      (h.of_steady c hP (k₂.trans c ((steady_splitBetween c _ id _ _).trans c
        (steady_addToUnallocated c _ _)))) id _
  · exact loopInv_assignNonFreeRegister c hP (h.of_steady c hP k₂) id _

/-- One iteration of the worklist loop keeps the invariant. -/
theorem loopInv_allocateStep {s s' : AllocState} (h : LoopInv c P s) {id : Nat}
    (hs : allocateStep c s id = some s') : LoopInv c P s' := by
  have h₁ := loopInv_advanceActiveIntervals c hP h (s.ranges id).start
  unfold allocateStep at hs
  dsimp only at hs
  split at hs
  · next t hfree => exact Option.some.inj hs ▸ loopInv_allocateFreeRegister c hP h₁ hfree
  · split_ifs at hs
    exact Option.some.inj hs ▸ loopInv_allocateAnyRegister c hP h₁ id

/-- Every run of the worklist loop keeps the invariant. -/
theorem loopInv_allocationLoop (fuel : Nat) {s s' : AllocState} (h : LoopInv c P s)
    (hs : allocationLoop c fuel s = some s') : LoopInv c P s' := by
  induction fuel generalizing s with
  | zero =>
    unfold allocationLoop at hs
    split_ifs at hs
    exact Option.some.inj hs ▸ h
  | succ n ih =>
    unfold allocationLoop at hs
    split at hs
    · exact Option.some.inj hs ▸ h
    · split at hs
      · next t hstep =>
        have h' : LoopInv c P { s with unallocated := s.unallocated.dropLast } :=
          ⟨h.liveRegs, h.shapes⟩
        exact ih (loopInv_allocateStep c hP h' hstep) hs
      · cases hs

/-- `AllocateUnallocatedRanges` keeps the invariant over the whole pass. -/
theorem loopInv_allocateUnallocatedRanges (fuel : Nat) {s s' : AllocState} (h : LoopInv c P s)
    (hs : allocateUnallocatedRanges c fuel s = some s') : LoopInv c P s' := by
  obtain ⟨t, ht, hfix⟩ := allocateUnallocatedRanges_steps c hs
  exact (loopInv_advanceActiveIntervals c hP (loopInv_allocationLoop c hP fuel h ht) kMaxPosition).of_steady c hP hfix

/-- After `AllocateUnallocatedRanges` from a state where the invariant holds
and every interval ends by `kMaxPosition`, every range records its register at
every slow-path safepoint on its list. The only exception is a range on a
register beyond the register file, which the code's `registers_` array does not
have. -/
theorem allocateUnallocatedRanges_converted (hPb : ∀ r, P r → r.Bounded) (fuel : Nat)
    {s s' : AllocState} (h : LoopInv c P s)
    (hs : allocateUnallocatedRanges c fuel s = some s') (j : Nat)
    (hj : ∀ reg, c.numberOfRegisters ≤ reg → j ∉ s'.registers reg) : Converted c s' j := by
  obtain ⟨t, ht, hfix⟩ := allocateUnallocatedRanges_steps c hs
  have ht' := loopInv_allocationLoop c hP fuel h ht
  have hu := loopInv_advanceActiveIntervals c hP ht' kMaxPosition
  refine (hu.of_steady c hP hfix).liveRegs j fun reg hr => ?_
  by_cases hreg : reg < c.numberOfRegisters
  · rw [hfix.registers, advanceActiveIntervals_max_registers c (fun j => hPb _ (ht'.shapes j)) hreg] at hr
    exact List.not_mem_nil j hr
  · exact hj reg (by omega) hr

end Loop

end Conversion

end LinearScan
