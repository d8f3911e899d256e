import LinearScan.Evict

/-!
# `AllocateAnyRegister` keeps the occupancy invariant

When no register is free at the range's start, `AllocateAnyRegister` scans
every register with `UpdateFreeUntil` and takes the one free longest, evicting
its occupants. The scan only moves fingers (`FingersMoved`); what it learns
of the register it picks (`FreeFacts`) is what the eviction walk needs
(`EvictOk`): the occupants live at the range's start may be spilled and have
no register use in the current instruction, and `blocked_at` is at most every
position the range shares with the register's blocking range. The range is cut
before `blocked_at` when it reaches it; the parity of positions (blocks, loop
headers and register uses at instruction starts only open ranges) puts that
cut strictly inside the range (`splitBetweenPos_blocked`).

The scan reads the occupants' pending intervals, which are exact only right
after `AdvanceActiveIntervals`: `Live` says so, and is a hypothesis here.
-/

namespace LinearScan

open AllocState Finger

@[simp] theorem AllocState.setRange_ranges_self (s : AllocState) (id : Nat) (r : LiveRange) :
    (s.setRange id r).ranges id = r := by simp

theorem AllocState.setRange_ranges_ne (s : AllocState) {id j : Nat} (r : LiveRange) (h : j ≠ id) :
    (s.setRange id r).ranges j = s.ranges j := by simp [h]

/-! ## Moving fingers -/

section Fingers
variable {c : AllocCtx} {pos : Nat}

/-- `s'` is `s` with fingers moved and nothing else changed. -/
structure FingersMoved (s s' : AllocState) : Prop where
  ranges : ∀ j, s'.ranges j = { s.ranges j with finger := (s'.ranges j).finger }
  slots : s'.slots = s.slots
  fresh : s'.fresh = s.fresh
  unallocated : s'.unallocated = s.unallocated
  registers : s'.registers = s.registers

namespace FingersMoved
variable {s s' s'' : AllocState}

theorem refl (s : AllocState) : FingersMoved s s := ⟨fun _ => rfl, rfl, rfl, rfl, rfl⟩

theorem trans (h₁ : FingersMoved s s') (h₂ : FingersMoved s' s'') : FingersMoved s s'' :=
  ⟨fun j => by rw [h₂.ranges j, h₁.ranges j], h₂.slots.trans h₁.slots, h₂.fresh.trans h₁.fresh,
    h₂.unallocated.trans h₁.unallocated, h₂.registers.trans h₁.registers⟩

/-- Moving one finger. -/
theorem setFinger (s : AllocState) (a : Nat) (f : Finger) :
    FingersMoved s (s.setRange a { s.ranges a with finger := f }) := by
  refine ⟨fun j => ?_, rfl, rfl, rfl, rfl⟩
  by_cases e : j = a
  · subst e; simp
  · simp [e]

variable (h : FingersMoved s s') (j : Nat)
include h

theorem intervals : (s'.ranges j).intervals = (s.ranges j).intervals := by rw [h.ranges j]
theorem uses : (s'.ranges j).uses = (s.ranges j).uses := by rw [h.ranges j]
theorem vreg : (s'.ranges j).vreg = (s.ranges j).vreg := by rw [h.ranges j]
theorem assigned : (s'.ranges j).assigned = (s.ranges j).assigned := by rw [h.ranges j]
theorem isLoopPhi : (s'.ranges j).isLoopPhi = (s.ranges j).isLoopPhi := by rw [h.ranges j]
theorem start : (s'.ranges j).start = (s.ranges j).start := by rw [h.ranges j]; rfl
theorem stop : (s'.ranges j).stop = (s.ranges j).stop := by rw [h.ranges j]; rfl

theorem holds {reg : Nat} : Holds c (s'.ranges j) reg ↔ Holds c (s.ranges j) reg := by
  rw [Holds, Holds, h.assigned]

theorem rangeOk (hr : RangeOk c s.slots (s.ranges j)) : RangeOk c s'.slots (s'.ranges j) := by
  rw [h.ranges j, h.slots]
  exact ⟨hr.ascending, hr.bounded, hr.usesSorted, hr.safepointsSorted, hr.usesCovered, hr.evenUse,
    hr.oddUse, hr.loopPhi, hr.temp, hr.blocking, hr.spillSlot, hr.assigned⟩

/-- A range whose finger stayed is unchanged. -/
theorem eq_of_finger (hf : (s'.ranges j).finger = (s.ranges j).finger) : s'.ranges j = s.ranges j := by
  rw [h.ranges j, hf]

end FingersMoved

variable {s s' : AllocState}

theorem Occupant.moved {reg a : Nat} (o : Occupant c pos s reg a) (hm : FingersMoved s s')
    (hf : (s'.ranges a).finger = (s.ranges a).finger) : Occupant c pos s' reg a :=
  o.sameBut (by rw [hm.eq_of_finger a hf]; exact SameBut.refl _) (by rw [hm.slots]; exact SlotsMono.refl _)

theorem Ready.moved {R : Nat} (hR : Ready c pos s R) (hm : FingersMoved s s')
    (hf : (s'.ranges R).finger = (s.ranges R).finger) : Ready c pos s' R := by
  have e := hm.eq_of_finger R hf
  exact ⟨hm.fresh ▸ hR.fresh, hm.unallocated ▸ hR.notQueued, by rw [e]; exact hR.free,
    by rw [e]; exact hR.start, by rw [e]; exact hR.nonempty, by rw [e]; exact hR.vreg,
    by rw [e]; exact hR.pending, by rw [e, hm.slots]; exact hR.cache⟩

/-- Moving fingers of ranges off the worklist keeps the invariant, once the
occupants' fingers are valid. -/
theorem RegInv.fingers (h : RegInv c pos s) (hm : FingersMoved s s')
    (hq : ∀ j ∈ s.unallocated, (s'.ranges j).finger = (s.ranges j).finger)
    (hocc : ∀ reg, ∀ a ∈ s.registers reg, Occupant c pos s' reg a) : RegInv c pos s' := by
  refine ⟨fun j => hm.rangeOk j (h.ranges j), fun j hj reg => ?_, ?_, ?_, fun j hj => ?_,
    fun reg hreg => ?_, fun reg => ?_, fun reg a ha b hb hva hvb => ?_, fun reg a ha => ?_,
    fun j reg hj hn q hq => ?_, fun reg j k hjk hj hk q hq => ?_⟩
  · rw [hm.holds]; exact h.junk j (hm.fresh ▸ hj) reg
  · rw [hm.unallocated]
    exact h.sorted.imp fun {a b} hab => by rw [hm.start a, hm.start b]; exact hab
  · rw [hm.unallocated]; exact h.nodup
  · rw [hm.unallocated] at hj
    exact (h.queued j hj).sameBut (by rw [hm.eq_of_finger j (hq j hj)]; exact SameBut.refl _)
      hm.fresh.ge
  · rw [hm.registers]; exact h.outside reg hreg
  · rw [hm.registers]; exact h.regsNodup reg
  · rw [hm.registers] at ha hb
    rw [hm.vreg] at hva hvb
    exact h.oneBlocking reg a ha b hb hva hvb
  · rw [hm.registers] at ha; exact hocc reg a ha
  · rw [hm.holds] at hj
    rw [hm.registers] at hn
    rw [hm.intervals] at hq
    exact h.retired j reg hj hn q hq
  · rw [hm.holds] at hj hk
    rw [hm.intervals] at hq ⊢
    exact h.disjoint reg j k hjk hj hk q hq

/-- Every occupant's pending interval is the first that ends after `pos`:
what `AdvanceActiveIntervals(pos)` leaves. -/
def Live (pos : Nat) (s : AllocState) : Prop :=
  ∀ reg, ∀ a ∈ s.registers reg,
    (s.ranges a).finger.pending = freshPending (s.ranges a).intervals pos

variable (c) in
/-- What the scan of `AllocateAnyRegister` keeps, from the state `s₀` it
starts in: the invariant, the range in hand, live pending intervals, and
nothing changed but fingers. -/
structure ScanInv (pos : Nat) (s₀ : AllocState) (R : Nat) (s : AllocState) : Prop where
  inv : RegInv c pos s
  ready : Ready c pos s R
  live : Live pos s
  moved : FingersMoved s₀ s

/-- Moving the finger of an occupant to one whose pending interval and
register-use cache are valid from `pos` keeps the invariant. -/
theorem RegInv.setFinger (h : RegInv c pos s) {reg a : Nat} (ha : a ∈ s.registers reg) {f : Finger}
    (hp : PendingValid (s.ranges a).intervals f.pending pos)
    (hc : UseCacheValid (isRegisterUse s.slots) (s.ranges a).uses f.registerUse (interferingFrom pos)) :
    RegInv c pos (s.setRange a { s.ranges a with finger := f }) := by
  have hm := FingersMoved.setFinger s a f
  have haq : a ∉ s.unallocated := fun hq => (h.queued a hq).free reg (h.occupants reg a ha).holds
  have hother : ∀ j, j ≠ a → ((s.setRange a { s.ranges a with finger := f }).ranges j).finger =
      (s.ranges j).finger := fun j hj => by rw [setRange_ranges_ne _ _ hj]
  refine h.fingers hm (fun j hj => hother j fun e => haq (e ▸ hj)) fun r b hb => ?_
  by_cases e : b = a
  · subst e
    have ob := h.occupants r b hb
    exact ⟨by rw [setRange_ranges_self]; exact ob.holds, by rw [setRange_ranges_self]; exact hp,
      by rw [setRange_ranges_self, setRange_slots]; exact hc,
      by rw [setRange_ranges_self]; exact ob.started⟩
  · exact (h.occupants r b hb).moved hm (hother b e)

/-- Moving the finger of an occupant to one with the same pending interval
and a register-use cache valid for the current instruction keeps the scan's
invariant. -/
theorem ScanInv.setFinger {s₀ : AllocState} {R : Nat} (h : ScanInv c pos s₀ R s) {reg a : Nat}
    (ha : a ∈ s.registers reg) {f : Finger} (hp : f.pending = (s.ranges a).finger.pending)
    (hc : UseCacheValid (isRegisterUse s.slots) (s.ranges a).uses f.registerUse (interferingFrom pos)) :
    ScanInv c pos s₀ R (s.setRange a { s.ranges a with finger := f }) := by
  have hm := FingersMoved.setFinger s a f
  have haR : a ≠ R := fun e => h.ready.free reg (e ▸ (h.inv.occupants reg a ha).holds)
  refine ⟨h.inv.setFinger ha (hp ▸ (h.inv.occupants reg a ha).pending) hc,
    h.ready.moved hm (by rw [setRange_ranges_ne _ _ (Ne.symm haR)]), fun r b hb => ?_, h.moved.trans hm⟩
  rw [hm.registers] at hb
  rw [hm.intervals]
  by_cases e : b = a
  · subst e
    rw [setRange_ranges_self]; dsimp only; rw [hp]; exact h.live r b hb
  · rw [setRange_ranges_ne _ _ e]; exact h.live r b hb

/-- Moving the finger of the range in hand to one with the same pending
interval and a register-use cache valid from `pos` starts the scan, right
after an advance to `pos`. -/
theorem ScanInv.start {R : Nat} (h : RegInv c pos s) (hl : Live pos s) (hR : Ready c pos s R)
    {f : Finger} (hp : f.pending = (s.ranges R).finger.pending)
    (hc : UseCacheValid (isRegisterUse s.slots) (s.ranges R).uses f.registerUse pos) :
    ScanInv c pos (s.setRange R { s.ranges R with finger := f }) R
      (s.setRange R { s.ranges R with finger := f }) := by
  have hm := FingersMoved.setFinger s R f
  have hother : ∀ j, j ≠ R → ((s.setRange R { s.ranges R with finger := f }).ranges j).finger =
      (s.ranges j).finger := fun j hj => by rw [setRange_ranges_ne _ _ hj]
  have hnR : ∀ reg, ∀ a ∈ s.registers reg, a ≠ R := fun reg a ha e =>
    hR.free reg (e ▸ (h.occupants reg a ha).holds)
  have hRR := setRange_ranges_self s R { s.ranges R with finger := f }
  refine ⟨h.fingers hm (fun j hj => hother j fun e => hR.notQueued (e ▸ hj))
      fun reg a ha => (h.occupants reg a ha).moved hm (hother a (hnR reg a ha)),
    ⟨hR.fresh, hR.notQueued, fun reg => by rw [hRR]; exact hR.free reg, by rw [hRR]; exact hR.start,
      by rw [hRR]; exact hR.nonempty, by rw [hRR]; exact hR.vreg,
      by rw [hRR]; exact hp.trans hR.pending, by rw [hRR]; exact hc⟩,
    fun reg a ha => ?_, FingersMoved.refl _⟩
  rw [hm.registers] at ha
  rw [hm.intervals, setRange_ranges_ne _ _ (hnR reg a ha)]
  exact hl reg a ha

end Fingers

/-! ## Scans of uses and of pending intervals -/

theorem toInstructionStart_mono {a b : Nat} (h : a ≤ b) : toInstructionStart a ≤ toInstructionStart b := by
  unfold toInstructionStart; omega

section Scans
variable {test : UsePosition → Bool} {uses : List UsePosition} {after : Nat}

/-- A fresh use scan finds the first accepted use from the position on. -/
theorem freshUse_le (hs : uses.Pairwise fun a b => a.pos ≤ b.pos) {p : Nat × UsePosition}
    (h : freshUse test uses after = some p) {u : UsePosition} (hu : u ∈ uses) (ht : test u = true)
    (ha : after ≤ u.pos) : p.2.pos ≤ u.pos := by
  obtain ⟨-, as, bs, he, has⟩ := List.find?_eq_some.1 h
  obtain ⟨j, hj⟩ := List.mem_iff_getElem?.1 hu
  have hmem : (j, u) ∈ uses.enum := (List.mem_enum_iff_getElem? (x := (j, u))).2 hj
  have hsorted := enum_sorted hs
  rw [he] at hmem hsorted
  rcases List.mem_append.1 hmem with hin | hin
  · have := has _ hin
    simp [ht, ha] at this
  · rcases List.mem_cons.1 hin with e | hin
    · subst e; exact le_rfl
    · exact (List.pairwise_cons.1 (List.pairwise_append.1 hsorted).2.1).1 _ hin

/-- A fresh use scan that finds nothing leaves no accepted use from the
position on. -/
theorem freshUse_none (h : freshUse test uses after = none) {u : UsePosition} (hu : u ∈ uses)
    (ht : test u = true) (ha : after ≤ u.pos) : False := by
  obtain ⟨j, hj⟩ := List.mem_iff_getElem?.1 hu
  have := List.find?_eq_none.1 h _ ((List.mem_enum_iff_getElem? (x := (j, u))).2 hj)
  simp [ht, ha] at this

end Scans

/-- Right after an advance to `pos`, a range covers `pos` exactly when its
pending interval holds it. -/
theorem freshPending_cover {ivs : List UseInterval} (hasc : IntervalsAscending ivs) {pos k : Nat}
    (hk : freshPending ivs pos = some k) {head : UseInterval} {rest : List UseInterval}
    (hd : ivs.drop k = head :: rest) : intervalsCover ivs pos = head.contains pos := by
  have hv : PendingValid ivs (some k) pos := hk ▸ pendingValid_freshPending
  obtain ⟨hlt, hstop, -⟩ := List.findIdx?_eq_some_iff_getElem.1 hk
  have hd' := hd
  rw [List.drop_eq_getElem_cons hlt] at hd'
  injection hd' with e₁ e₂
  rw [e₁, decide_eq_true_eq] at hstop
  have hpair := hasc.2
  rw [← List.take_append_drop k ivs, hd] at hpair
  have hrest : ∀ iv ∈ rest, head.stop ≤ iv.start :=
    (List.pairwise_cons.1 (List.pairwise_append.1 hpair).2.1).1
  have h₁ : (ivs.take k).any (·.contains pos) = false := List.any_eq_false.2 fun iv hiv => by
    have := hv.2 iv hiv
    simp only [UseInterval.contains, Bool.and_eq_true, decide_eq_true_eq]
    omega
  have h₂ : rest.any (·.contains pos) = false := List.any_eq_false.2 fun iv hiv => by
    have := hrest iv hiv
    simp only [UseInterval.contains, Bool.and_eq_true, decide_eq_true_eq]
    omega
  rw [intervalsCover, ← List.take_append_drop k ivs, hd, List.any_append, List.any_cons, h₁, h₂,
    Bool.false_or, Bool.or_false]

/-- With no pending interval, a range covers only positions before `pos`. -/
theorem lt_of_pendingIntervals_nil {r : LiveRange} {pos q : Nat}
    (hv : PendingValid r.intervals r.finger.pending pos) (hp : r.pendingIntervals = [])
    (hq : intervalsCover r.intervals q = true) : q < pos := by
  unfold LiveRange.pendingIntervals at hp
  cases hk : r.finger.pending with
  | none => rw [hk] at hv; exact lt_of_intervalsCover hv hq
  | some k =>
    rw [hk] at hv hp
    exact absurd (List.drop_eq_nil_iff.1 hp) (by have := hv.1; omega)

theorem Live.cover_pos {pos : Nat} {s : AllocState} (hl : Live pos s) {reg a : Nat}
    (ha : a ∈ s.registers reg) (hasc : IntervalsAscending (s.ranges a).intervals)
    {head : UseInterval} {rest : List UseInterval} (hp : (s.ranges a).pendingIntervals = head :: rest) :
    intervalsCover (s.ranges a).intervals pos = head.contains pos := by
  unfold LiveRange.pendingIntervals at hp
  rw [hl reg a ha] at hp
  cases hk : freshPending (s.ranges a).intervals pos with
  | none => rw [hk] at hp; cases hp
  | some k => rw [hk] at hp; exact freshPending_cover hasc hk hp

/-! ## One occupant in `UpdateFreeUntil` -/

section Step
variable {c : AllocCtx} {pos : Nat}

/-- What `UpdateFreeUntil` may conclude from an occupant `a` when it moves
`free_until` from `fu` to `fu'` and `blocked_at` from `ba` to `ba'`, for the
range `R` at `pos`: if `a` is live at `pos`, it may be spilled and has no
register use in the current instruction; after a blocking `a`, `blocked_at` is
at most every position `a` shares with the range, and it only moves to such a
position; `free_until` only falls, and stays below a moved `blocked_at`. -/
structure StepFacts (pos : Nat) (s : AllocState) (R a fu ba fu' ba' : Nat) : Prop where
  live : intervalsCover (s.ranges a).intervals pos = true → 0 ≤ (s.ranges a).vreg ∧
    ∀ u ∈ (s.ranges a).uses, isRegisterUse s.slots u = true → interferingFrom pos ≤ u.pos →
      pos + 1 < toInstructionStart u.pos
  blocked : (s.ranges a).vreg = kNoVirtualRegister → ∀ q,
    intervalsCover (s.ranges R).intervals q = true → intervalsCover (s.ranges a).intervals q = true →
      ba' ≤ q
  hit : ba' ≠ ba → (s.ranges a).vreg = kNoVirtualRegister ∧
    intervalsCover (s.ranges a).intervals ba' = true ∧ intervalsCover (s.ranges R).intervals ba' = true
  free : fu' ≤ fu
  order : ba' = ba ∨ fu' ≤ ba'

theorem StepFacts.moved {s s' : AllocState} {R a fu ba fu' ba' : Nat} (hm : FingersMoved s s')
    (h : StepFacts pos s' R a fu ba fu' ba') : StepFacts pos s R a fu ba fu' ba' := by
  obtain ⟨hl, hb, hh, hf, ho⟩ := h
  simp only [hm.intervals, hm.uses, hm.vreg, hm.slots] at hl hb hh
  exact ⟨hl, hb, hh, hf, ho⟩

variable {s₀ s : AllocState} {R : Nat}

/-- One occupant of `UpdateFreeUntil`: it moves at most the occupant's finger,
and what it concludes when the register stays a candidate holds. -/
theorem updateFreeUntilStep_spec (h : ScanInv c pos s₀ R s) {reg a fu ba : Nat}
    (ha : a ∈ s.registers reg) :
    ScanInv c pos s₀ R (updateFreeUntilStep s pos (s.ranges R).intervals a fu ba).1 ∧
      ∀ fu' ba', (updateFreeUntilStep s pos (s.ranges R).intervals a fu ba).2 = some (fu', ba') →
        StepFacts pos s R a fu ba fu' ba' := by
  have o := h.inv.occupants reg a ha
  have hr := h.inv.ranges a
  have hRasc := (h.inv.ranges R).ascending
  have hRge : ∀ q, intervalsCover (s.ranges R).intervals q = true → pos ≤ q := fun q hq =>
    h.ready.start ▸ LiveRange.start_le_of_cover hRasc hq
  unfold updateFreeUntilStep
  dsimp only
  split
  · -- no pending interval: the occupant is over
    next hp =>
    refine ⟨h, fun fu' ba' he => ?_⟩
    cases he
    have hlt := fun {q} => lt_of_pendingIntervals_nil (q := q) o.pending hp
    exact ⟨fun hc => absurd (hlt hc) (lt_irrefl _),
      fun _ q hqR hqa => absurd (hlt hqa) (Nat.not_lt.2 (hRge q hqR)), fun hne => absurd rfl hne,
      le_rfl, .inl rfl⟩
  next head rest hp =>
  have hcov := h.live.cover_pos ha hr.ascending hp
  by_cases hcont : head.contains pos = true
  · rw [if_pos hcont]
    by_cases hneg : (s.ranges a).vreg < 0
    · rw [if_pos hneg]; exact ⟨h, fun _ _ he => by cases he⟩
    rw [if_neg hneg]
    -- live at `pos`: its next interfering use
    obtain ⟨hfu, hcache, -, hpend⟩ := firstRegisterUse_spec hr.usesSorted o.cache le_rfl
    rw [← firstInterferingUse_eq] at hfu hcache hpend
    rcases hres : (s.ranges a).finger.firstInterferingUse (s.ranges a).uses s.slots pos with ⟨f, use⟩
    rw [hres] at hfu hcache hpend
    dsimp only at hfu hcache hpend ⊢
    have h' := h.setFinger ha hpend hcache
    have hv : 0 ≤ (s.ranges a).vreg := Int.not_lt.1 hneg
    have hnb : (s.ranges a).vreg ≠ kNoVirtualRegister := by unfold kNoVirtualRegister; omega
    cases use with
    | none =>
      refine ⟨h', fun fu' ba' he => ?_⟩
      cases he
      exact ⟨fun _ => ⟨hv, fun u hu hreg hle => (freshUse_none hfu.symm hu hreg hle).elim⟩,
        fun e => absurd e hnb, fun hne => absurd rfl hne, min_le_left _ _, .inl rfl⟩
    | some p =>
      dsimp only
      split_ifs with hnear
      · exact ⟨h', fun _ _ he => by cases he⟩
      · refine ⟨h', fun fu' ba' he => ?_⟩
        cases he
        refine ⟨fun _ => ⟨hv, fun u hu hreg hle => ?_⟩, fun e => absurd e hnb,
          fun hne => absurd rfl hne, min_le_left _ _, .inl rfl⟩
        have := toInstructionStart_mono (freshUse_le hr.usesSorted hfu.symm hu hreg hle)
        omega
  · -- not live at `pos`: where it first meets the range
    rw [if_neg hcont]
    have hncov : intervalsCover (s.ranges a).intervals pos = false := by
      rw [hcov]; simpa using hcont
    have hasc := hr.ascending.sublist (LiveRange.pendingIntervals_sublist (s.ranges a))
    rw [hp] at hasc
    have hfirst := firstIntersection_isFirstCommon hasc hRasc
    have hcommon : ∀ q, intervalsCover (s.ranges R).intervals q = true →
        intervalsCover (s.ranges a).intervals q = true →
          commonCover (head :: rest) (s.ranges R).intervals q = true := fun q hqR hqa => by
      rw [commonCover, ← hp, cover_pending o.pending (hRge q hqR) hqa, hqR]; rfl
    by_cases hi : firstIntersection (head :: rest) (s.ranges R).intervals ≠ kMaxPosition
    · rw [if_pos hi]
      refine ⟨h, fun fu' ba' he => ?_⟩
      cases he
      obtain ⟨hci, hle⟩ := hfirst.resolve_left fun ⟨e, _⟩ => hi e
      rw [commonCover, Bool.and_eq_true] at hci
      refine ⟨fun hc => absurd hc (by rw [hncov]; decide),
        fun hb q hqR hqa => by rw [if_pos hb]; exact hle q (hcommon q hqR hqa), fun hne => ?_,
        min_le_left _ _, ?_⟩
      · split_ifs at hne ⊢ with hb
        · exact ⟨hb, cover_of_pending (by rw [hp]; exact hci.1), hci.2⟩
        · exact absurd rfl hne
      · split_ifs
        · exact .inr (min_le_right _ _)
        · exact .inl rfl
    · rw [if_neg hi]
      refine ⟨h, fun fu' ba' he => ?_⟩
      cases he
      have hno : ∀ q, intervalsCover (s.ranges R).intervals q = true →
          intervalsCover (s.ranges a).intervals q = true → False := fun q hqR hqa => by
        have hcq := hcommon q hqR hqa
        rcases hfirst with ⟨-, hno⟩ | ⟨hci, -⟩
        · rw [hno q] at hcq; cases hcq
        · rw [not_not.1 hi, commonCover, Bool.and_eq_true] at hci
          exact absurd (lt_of_intervalsCover (h.inv.ranges R).bounded hci.2) (lt_irrefl _)
      exact ⟨fun hc => absurd hc (by rw [hncov]; decide), fun _ q hqR hqa => (hno q hqR hqa).elim,
        fun hne => absurd rfl hne, le_rfl, .inl rfl⟩

end Step

/-! ## A whole register in `UpdateFreeUntil`, and the scan -/

section Register
variable {c : AllocCtx} {pos : Nat}

/-- What `UpdateFreeUntil` concludes from the occupants `occs` when it moves
`free_until` from `fu` to `fu'` and `blocked_at` from `ba` to `ba'`: the facts
of `StepFacts` for every occupant, `blocked_at` moving only to a position the
range shares with a blocking occupant. -/
structure ScanFacts (pos : Nat) (s : AllocState) (R : Nat) (occs : List Nat) (fu ba fu' ba' : Nat) :
    Prop where
  live : ∀ a ∈ occs, intervalsCover (s.ranges a).intervals pos = true → 0 ≤ (s.ranges a).vreg ∧
    ∀ u ∈ (s.ranges a).uses, isRegisterUse s.slots u = true → interferingFrom pos ≤ u.pos →
      pos + 1 < toInstructionStart u.pos
  blocked : ∀ a ∈ occs, (s.ranges a).vreg = kNoVirtualRegister → ∀ q,
    intervalsCover (s.ranges R).intervals q = true → intervalsCover (s.ranges a).intervals q = true →
      ba' ≤ q
  hit : ba' ≠ ba → ∃ b ∈ occs, (s.ranges b).vreg = kNoVirtualRegister ∧
    intervalsCover (s.ranges b).intervals ba' = true ∧ intervalsCover (s.ranges R).intervals ba' = true
  free : fu' ≤ fu
  order : ba' = ba ∨ fu' ≤ ba'

variable {s : AllocState} {R : Nat}

theorem ScanFacts.nil (fu ba : Nat) : ScanFacts pos s R [] fu ba fu ba :=
  ⟨fun a h => absurd h (List.not_mem_nil a), fun a h => absurd h (List.not_mem_nil a),
    fun h => absurd rfl h, le_rfl, .inl rfl⟩

/-- The facts of one occupant and of the ones after it, when only one of them
may block the register. -/
theorem ScanFacts.cons {a : Nat} {as : List Nat} {fu ba fu₁ ba₁ fu' ba' : Nat}
    (h₁ : StepFacts pos s R a fu ba fu₁ ba₁) (h₂ : ScanFacts pos s R as fu₁ ba₁ fu' ba')
    (hone : (s.ranges a).vreg = kNoVirtualRegister → ∀ b ∈ as, (s.ranges b).vreg ≠ kNoVirtualRegister) :
    ScanFacts pos s R (a :: as) fu ba fu' ba' := by
  have hkeep : (s.ranges a).vreg = kNoVirtualRegister → ba' = ba₁ := fun hv => by
    by_contra hne
    obtain ⟨b, hb, hbv, -⟩ := h₂.hit hne
    exact hone hv b hb hbv
  refine ⟨fun b hb => ?_, fun b hb => ?_, fun hne => ?_, h₂.free.trans h₁.free, ?_⟩
  · rcases List.mem_cons.1 hb with rfl | hb
    · exact h₁.live
    · exact h₂.live b hb
  · rcases List.mem_cons.1 hb with rfl | hb
    · intro hv; rw [hkeep hv]; exact h₁.blocked hv
    · exact h₂.blocked b hb
  · by_cases e : ba' = ba₁
    · subst e
      obtain ⟨hv, hc⟩ := h₁.hit hne
      exact ⟨a, List.mem_cons_self _ _, hv, hc⟩
    · obtain ⟨b, hb, hbv⟩ := h₂.hit e
      exact ⟨b, List.mem_cons_of_mem _ hb, hbv⟩
  · rcases h₂.order with e | hle
    · subst e
      rcases h₁.order with e | hle
      · exact .inl e
      · exact .inr (h₂.free.trans hle)
    · exact .inr hle

theorem ScanFacts.moved {s' : AllocState} {occs : List Nat} {fu ba fu' ba' : Nat}
    (hm : FingersMoved s s') (h : ScanFacts pos s' R occs fu ba fu' ba') :
    ScanFacts pos s R occs fu ba fu' ba' := by
  obtain ⟨hl, hb, hh, hf, ho⟩ := h
  simp only [hm.intervals, hm.uses, hm.vreg, hm.slots] at hl hb hh
  exact ⟨hl, hb, hh, hf, ho⟩

variable {s₀ : AllocState}

/-- The loop of `UpdateFreeUntil` over the occupants `as` of `reg`. -/
theorem updateFreeUntil_go_spec {reg curFree : Nat} :
    ∀ (as : List Nat) (s : AllocState) (fu ba : Nat), ScanInv c pos s₀ R s → as.Nodup →
      (∀ a ∈ as, a ∈ s₀.registers reg) →
      ScanInv c pos s₀ R (updateFreeUntil.go curFree pos (s₀.ranges R).intervals as s fu ba).1 ∧
      ∀ fu' ba', (updateFreeUntil.go curFree pos (s₀.ranges R).intervals as s fu ba).2 =
        some (fu', ba') → ScanFacts pos s₀ R as fu ba fu' ba'
  | [], _, fu, ba, h, _, _ => ⟨h, fun _ _ he => by cases he; exact ScanFacts.nil fu ba⟩
  | a :: as, s, fu, ba, h, hnd, hsub => by
    have ha₀ := hsub a (List.mem_cons_self _ _)
    have ha : a ∈ s.registers reg := by rw [h.moved.registers]; exact ha₀
    have hstep : ScanInv c pos s₀ R (updateFreeUntilStep s pos (s.ranges R).intervals a fu ba).1 ∧
        ∀ fu' ba', (updateFreeUntilStep s pos (s.ranges R).intervals a fu ba).2 = some (fu', ba') →
          StepFacts pos s R a fu ba fu' ba' := updateFreeUntilStep_spec h ha
    rw [h.moved.intervals R] at hstep
    obtain ⟨h₁, hf₁⟩ := hstep
    unfold updateFreeUntil.go
    rcases hres : updateFreeUntilStep s pos (s₀.ranges R).intervals a fu ba with ⟨t, _ | ⟨fu₁, ba₁⟩⟩
    · rw [hres] at h₁
      exact ⟨h₁, fun _ _ he => by cases he⟩
    rw [hres] at h₁ hf₁
    dsimp only
    split_ifs
    · exact ⟨h₁, fun _ _ he => by cases he⟩
    obtain ⟨hI, hf⟩ := updateFreeUntil_go_spec as t fu₁ ba₁ h₁ (List.nodup_cons.1 hnd).2
      fun b hb => hsub b (List.mem_cons_of_mem _ hb)
    refine ⟨hI, fun fu' ba' he => ScanFacts.cons (StepFacts.moved h.moved (hf₁ fu₁ ba₁ rfl))
      (hf fu' ba' he) fun hv b hb hbv => (List.nodup_cons.1 hnd).1 ?_⟩
    have hb₀ : b ∈ s.registers reg := by
      rw [h.moved.registers]; exact hsub b (List.mem_cons_of_mem _ hb)
    rw [← h.moved.vreg] at hv hbv
    exact h.inv.oneBlocking reg a ha b hb₀ hv hbv ▸ hb

/-- `UpdateFreeUntil(reg, range, ...)` during the scan. -/
theorem updateFreeUntil_spec (h : ScanInv c pos s₀ R s) (reg curFree : Nat) :
    ScanInv c pos s₀ R (updateFreeUntil s reg R curFree).1 ∧
      ∀ fu ba, (updateFreeUntil s reg R curFree).2 = some (fu, ba) →
        ScanFacts pos s₀ R (s₀.registers reg) kMaxPosition kMaxPosition fu ba := by
  unfold updateFreeUntil
  rw [h.ready.start, h.moved.intervals R, h.moved.registers]
  exact updateFreeUntil_go_spec _ s _ _ h (h.moved.registers ▸ h.inv.regsNodup reg) fun _ ha => ha

variable (c) in
/-- What the scan's candidate is: none yet, with `free_until` zero, or a
register of the class all of whose occupants `UpdateFreeUntil` accepted. -/
def AnyCandOk (pos : Nat) (s₀ : AllocState) (R : Nat) (x : Option Nat × Nat × Nat) : Prop :=
  (x.1 = none ∧ x.2.1 = 0) ∨ ∃ reg, x.1 = some reg ∧ reg < c.numberOfRegisters ∧
    ScanFacts pos s₀ R (s₀.registers reg) kMaxPosition kMaxPosition x.2.1 x.2.2

/-- The scan of `AllocateAnyRegister` over the registers: it moves only
fingers, and its candidate is a register of the class with what
`UpdateFreeUntil` concluded, whenever the registers past the class are
blocked. -/
theorem anyRegisterScan_spec (hblocked : ∀ reg, c.numberOfRegisters ≤ reg → c.blocked reg = true) :
    ∀ (regs : List Nat) (s : AllocState) (x : Option Nat × Nat × Nat), ScanInv c pos s₀ R s →
      AnyCandOk c pos s₀ R x →
      ScanInv c pos s₀ R (anyRegisterScan c s R regs x).1 ∧
        AnyCandOk c pos s₀ R (anyRegisterScan c s R regs x).2
  | [], _, _, h, hx => ⟨h, hx⟩
  | reg :: regs, s, (cand, fu, ba), h, hx => by
    unfold anyRegisterScan
    split_ifs with hb
    · exact anyRegisterScan_spec hblocked regs s _ h hx
    obtain ⟨h₁, hf⟩ := updateFreeUntil_spec h reg fu
    rcases hu : updateFreeUntil s reg R fu with ⟨t, _ | ⟨fu', ba'⟩⟩
    · rw [hu] at h₁
      exact anyRegisterScan_spec hblocked regs t _ h₁ hx
    · rw [hu] at h₁ hf
      exact anyRegisterScan_spec hblocked regs t _ h₁
        (.inr ⟨reg, rfl, Nat.lt_of_not_le fun hle => hb (hblocked reg hle), hf fu' ba' rfl⟩)

end Register

/-! ## Where `AllocateAnyRegister` cuts, and what the eviction may assume -/

/-- A range ends by any bound on the ends of its intervals. -/
theorem LiveRange.stop_le_of_forall {r : LiveRange} {b : Nat} (h : ∀ iv ∈ r.intervals, iv.stop ≤ b) :
    r.stop ≤ b := by
  unfold LiveRange.stop
  cases hl : r.intervals.getLast? with
  | none => exact Nat.zero_le _
  | some iv => exact h iv (List.mem_of_getLast?_eq_some hl)

section Cut
variable {c : AllocCtx}

/-- A register use at or after an odd start comes at least two positions
later: register uses at instruction starts only open ranges, and no interval
starts at a register use at an instruction's end. -/
theorem RangeOk.start_add_two_le_use {slots : Nat → Location} {r : LiveRange}
    (h : RangeOk c slots r) (hne : r.intervals ≠ []) (hodd : r.start % 2 = 1) {u : UsePosition}
    (hu : u ∈ r.uses) (hreg : isRegisterUse slots u = true) (hle : r.start ≤ u.pos) :
    r.start + 2 ≤ u.pos := by
  rcases Nat.mod_two_eq_zero_or_one u.pos with he | ho
  · have := h.evenUse u hu hreg he
    omega
  obtain ⟨iv, ivs, hr⟩ := List.exists_cons_of_ne_nil hne
  have hst : r.start = iv.start := by simp [LiveRange.start, hr]
  have := h.oddUse u hu hreg ho iv (hr ▸ List.mem_cons_self _ _)
  omega

/-- `SplitBetween(range, start, blocked_at + 1)`, with a blocking range covering
`blocked_at`, cuts strictly after the start and by `blocked_at`: no block or
loop header starts right after a position a blocking range covers, and the
instruction start before `blocked_at + 1` lies after the start once
`blocked_at` is two past an odd start. -/
theorem splitBetweenPos_blocked (hc : c.LoopOrder) {st ba : Nat} (hlt : st < ba) (hodd : st % 2 = 1 → st + 2 ≤ ba)
    (hblock : c.blockStart (ba + 1) ≠ ba + 1 ∧ ∀ l, (c.loops l).headerStart ≠ ba + 1) :
    st < splitBetweenPos c st (ba + 1) ∧ splitBetweenPos c st (ba + 1) ≤ ba := by
  by_cases hb : st < c.blockStart (ba + 1)
  · obtain ⟨h₁, h₂, h₃⟩ := splitBetweenPos_of_lt hc hb
    refine ⟨h₁, Nat.le_of_lt_succ (lt_of_le_of_ne h₂ ?_)⟩
    rcases h₃ with ⟨e, -⟩ | ⟨-, l, -, -, -, -, e⟩ <;> rw [e]
    exacts [hblock.1, hblock.2 l]
  · have e : splitBetweenPos c st (ba + 1) = toInstructionStart (ba + 1) - 1 := by
      simp [splitBetweenPos, hb]
    rw [e]
    unfold toInstructionStart
    omega

variable {pos : Nat}

/-- What `AssignNonFreeRegister` needs of the register follows from what
`UpdateFreeUntil` concluded about it in an earlier state `s₀`, when the
occupants are unchanged since and the range in hand covers only positions it
covered then, before `blocked_at`. -/
theorem evictOk_of_scanFacts {s₀ t : AllocState} {R reg fu ba : Nat} (h : RegInv c pos t)
    (hR : Ready c pos t R)
    (hf : ScanFacts pos s₀ R (s₀.registers reg) kMaxPosition kMaxPosition fu ba)
    (hregs : t.registers reg = s₀.registers reg)
    (hsame : ∀ a ∈ t.registers reg, (t.ranges a).intervals = (s₀.ranges a).intervals ∧
      (t.ranges a).uses = (s₀.ranges a).uses ∧ (t.ranges a).vreg = (s₀.ranges a).vreg)
    (hslots : t.slots = s₀.slots)
    (hRcov : ∀ q, intervalsCover (t.ranges R).intervals q = true →
      intervalsCover (s₀.ranges R).intervals q = true ∧ q < ba) :
    EvictOk pos t R reg := by
  refine ⟨fun a ha hneg q hq => ?_, fun a ha _ hcov u hu hreg hle => ?_⟩
  · obtain ⟨hI, -, hV⟩ := hsame a ha
    have ha₀ := hregs ▸ ha
    cases hqa : intervalsCover (t.ranges a).intervals q
    · rfl
    exfalso
    by_cases hb : (t.ranges a).vreg = kNoVirtualRegister
    · -- the blocking range: `blocked_at` is at most what it shares with the range
      exact absurd (hRcov q hq).2
        (Nat.not_lt.2 (hf.blocked a ha₀ (hV ▸ hb) q (hRcov q hq).1 (hI ▸ hqa)))
    · -- a temporary: live only at its start, by `pos`, where it would be live
      have hstarted := (h.occupants reg a ha).started hb
      have hqpos : pos ≤ q := hR.start ▸ LiveRange.start_le_of_cover (h.ranges R).ascending hq
      rcases (h.ranges a).temp hneg hb with he | ⟨p, he⟩
      · rw [he] at hqa; cases hqa
      · have hsp : (t.ranges a).start = p := by simp [LiveRange.start, he]
        have hqp : q = p := by
          simp only [he, intervalsCover, List.any_cons, List.any_nil, Bool.or_false,
            UseInterval.contains, Bool.and_eq_true, decide_eq_true_eq] at hqa
          omega
        have hv := (hf.live a ha₀ (by rw [← hI, show pos = q by omega]; exact hqa)).1
        rw [← hV] at hv
        omega
  · obtain ⟨hI, hU, -⟩ := hsame a ha
    have := (hf.live a (hregs ▸ ha) (hI ▸ hcov)).2 u (hU ▸ hu) (hslots ▸ hreg) hle
    have := toInstructionStart_le u.pos
    omega

end Cut

/-! ## `AllocateAnyRegister` -/

section Any
variable {c : AllocCtx} (hc : c.LoopOrder) (hbe : ∀ p, c.blockStart p % 2 = 0)
  (hhe : ∀ l, (c.loops l).headerStart % 2 = 0) {pos : Nat} {s : AllocState} {R : Nat}
include hc hbe hhe

/-- `SpillBetween(range, range->Start(), to)` of the range in hand keeps the
invariant, given a register use of the range at or after `to`. -/
theorem RegInv.spillBetween_ready (h : RegInv c pos s) (hR : Ready c pos s R) (hpos : 0 < pos)
    {toPos : Nat} (hto : (s.ranges R).start < toPos →
      ∃ u ∈ (s.ranges R).uses, isRegisterUse s.slots u = true ∧ toPos ≤ u.pos) :
    RegInv c pos (spillBetween c s R (s.ranges R).start toPos) := by
  obtain ⟨k, hfree⟩ := spillBetween_start_cut hc hbe hhe h.base hR.fresh hR.notQueued hR.nonempty
    hR.start.symm.le (hR.start ▸ hpos) hR.vreg hto fun _ => hR.free
  exact h.cut k hR.notQueued
    (fun reg => by rw [(steady_spillBetween c s R _ toPos).registers, hR.registers_filter h])
    fun reg hh => absurd hh (hfree reg)

/-- The last branch of `AllocateAnyRegister`: with what the scan concluded
about the register `reg` it picked, cutting the range before `blocked_at` when
the range reaches it and evicting `reg`'s occupants keeps the invariant. -/
theorem ScanInv.evict {s₀ : AllocState} (h : ScanInv c pos s₀ R s) (hpos : 0 < pos)
    {reg fu ba : Nat} (hreg : reg < c.numberOfRegisters)
    (hf : ScanFacts pos s₀ R (s₀.registers reg) kMaxPosition kMaxPosition fu ba)
    (hodd : pos % 2 = 1 → pos + 2 ≤ fu) :
    RegInv c pos (assignNonFreeRegister c
      (if ba < (s.ranges R).stop then
        addToUnallocated (splitBetween c s R (s.ranges R).start (ba + 1)).1
          (splitBetween c s R (s.ranges R).start (ba + 1)).2
      else s) R reg) := by
  have hm := h.moved
  by_cases hba : ba < (s.ranges R).stop
  · rw [if_pos hba]
    have hne : ba ≠ kMaxPosition := fun e =>
      absurd (e ▸ hba) (Nat.not_lt.2 (LiveRange.stop_le_of_forall (h.inv.ranges R).bounded))
    obtain ⟨b, hb, hbv, hbcov, hRcov⟩ := hf.hit hne
    have hpb : pos < ba := by
      refine lt_of_le_of_ne (h.ready.start ▸ LiveRange.start_le_of_cover (h.inv.ranges R).ascending
        (hm.intervals R ▸ hRcov)) fun e => ?_
      have := (hf.live b hb (e ▸ hbcov)).1
      rw [hbv] at this
      exact absurd this (by decide)
    have hsb := splitBetweenPos_blocked hc hpb (fun ho => (hodd ho).trans (hf.order.resolve_left hne))
      ((h.inv.ranges b).blocking (hm.vreg b ▸ hbv) ba (hm.intervals b ▸ hbcov))
    unfold splitBetween
    rw [h.ready.start]
    obtain ⟨h₃, hR₃, hregs, hkeep, hcov⟩ :=
      h.inv.splitQueue h.ready ⟨hsb.1, lt_of_le_of_lt hsb.2 hba⟩
    refine assignNonFreeRegister_inv hc hbe hhe h₃ hR₃ hpos hreg
      (evictOk_of_scanFacts h₃ hR₃ hf (by rw [hregs, hm.registers]) (fun a ha => ?_)
        (by rw [addToUnallocated_slots, splitAt_slots, hm.slots])
        fun q hq => ⟨hm.intervals R ▸ (hcov q hq).1, (hcov q hq).2.trans_le hsb.2⟩)
    rw [hregs] at ha
    have o := h.inv.occupants reg a ha
    have e := hkeep a (h.inv.base.lt_of_holds o.holds) fun e => h.ready.free reg (e ▸ o.holds)
    rw [e.intervals, e.uses, e.vreg]
    exact ⟨hm.intervals a, hm.uses a, hm.vreg a⟩
  · rw [if_neg hba]
    exact assignNonFreeRegister_inv hc hbe hhe h.inv h.ready hpos hreg
      (evictOk_of_scanFacts h.inv h.ready hf (by rw [hm.registers])
        (fun a _ => ⟨hm.intervals a, hm.uses a, hm.vreg a⟩) hm.slots fun q hq =>
          ⟨hm.intervals R ▸ hq, (LiveRange.lt_stop_of_cover (h.inv.ranges R).ascending hq).trans_le
            (Nat.not_lt.1 hba)⟩)

/-- `AllocateAnyRegister(range)` keeps the invariant, right after an advance to
the range's start: a range with no register use is spilled; a range whose
first register use comes after every register is free is spilled up to it;
otherwise it is cut before `blocked_at` and evicts the register free longest. -/
theorem allocateAnyRegister_inv (hblocked : ∀ reg, c.numberOfRegisters ≤ reg → c.blocked reg = true)
    (h : RegInv c pos s) (hl : Live pos s) (hR : Ready c pos s R) (hpos : 0 < pos) :
    RegInv c pos (allocateAnyRegister c s R) := by
  obtain ⟨hfu, hcache, -, hpend⟩ := firstRegisterUse_spec (h.ranges R).usesSorted hR.cache le_rfl
  unfold allocateAnyRegister
  simp only [hR.start]
  rcases hfr : (s.ranges R).finger.firstRegisterUse (s.ranges R).uses s.slots pos with ⟨f, ru⟩
  rw [hfr] at hfu hcache hpend
  dsimp only at hfu hcache hpend ⊢
  have I₁ := ScanInv.start h hl hR hpend hcache
  have hm₁ := FingersMoved.setFinger s R f
  generalize s.setRange R { s.ranges R with finger := f } = s₁ at I₁ hm₁ ⊢
  rw [← hm₁.uses R, ← hm₁.slots] at hfu
  by_cases hsp : (ru.isNone && !((s.ranges R).isLoopPhi && hasCheapEvictionCandidate c s₁ R)) = true
  · rw [if_pos hsp]
    exact I₁.inv.spill_ready I₁.ready
  rw [if_neg hsp]
  obtain ⟨I₂, hx⟩ := anyRegisterScan_spec hblocked c.regOrder s₁ (none, 0, kMaxPosition) I₁ (.inl ⟨rfl, rfl⟩)
  generalize anyRegisterScan c s₁ R c.regOrder (none, 0, kMaxPosition) = x at I₂ hx ⊢
  obtain ⟨s₂, cand, fu, ba⟩ := x
  dsimp only at I₂ hx ⊢
  -- the first register use from the range's start on
  have huse : ∀ p, ru = some p →
      p.2 ∈ (s₂.ranges R).uses ∧ pos ≤ p.2.pos ∧ isRegisterUse s₂.slots p.2 = true := fun p hp => by
    rw [I₂.moved.uses, I₂.moved.slots]
    exact freshUse_some (hfu ▸ hp)
  by_cases hlt : fu < (ru.map (·.2.pos)).getD (s₂.ranges R).start
  · rw [if_pos hlt]
    refine I₂.inv.spillBetween_ready hc hbe hhe I₂.ready hpos fun hto => ?_
    cases ru with
    | none => exact absurd hto (lt_irrefl _)
    | some p => exact ⟨p.2, (huse p rfl).1, (huse p rfl).2.2, le_rfl⟩
  rw [if_neg hlt]
  obtain ⟨reg, rfl, hreg, hf⟩ : ∃ reg, cand = some reg ∧ reg < c.numberOfRegisters ∧
      ScanFacts pos s₁ R (s₁.registers reg) kMaxPosition kMaxPosition fu ba := by
    refine hx.resolve_left fun ⟨_, (h0 : fu = 0)⟩ => hlt ?_
    rw [h0]
    cases ru with
    | none => exact I₂.ready.start ▸ hpos
    | some p => exact hpos.trans_le (huse p rfl).2.1
  refine I₂.evict hc hbe hhe hpos hreg hf fun hodd => ?_
  -- an odd start: the first register use is two positions on
  have hle := Nat.not_lt.1 hlt
  cases ru with
  | none =>
    have hphi : (s.ranges R).isLoopPhi = true ∧ hasCheapEvictionCandidate c s₁ R = true := by
      simpa using hsp
    have := (h.ranges R).loopPhi hphi.1
    rw [hR.start] at this
    omega
  | some p =>
    obtain ⟨hu, hpu, hreg'⟩ := huse p rfl
    have := (I₂.inv.ranges R).start_add_two_le_use I₂.ready.nonempty (I₂.ready.start ▸ hodd) hu hreg'
      (I₂.ready.start ▸ hpu)
    rw [I₂.ready.start] at this
    exact this.trans hle

end Any

end LinearScan
