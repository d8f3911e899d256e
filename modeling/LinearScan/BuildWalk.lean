import LinearScan.BuildInv

/-!
# Construction over one instruction

`ProcessOneInstruction` keeps the construction invariant (`BuildInv`) in the
order of the code (`BuildInv.processOneInstruction`): the constant prologue,
the environment with the materializations it names (`envPhase`), the inputs
and the register arguments (`processInputs`), the temps, the registers a call
blocks, the safepoint, and the outputs one after the other (`processOutputs`).

An output of the instruction is pending until its turn (`Pending`): its range
is the one the walk built up to the definition. Finishing it gives it the
safepoints `AssignSafepoints` keeps, all it contains but the instruction's own
(`finishValue`); a temporary is queued without any (`finishTemp`). `BuildEntry`
chains the instructions with the steps at a block's ends.
-/

namespace LinearScan

/-! ## The outputs of one instruction

Outputs are finished one after the other. An output not processed yet keeps
the range it had when the walk reached its definition (`Pending`); each step
changes the ranges of its own output and of the input it shares a register
with only (`ValuesFrame`). -/

section Outputs
variable {b : BuildCtx} {blocks : List RangeBlock} {nV : Nat} {shape : Nat → LiveRange → Prop}
  {bshape : LiveRange → Prop} {c S lo pos : Nat} {s s' s'' : BuildState} {blk : RangeBlock} {T : Nat → Prop}

/-- `s'` has the ranges of `s` at every value below `nV` outside `T`, and
queues none of them that `s` did not. -/
def ValuesFrame (nV : Nat) (T : Nat → Prop) (s s' : BuildState) : Prop :=
  ∀ j < nV, ¬T j → s'.alloc.ranges j = s.alloc.ranges j ∧ ∀ k, j ∈ s'.unallocatedOf k → j ∈ s.unallocatedOf k

theorem ValuesFrame.refl (s : BuildState) : ValuesFrame nV T s s := fun _ _ _ => ⟨rfl, fun _ => id⟩

theorem ValuesFrame.trans (h : ValuesFrame nV T s s') (h' : ValuesFrame nV T s' s'') : ValuesFrame nV T s s'' :=
  fun j hj hT => ⟨(h' j hj hT).1.trans (h j hj hT).1, fun k hk => (h j hj hT).2 k ((h' j hj hT).2 k hk)⟩

theorem SameRanges.trans (e : SameRanges s s') (e' : SameRanges s' s'') : SameRanges s s'' :=
  ⟨e'.1.trans e.1, e'.2.trans e.2, e'.3.trans e.3, e'.4.trans e.4, e'.5.trans e.5, e'.6.trans e.6⟩

theorem SameRanges.valuesFrame (e : SameRanges s s') : ValuesFrame nV T s s' :=
  fun _ _ _ => ⟨by rw [e.ranges], fun k hk => by rwa [e.unallocatedOf] at hk⟩

theorem valuesFrame_updRange {j : Nat} (hj : ∀ i < nV, ¬T i → i ≠ j) (f : LiveRange → LiveRange) :
    ValuesFrame nV T s (s.updRange j f) :=
  fun i hi hT => ⟨by rw [BuildState.updRange_ranges, if_neg (hj i hi hT)], fun _ => id⟩

theorem valuesFrame_newRange (hf : nV ≤ s.alloc.fresh) (r : LiveRange) : ValuesFrame nV T s (s.newRange r).1 :=
  fun j hj _ => ⟨by simp [BuildState.newRange, AllocState.setRange, show j ≠ s.alloc.fresh by omega], fun _ => id⟩

theorem valuesFrame_completeRange {id : Nat} (hid : ∀ i < nV, ¬T i → i ≠ id) (k : RegisterKind) :
    ValuesFrame nV T s (completeRange s id k) := by
  by_cases hk : k = .invalid
  · simpa [completeRange, hk] using ValuesFrame.refl s
  obtain ⟨hr, -, -, -, -, hu⟩ := completeRange_spec s id k hk
  exact fun j hj hT => ⟨by rw [hr, if_neg (hid j hj hT)],
    fun k' hk' => (hu k' j hk').resolve_left (hid j hj hT)⟩

theorem BuildInv.valuesFrame_blockLocation (h : BuildInv b blocks nV shape bshape c S s) (loc : Location)
    (f t : Nat) : ValuesFrame nV T s (LinearScan.blockLocation b s loc f t) := by
  unfold LinearScan.blockLocation
  dsimp only
  split_ifs
  · exact .refl s
  split
  · rename_i id hb
    exact valuesFrame_updRange (fun i hi _ => (h.blocking_ne hb hi).symm) _
  · exact (valuesFrame_newRange h.fresh _).trans
      (valuesFrame_updRange (fun i hi _ => by have := h.fresh; simp [BuildState.newRange]; omega) _)

/-- `ConnectFixedOutput` writes slots, then drops the uses it connected. -/
theorem connectFixedOutput_eq (s : BuildState) (id pos : Nat) (out : Location) :
    ∃ t K, SameRanges s t ∧ connectFixedOutput s id pos out = t.updRange id fun r =>
      { r with uses := r.uses.drop K } := by
  have : ∀ (l : List UsePosition) t, SameRanges t (l.foldl (fun s u => s.setSlot u.slot out) t) := by
    intro l
    induction l with
    | nil => exact fun t => ⟨rfl, rfl, rfl, rfl, rfl, rfl⟩
    | cons u l ih => exact fun t => (sameRanges_setSlot t u.slot out).trans (ih _)
  exact ⟨_, _, this _ s, rfl⟩

/-- An output of the instruction at `pos` that is not processed yet: its
range is the one the walk built up to the definition, and it is not queued. -/
structure Pending (b : BuildCtx) (blocks : List RangeBlock) (nV : Nat) (blk : RangeBlock) (s : BuildState) (v : Nat) : Prop where
  lt : v < nV
  open_ : ValueOpen b blocks v (s.alloc.ranges v)
  shape : OpenIn blk v (s.alloc.ranges v)
  not_queued : ∀ k, v ∉ s.unallocatedOf k

theorem Pending.of_frame {v : Nat} (hp : Pending b blocks nV blk s v) (hf : ValuesFrame nV T s s') (hT : ¬T v) :
    Pending b blocks nV blk s' v :=
  have ⟨e, hq⟩ := hf v hp.lt hT
  ⟨hp.lt, e ▸ hp.open_, e ▸ hp.shape, fun k hk => hp.not_queued k (hq k hk)⟩

/-- At its definition, an output's first interval reaches past the next
position, unless it is the only interval. A later interval starts at the
block's end or after (the walk prepends inside the block), so the value is read
after its block and is live out of it; its interval from the block's start then
covers the block. -/
theorem Pending.first_stop (hp : Pending b blocks nV blk s v) (hwf : BlocksWF b blocks nV) (hb : blk ∈ blocks)
    {ins : RangeInstr} (hi : ins ∈ blk.instrs) (hn : (v : Int) ∈ ins.outs.map Prod.fst) :
    ∀ iv ∈ (s.alloc.ranges v).intervals.head?,
      ins.pos + 1 < iv.stop ∨ (s.alloc.ranges v).intervals = [iv] := by
  intro i hi1
  obtain ⟨is, hr⟩ : ∃ is, (s.alloc.ranges v).intervals = i :: is := by
    cases e : (s.alloc.ranges v).intervals with
    | nil => rw [e] at hi1; cases hi1
    | cons a l => rw [e] at hi1; cases hi1; exact ⟨l, rfl⟩
  cases is with
  | nil => exact .inr hr
  | cons j js =>
    left
    have hsep := (LiveRange.Separated.cons_iff hr).1 hp.open_.separated
    have hj : j ∈ (s.alloc.ranges v).intervals := by rw [hr]; simp
    have hopen := hp.shape.1.2
    have hbs := (hopen i (by rw [hr]; simp)).1
    have hij := hsep.2.1 j (List.mem_cons_self _ _)
    have hje : blk.endPos ≤ j.start := by
      rcases (hopen j hj).2 with h | h
      · omega
      · omega
    obtain ⟨p, hjp, hread⟩ := hp.open_.justified j hj
    obtain ⟨iv, hiv, h1, h2⟩ := hp.shape.2.1 (hwf.liveOut_of_def blk hb ins hi v hn p hread (hje.trans hjp))
    have hbnd := hwf.instr_bounds hb hi
    rw [hr] at hiv
    rcases List.mem_cons.1 hiv with rfl | hiv
    · omega
    · have := hsep.2.1 iv hiv
      have := hsep.1
      omega

/-- `AssignSafepoints` on a range that holds no safepoint records the covered
ones `kept` keeps, when the walk's skips and the range's constant flag say what
`kept` says at every safepoint the range contains. -/
theorem assignSafepointsFrom_covered (skip : Nat → Bool) (kept : Nat × Nat → Bool) {sps : List (Nat × Nat)}
    {r : LiveRange} (hsps : sps.Pairwise fun a b => b.1 + 2 ≤ a.1) (hsp : r.safepoints = [])
    (hk : ∀ p : Nat × Nat, r.contains p.1 = true →
      (!skip p.1 && keepsSafepoint b r.spillSlot.isConstant p.2) = kept p) :
    assignSafepointsFrom b skip sps.reverse r = { r with safepoints := LiveRange.coveredSafepoints sps kept r } := by
  obtain ⟨l, e⟩ := assignSafepointsFrom_eq b skip sps.reverse r
  have hl := LiveRange.assignSafepointsFrom_safepoints b skip sps.reverse r
    (List.pairwise_reverse.2 (hsps.imp fun h => by omega))
  simp only [e, hsp, List.nil_append] at hl
  rw [e, hl, LiveRange.coveredSafepoints]
  congr 2
  refine List.filter_congr fun p _ => ?_
  cases hc : r.contains p.1
  · simp
  · simp only [Bool.and_true, hk p hc]

/-- `AssignSafepoints` then `CompleteRange` on the well-formed range of a value
defined at `pos` that holds no safepoint yet, when the skips and the range's
constant flag say what `safepointKept` says at every safepoint the range
contains: the range is queued with exactly the safepoints it covers and keeps. -/
theorem BuildInv.finishKept (h : BuildInv b blocks nV shape bshape pos S s) {n : Nat} (hv : n < nV)
    (hd : DefinedAt blocks n pos) (skip : Nat → Bool)
    (hk : ∀ p : Nat × Nat, (s.alloc.ranges n).contains p.1 = true →
      (!skip p.1 && keepsSafepoint b (s.alloc.ranges n).spillSlot.isConstant p.2) = safepointKept b blocks n p)
    (hq : ∀ k, n ∉ s.unallocatedOf k) (hwfr : (s.alloc.ranges n).WellFormed)
    (hsp : (s.alloc.ranges n).safepoints = []) (hst : pos ≤ (s.alloc.ranges n).start) (k : RegisterKind) :
    BuildInv b blocks nV shape bshape pos S (completeRange (assignSafepoints b s skip n) n k) := by
  have hns : ¬Open blocks pos n := fun ho => lt_irrefl _ (ho pos hd)
  have e := assignSafepointsFrom_covered (b := b) skip (safepointKept b blocks n) h.spsGap hsp hk
  refine (h.editClosed hv hns hq (by rw [e]; exact h.vreg n hv)).complete (hv.trans_le h.fresh) ?_
    (fun _ => hns) fun k reg hb => h.blocking_ne hb hv rfl
  rw [BuildState.updRange_ranges, if_pos rfl, e]
  exact ⟨⟨hwfr.1, hwfr.2, hwfr.3, hwfr.4⟩, .inr ⟨n, pos, h.vreg n hv, hd, le_rfl, hst, rfl⟩⟩

/-- The same for a value an instruction at `pos` defines: every safepoint but
the instruction's own. -/
theorem BuildInv.finishValue (h : BuildInv b blocks nV shape bshape pos S s) {n : Nat} (hv : n < nV)
    (hd : DefinedAt blocks n pos) (hkept : ∀ p, safepointKept b blocks n p = (p.1 != pos))
    (hq : ∀ k, n ∉ s.unallocatedOf k) (hwfr : (s.alloc.ranges n).WellFormed)
    (hsp : (s.alloc.ranges n).safepoints = []) (hnc : (s.alloc.ranges n).spillSlot.isConstant = false)
    (hst : pos ≤ (s.alloc.ranges n).start) (k : RegisterKind) :
    BuildInv b blocks nV shape bshape pos S (completeRange (assignSafepoints b s (· == pos) n) n k) :=
  h.finishKept hv hd _ (fun p _ => by rw [hkept, hnc]; simp [keepsSafepoint, bne]) hq hwfr hsp hst k

/-- `AssignSafepoints` skipping `d` adds nothing to a range `[d, d + 1)`. -/
theorem assignSafepointsFrom_single {r : LiveRange} {d : Nat} {l : List (Nat × Nat)}
    (hl : l.Pairwise fun a b => a.1 ≤ b.1) (hi : r.intervals = [⟨d, d + 1⟩]) :
    assignSafepointsFrom b (· == d) l r = r := by
  obtain ⟨sps, e⟩ := assignSafepointsFrom_eq b (· == d) l r
  have := LiveRange.assignSafepointsFrom_safepoints b (· == d) l r hl
  rw [e, List.filter_eq_nil_iff.2 fun p _ => ?_] at this
  · rw [e]; simp only [List.map_nil, List.append_nil] at this; rw [this]
  · simp only [Bool.not_eq_true, LiveRange.contains, LiveRange.canCover, LiveRange.start, LiveRange.stop, hi,
      List.head?_cons, Option.map_some', Option.getD_some, List.getLast?_singleton, List.any_cons, List.any_nil,
      UseInterval.contains, Bool.or_false, Bool.and_eq_false_iff, Bool.not_eq_false', beq_iff_eq,
      decide_eq_false_iff_not]
    omega

/-- Finishing a temporary `[pos, pos + 1)` with uses at `pos`: `AssignSafepoints`
leaves it as it is. -/
theorem BuildInv.finishTemp (h : BuildInv b blocks nV shape bshape c S s) {id : Nat} (hf : Free nV s id)
    (hr : LiveRange.UsesEdit ((LiveRange.make kTempVirtualRegister .noRepresentation).addUseInterval pos (pos + 1))
      (s.alloc.ranges id) pos) (k : RegisterKind) :
    BuildInv b blocks nV shape bshape c S (completeRange (assignSafepoints b s (· == pos) id) id k) := by
  have e := assignSafepointsFrom_single (b := b) (List.pairwise_reverse.2 (h.spsGap.imp fun h => by omega))
    (hr.intervals.trans rfl)
  refine (h.editFree hf _).complete hf.lt ?_ (fun hlt => absurd hlt (by have := hf.ge; omega)) hf.not_blocking
  rw [BuildState.updRange_ranges, if_pos rfl, e]
  exact tempEdit_queued hr

theorem LiveRange.UsesEdit.start {r r' : LiveRange} {p : Nat} (h : LiveRange.UsesEdit r r' p) : r'.start = r.start := by
  unfold LiveRange.start; rw [h.intervals]

theorem LiveRange.defineAt_stop_of_single {r : LiveRange} {iv : UseInterval} (h : r.intervals = [iv]) (d : Nat) :
    (r.defineAt d).stop = iv.stop := by
  unfold LiveRange.defineAt; rw [h]; rfl

/-- `BlockLocation` leaves a free range alone. -/
theorem Free.blockLocation_ranges {id : Nat} (h : Free nV s id) (loc : Location) (f t : Nat) :
    (LinearScan.blockLocation b s loc f t).alloc.ranges id = s.alloc.ranges id := by
  unfold LinearScan.blockLocation
  dsimp only
  split_ifs
  · rfl
  split
  · rename_i id' hb
    have : id ≠ id' := by rintro rfl; exact h.not_blocking _ _ hb
    rw [BuildState.updRange_ranges, if_neg this]
  · have := h.lt
    simp [BuildState.newRange, AllocState.setRange, show id ≠ s.alloc.fresh by omega]

/-- Dropping uses keeps a range open. -/
theorem ValueOpen.dropUses {v : Nat} {r : LiveRange} (h : ValueOpen b blocks v r) (k : Nat) :
    ValueOpen b blocks v { r with uses := r.uses.drop k } where
  separated := h.separated
  ordered := List.Pairwise.sublist (List.drop_sublist _ _) h.ordered
  inHull u hu := h.inHull u (List.mem_of_mem_drop hu)
  safepoints := h.safepoints
  notConstant := h.notConstant
  afterDef d hd := ⟨(h.afterDef d hd).1, fun u hu => (h.afterDef d hd).2 u (List.mem_of_mem_drop hu)⟩
  justified := h.justified
  inside u hu := h.inside u (List.mem_of_mem_drop hu)

/-- Finishing the range of a value defined at `pos`: the range is an open one,
defined at `d` (`pos` or `pos + 1`) and given uses at `d`. -/
theorem BuildInv.finishDefined (h : BuildInv b blocks nV shape bshape pos S s) {n : Nat} (hv : n < nV)
    (hd : DefinedAt blocks n pos) (hkept : ∀ p, safepointKept b blocks n p = (p.1 != pos))
    (hq : ∀ k, n ∉ s.unallocatedOf k) {r : LiveRange} {d : Nat}
    (hvo : ValueOpen b blocks n r) (hpd : pos ≤ d) (hdp : d ≤ pos + 1)
    (hstop : ∀ iv ∈ r.intervals.head?, d < iv.stop) (hr : LiveRange.UsesEdit (r.defineAt d) (s.alloc.ranges n) d)
    (k : RegisterKind) : BuildInv b blocks nV shape bshape pos S (completeRange (assignSafepoints b s (· == pos) n) n k) :=
  h.finishValue hv hd hkept hq
    (LiveRange.wellFormed_defineAt hvo.separated hvo.ordered hvo.inHull hstop
      (fun u hu => by have := (hvo.afterDef pos hd).2 u hu; omega) hr)
    (by rw [hr.safepoints, LiveRange.defineAt_safepoints, hvo.safepoints])
    (by rw [hr.spillSlot, LiveRange.defineAt_spillSlot, hvo.notConstant])
    (by rw [hr.start, LiveRange.defineAt_start]; exact hpd) k

/-- One output that is a value `n` defined at `pos`, still pending: the
invariant holds after it, and only `n` and the input sharing its register
changed. A fixed register is blocked on `[pos, pos + 1)` and, when the value
is used, the range starts at `pos + 1` behind a move; otherwise the range
starts at `pos`. Either way it is queued with the safepoints it covers. -/
theorem BuildInv.processOutputValue
    (h : BuildInv b blocks nV (OpenIn blk) (fun r => r.BlockingAt lo pos (pos + 1)) pos S s)
    (hwf : BlocksWF b blocks nV) (hb : blk ∈ blocks) {ins : RangeInstr} (hi : ins ∈ blk.instrs)
    (hpos : ins.pos = pos) (hlo : lo ≤ pos) {n : Nat} (hn : (n : Int) ∈ ins.outs.map Prod.fst)
    (hp : Pending b blocks nV blk s n) {sq : Option (Nat × Nat)} (hsq : ∀ q ∈ sq, q.2 ∈ ins.inputVregs)
    (outSlot : Nat) (il : Bool) (kind : RegisterKind) :
    BuildInv b blocks nV (OpenIn blk) (fun r => r.BlockingAt lo pos (pos + 1)) pos S
        (processOneOutput b s blk.startPos pos outSlot n sq il kind) ∧
      ValuesFrame nV (fun j => (j : Int) = n ∨ ∃ q ∈ sq, j = q.2) s
        (processOneOutput b s blk.startPos pos outSlot n sq il kind) := by
  have hd : DefinedAt blocks n pos := ⟨blk, hb, .inl ⟨ins, hi, hpos, hn⟩⟩
  have hkept : ∀ p, safepointKept b blocks n p = (p.1 != pos) := fun p => hpos ▸ hwf.safepointKept_of_instr hb hi hn p
  have hns : ¬Open blocks pos n := fun ho => lt_irrefl _ (ho pos hd)
  have hvo := hp.open_
  have hafter := hvo.afterDef pos hd
  have hTn : ∀ i < nV, ¬((i : Int) = n ∨ ∃ q ∈ sq, i = q.2) → i ≠ n := fun i _ hT e => hT (.inl (congrArg _ e))
  unfold LinearScan.processOneOutput
  simp only [if_pos (Int.ofNat_nonneg n), h.liveRanges n]
  by_cases hm : (s.alloc.slots outSlot).isMachineRegister = true
  · rw [if_pos hm]
    have h1 := h.blockLocation b (s.alloc.slots outSlot) hlo (Nat.lt_succ_self pos)
    have f1 := h.valuesFrame_blockLocation (T := fun j => (j : Int) = n ∨ ∃ q ∈ sq, j = q.2) (s.alloc.slots outSlot)
      pos (pos + 1)
    obtain ⟨e1, hq1⟩ := h.valuesFrame_blockLocation (T := fun _ => False) (s.alloc.slots outSlot) pos (pos + 1)
      n hp.lt not_false
    split_ifs with hc1 hc2
    · exact ⟨h1, f1⟩
    all_goals
      obtain ⟨t, K, et, eq⟩ := connectFixedOutput_eq
        (LinearScan.blockLocation b s (s.alloc.slots outSlot) pos (pos + 1)) n pos (s.alloc.slots outSlot)
      simp only [eq] at hc2 ⊢
      have ht := h1.of_sameRanges et
      have hqt : ∀ k, n ∉ t.unallocatedOf k := fun k hk => hp.not_queued k (hq1 k (by rwa [et.unallocatedOf] at hk))
      have htn : t.alloc.ranges n = s.alloc.ranges n := by rw [et.ranges, e1]
    · exact ⟨(ht.editClosed hp.lt hns hqt (ht.vreg n hp.lt)).editClosed hp.lt hns hqt
        (by rw [LiveRange.defineAt_vreg, BuildState.updRange_ranges, if_pos rfl]; exact ht.vreg n hp.lt),
        f1.trans (et.valuesFrame.trans ((valuesFrame_updRange hTn _).trans (valuesFrame_updRange hTn _)))⟩
    · rw [BuildState.updRange_ranges, if_pos rfl, BuildState.updRange_ranges, if_pos rfl, htn,
        LiveRange.defineAt_start] at hc2
      have hstop : ∀ iv ∈ (s.alloc.ranges n).intervals.head?, pos + 1 < iv.stop := fun iv hiv => by
        rcases hp.first_stop hwf hb hi hn iv hiv with h' | hr
        · omega
        · rw [LiveRange.defineAt_stop_of_single
            (r := { s.alloc.ranges n with uses := (s.alloc.ranges n).uses.drop K }) hr] at hc2
          have := hafter.1 iv (List.mem_of_mem_head? hiv)
          omega
      refine ⟨BuildInv.finishDefined ?_ hp.lt hd hkept ?_ (hvo.dropUses K) (Nat.le_succ pos) le_rfl hstop ?_ kind, ?_⟩
      · exact ((((ht.editClosed hp.lt hns hqt (ht.vreg n hp.lt)).editClosed hp.lt hns hqt
          (by rw [LiveRange.defineAt_vreg, BuildState.updRange_ranges, if_pos rfl]; exact ht.vreg n hp.lt)).of_sameRanges
          (sameRanges_addMoveAt _ _ _ _)).editClosed hp.lt hns hqt
          (by
            rw [LiveRange.UsesEdit.vreg (LiveRange.usesEdit_addHintedUse _ _ _ _), BuildState.addMoveAt_ranges,
              BuildState.updRange_ranges, if_pos rfl, LiveRange.defineAt_vreg, BuildState.updRange_ranges, if_pos rfl]
            exact ht.vreg n hp.lt))
      · exact hqt
      · rw [BuildState.updRange_ranges, if_pos rfl, BuildState.addMoveAt_ranges, BuildState.updRange_ranges, if_pos rfl,
          BuildState.updRange_ranges, if_pos rfl, htn]
        exact LiveRange.usesEdit_addHintedUse _ _ _ _
      · exact f1.trans (et.valuesFrame.trans ((valuesFrame_updRange hTn _).trans ((valuesFrame_updRange hTn _).trans
          ((sameRanges_addMoveAt _ _ _ _).valuesFrame.trans ((valuesFrame_updRange hTn _).trans
            ((valuesFrame_updRange hTn _).trans (valuesFrame_completeRange hTn _)))))))
  · rw [if_neg hm]
    have hstop : ∀ iv ∈ (s.alloc.ranges n).intervals.head?, pos < iv.stop :=
      fun iv hiv => hafter.1 iv (List.mem_of_mem_head? hiv)
    rcases sq with _ | ⟨inSlot, w⟩
    · -- the output's own register
      refine ⟨BuildInv.finishDefined (h.editClosed hp.lt hns hp.not_queued ?_) hp.lt hd hkept hp.not_queued hvo le_rfl
        (Nat.le_succ pos) hstop ?_ kind,
        (valuesFrame_updRange hTn _).trans ((valuesFrame_updRange hTn _).trans (valuesFrame_completeRange hTn _))⟩
      · rw [(LiveRange.usesEdit_addUse _ _ _).vreg, LiveRange.defineAt_vreg]; exact h.vreg n hp.lt
      · rw [BuildState.updRange_ranges, if_pos rfl]; exact LiveRange.usesEdit_addUse _ _ _
    · -- the register of the first input, which gets a use at `pos`
      have hwin := hsq (inSlot, w) rfl
      have hw := hwf.read_lt blk hb ins hi w (ins.readVregs_of_input _ hwin)
      have hdw : Open blocks pos w := fun d hd => hpos ▸ hwf.read_after_def blk hb ins hi w (ins.readVregs_of_input _ hwin) d hd
      have hwn : n ≠ w := fun e => hns (e ▸ hdw)
      have hbnd := hwf.instr_bounds hb hi
      have hTw : ∀ i < nV, ¬((i : Int) = n ∨ ∃ q ∈ some (inSlot, w), i = q.2) → i ≠ w :=
        fun i _ hT e => hT (.inr ⟨(inSlot, w), rfl, e⟩)
      dsimp only
      simp only [BuildState.addMoveAt_liveRanges, BuildState.setSlot_liveRanges, h.liveRanges w]
      have h3 := h.of_sameRanges ((sameRanges_setSlot s outSlot (s.alloc.slots inSlot)).trans
        (sameRanges_addMoveAt _ pos (.unallocated .requiresRegister)
          (if il then .unallocated .prefersRegister else .unallocated .any)))
      refine ⟨BuildInv.finishDefined ((h3.valueEdit hb (by omega) hw hdw (.inl ⟨blk, hb, ins, hi, hpos, ins.readVregs_of_input _ hwin⟩) (by omega)
        (by omega) (by omega) hdw fun r => LiveRange.usesEdit_addUse _ _ _).editClosed hp.lt hns hp.not_queued ?_)
        hp.lt hd hkept hp.not_queued hvo le_rfl (Nat.le_succ pos) hstop ?_ kind, ?_⟩
      · rw [BuildState.updRange_ranges, if_neg hwn, BuildState.addMoveAt_ranges, BuildState.setSlot_ranges]
        exact (((LiveRange.usesEdit_addHintedUse _ _ _ _).trans (LiveRange.usesEdit_addUse _ _ _)).trans
          (LiveRange.usesEdit_addUse _ _ _)).vreg.trans (by rw [LiveRange.defineAt_vreg]; exact h.vreg n hp.lt)
      · rw [BuildState.updRange_ranges, if_pos rfl, BuildState.updRange_ranges, if_neg hwn,
          BuildState.addMoveAt_ranges, BuildState.setSlot_ranges]
        exact ((LiveRange.usesEdit_addHintedUse _ _ _ _).trans (LiveRange.usesEdit_addUse _ _ _)).trans
          (LiveRange.usesEdit_addUse _ _ _)
      · exact ((sameRanges_setSlot _ _ _).trans (sameRanges_addMoveAt _ _ _ _)).valuesFrame.trans
          ((valuesFrame_updRange hTw _).trans ((valuesFrame_updRange hTn _).trans
            ((valuesFrame_updRange hTn _).trans (valuesFrame_completeRange hTn _))))

theorem makeLiveRangeForTemporary_self (s : BuildState) :
    s.makeLiveRangeForTemporary.1.alloc.ranges s.makeLiveRangeForTemporary.2 =
      LiveRange.make kTempVirtualRegister .noRepresentation :=
  newRange_self _ _

/-- One output that is no value (`vreg < 0`): a temporary. A fixed register is
blocked on `[pos, pos + 1)` and the temporary is dropped; otherwise the
temporary `[pos, pos + 1)` is queued, without safepoints. -/
theorem BuildInv.processOutputTemp
    (h : BuildInv b blocks nV (OpenIn blk) (fun r => r.BlockingAt lo pos (pos + 1)) pos S s)
    (hwf : BlocksWF b blocks nV) (hb : blk ∈ blocks) {ins : RangeInstr} (hi : ins ∈ blk.instrs)
    (hpos : ins.pos = pos) (hlo : lo ≤ pos) {vreg : Int} (hv : vreg < 0) {sq : Option (Nat × Nat)}
    (hsq : ∀ q ∈ sq, q.2 ∈ ins.inputVregs) (outSlot : Nat) (il : Bool) (kind : RegisterKind) :
    BuildInv b blocks nV (OpenIn blk) (fun r => r.BlockingAt lo pos (pos + 1)) pos S
        (processOneOutput b s blk.startPos pos outSlot vreg sq il kind) ∧
      ValuesFrame nV (fun j => (j : Int) = vreg ∨ ∃ q ∈ sq, j = q.2) s
        (processOneOutput b s blk.startPos pos outSlot vreg sq il kind) := by
  have hTf : ∀ i < nV, ¬((i : Int) = vreg ∨ ∃ q ∈ sq, i = q.2) → i ≠ s.alloc.fresh :=
    fun i hi _ => by have := h.fresh; omega
  obtain ⟨h1, hf⟩ : BuildInv b blocks nV (OpenIn blk) (fun r => r.BlockingAt lo pos (pos + 1)) pos S
      s.makeLiveRangeForTemporary.1 ∧ Free nV s.makeLiveRangeForTemporary.1 s.makeLiveRangeForTemporary.2 :=
    h.newRange _
  have f1 : ValuesFrame nV (fun j => (j : Int) = vreg ∨ ∃ q ∈ sq, j = q.2) s s.makeLiveRangeForTemporary.1 :=
    valuesFrame_newRange h.fresh _
  have hmk := makeLiveRangeForTemporary_self s
  unfold LinearScan.processOneOutput
  simp only [if_neg (show ¬(0 : Int) ≤ vreg by omega)]
  by_cases hm : (s.makeLiveRangeForTemporary.1.alloc.slots outSlot).isMachineRegister = true
  · rw [if_pos hm, if_pos (by
      simp only [Bool.or_eq_true, decide_eq_true_eq, hf.blockLocation_ranges, hmk]; exact .inl rfl)]
    exact ⟨h1.blockLocation b _ hlo (Nat.lt_succ_self _), f1.trans (h1.valuesFrame_blockLocation _ _ _)⟩
  rw [if_neg hm]
  rcases sq with _ | ⟨inSlot, w⟩
  · -- the output's own register
    refine ⟨BuildInv.finishTemp (h1.editFree hf _) hf.updRange ?_ kind,
      f1.trans ((valuesFrame_updRange hTf _).trans ((valuesFrame_updRange hTf _).trans (valuesFrame_completeRange hTf _)))⟩
    rw [BuildState.updRange_ranges, if_pos rfl, hmk]
    exact LiveRange.usesEdit_addUse _ _ _
  · -- the register of the first input, which gets a use at `pos`
    have hwin := hsq (inSlot, w) rfl
    have hw := hwf.read_lt blk hb ins hi w (ins.readVregs_of_input _ hwin)
    have hdw : Open blocks pos w := fun d hd => hpos ▸ hwf.read_after_def blk hb ins hi w (ins.readVregs_of_input _ hwin) d hd
    have hbnd := hwf.instr_bounds hb hi
    have hwf' : s.makeLiveRangeForTemporary.2 ≠ w := by
      have := h.fresh; show s.alloc.fresh ≠ w; omega
    dsimp only
    simp only [BuildState.addMoveAt_liveRanges, BuildState.setSlot_liveRanges, h1.liveRanges w]
    have e3 := (sameRanges_setSlot s.makeLiveRangeForTemporary.1 outSlot
      (s.makeLiveRangeForTemporary.1.alloc.slots inSlot)).trans (sameRanges_addMoveAt _ pos
        (.unallocated .requiresRegister) (if il then .unallocated .prefersRegister else .unallocated .any))
    have hTw : ∀ i < nV, ¬((i : Int) = vreg ∨ ∃ q ∈ some (inSlot, w), i = q.2) → i ≠ w :=
      fun i _ hT e => hT (.inr ⟨(inSlot, w), rfl, e⟩)
    refine ⟨BuildInv.finishTemp ((((h1.of_sameRanges e3).valueEdit hb (by omega) hw hdw (.inl ⟨blk, hb, ins, hi, hpos, ins.readVregs_of_input _ hwin⟩)
      (by omega) (by omega) (by omega) hdw fun r => LiveRange.usesEdit_addUse _ _ _).editFree
        (hf.of_sameRanges e3).updRange _)) (hf.of_sameRanges e3).updRange.updRange ?_ kind,
      f1.trans (e3.valuesFrame.trans ((valuesFrame_updRange hTw _).trans ((valuesFrame_updRange hTf _).trans
        ((valuesFrame_updRange hTf _).trans (valuesFrame_completeRange hTf _)))))⟩
    rw [BuildState.updRange_ranges, if_pos rfl, BuildState.updRange_ranges, if_neg hwf', BuildState.addMoveAt_ranges,
      BuildState.setSlot_ranges, hmk]
    exact ((LiveRange.usesEdit_addHintedUse _ _ _ _).trans (LiveRange.usesEdit_addUse _ _ _)).trans
      (LiveRange.usesEdit_addUse _ _ _)

/-- An output of an instruction the walk has not reached is pending. -/
theorem BuildInv.pending {bshape : LiveRange → Prop} (h : BuildInv b blocks nV (OpenIn blk) bshape c S s)
    (hwf : BlocksWF b blocks nV) (hb : blk ∈ blocks) {ins : RangeInstr} (hi : ins ∈ blk.instrs) (hc : ins.pos < c)
    {n : Nat} (hn : (n : Int) ∈ ins.outs.map Prod.fst) : Pending b blocks nV blk s n := by
  have hd : DefinedAt blocks n ins.pos := ⟨blk, hb, .inl ⟨ins, hi, rfl, hn⟩⟩
  obtain ⟨o, ho, e⟩ := List.mem_map.1 hn
  have hv : n < nV := by
    rcases hwf.out_vreg blk hb ins hi o ho with h1 | ⟨-, h2⟩
    · rw [e, kNoVirtualRegister] at h1; omega
    · omega
  have ho' : Open blocks c n := fun d hd' => hwf.def_unique n d ins.pos hd' hd ▸ hc
  exact ⟨hv, (h.open_ n hv ho').1, (h.open_ n hv ho').2, h.not_queued hwf hv hd hc⟩

/-- The outputs of the instruction at `pos`, one after the other, each pending
when its turn comes. -/
theorem BuildInv.processOutputs (hwf : BlocksWF b blocks nV) (hb : blk ∈ blocks) {ins : RangeInstr}
    (hi : ins ∈ blk.instrs) (hpos : ins.pos = pos) (hlo : lo ≤ pos) {sq : Option (Nat × Nat)}
    (hsq : ∀ q ∈ sq, q.2 ∈ ins.inputVregs) (il : Bool) (kind : RegisterKind) :
    ∀ l : List (Int × Nat), (∀ o ∈ l, o ∈ ins.outs) →
      ((l.map Prod.fst).filter fun v => decide (0 ≤ v)).Nodup → ∀ s : BuildState,
      BuildInv b blocks nV (OpenIn blk) (fun r => r.BlockingAt lo pos (pos + 1)) pos S s →
      (∀ n : Nat, (n : Int) ∈ l.map Prod.fst → Pending b blocks nV blk s n) →
      BuildInv b blocks nV (OpenIn blk) (fun r => r.BlockingAt lo pos (pos + 1)) pos S
        (l.foldl (fun s (p : Int × Nat) => processOneOutput b s blk.startPos pos p.2 p.1 sq il kind) s)
  | [], _, _, _, h, _ => h
  | (v, k) :: l, hl, hnd, s, h, hp => by
    have hmem := hl _ (List.mem_cons_self _ _)
    obtain ⟨h', hf⟩ : BuildInv b blocks nV (OpenIn blk) (fun r => r.BlockingAt lo pos (pos + 1)) pos S
        (processOneOutput b s blk.startPos pos k v sq il kind) ∧
        ValuesFrame nV (fun j => (j : Int) = v ∨ ∃ q ∈ sq, j = q.2) s
          (processOneOutput b s blk.startPos pos k v sq il kind) := by
      by_cases hv : v < 0
      · exact h.processOutputTemp hwf hb hi hpos hlo hv hsq k il kind
      · have hv0 : 0 ≤ v := by omega
        obtain ⟨n, rfl⟩ := Int.eq_ofNat_of_zero_le hv0
        exact h.processOutputValue hwf hb hi hpos hlo (List.mem_map_of_mem Prod.fst hmem)
          (hp n (List.mem_cons_self _ _)) hsq k il kind
    refine BuildInv.processOutputs hwf hb hi hpos hlo hsq il kind l (fun o ho => hl o (List.mem_cons_of_mem _ ho))
      (hnd.sublist ((List.sublist_cons_self _ _).filter _)) _ h' fun n hn => (hp n (List.mem_cons_of_mem _ hn)).of_frame hf ?_
    rintro (e | ⟨q, hq, rfl⟩)
    · subst e
      have h0 : decide (0 ≤ (n : Int)) = true := by simp only [decide_eq_true_eq]; omega
      rw [List.map_cons, List.filter_cons_of_pos (p := fun v => decide (0 ≤ v)) h0] at hnd
      exact (List.nodup_cons.1 hnd).1 (List.mem_filter.2 ⟨hn, h0⟩)
    · obtain ⟨o, ho, e⟩ := List.mem_map.1 hn
      have hd : DefinedAt blocks q.2 pos :=
        ⟨blk, hb, .inl ⟨ins, hi, hpos, e ▸ List.mem_map_of_mem Prod.fst (hl o (List.mem_cons_of_mem _ ho))⟩⟩
      have := hwf.read_after_def blk hb ins hi q.2 (ins.readVregs_of_input _ (hsq q hq)) pos hd
      omega

end Outputs

/-! ## One instruction

`ProcessOneInstruction` in the order of the code: the constant prologue, the
first input written into a shared output, the environment, the inputs, the
register arguments, the temps, the registers a call blocks, the safepoint, and
the outputs. Each phase gets its lemma, stated on the phase's own code, and the
instruction's lemma chains them. -/

section Instruction
variable {b : BuildCtx} {blocks : List RangeBlock} {nV : Nat} {c S lo : Nat} {s : BuildState}
  {blk : RangeBlock} {ins : RangeInstr}

/-- Separated intervals, none starting before `x`: a range the walk has not
extended below `x`. -/
def LiveRange.StartsFrom (r : LiveRange) (x : Nat) : Prop :=
  r.Separated ∧ ∀ iv ∈ r.intervals, x ≤ iv.start

theorem RangeInstr.mem_inputVregs {ins : RangeInstr} {halves : List (Nat × Nat)} {p : Nat × Nat}
    (hh : halves ∈ ins.inputs) (hp : p ∈ halves) : p.1 ∈ ins.inputVregs :=
  List.mem_flatMap.2 ⟨halves, hh, List.mem_map_of_mem _ hp⟩

theorem RangeInstr.readVregs_of_moveArg {ins : RangeInstr} (mats : List (List MatInput))
    {halves : List (Nat × Nat)} {p : Nat × Nat} (hh : halves ∈ ins.moveArgs) (hp : p ∈ halves) :
    p.1 ∈ ins.readVregs mats :=
  List.mem_append_left _ (List.mem_append_right _ (List.mem_flatMap.2 ⟨halves, hh, List.mem_map_of_mem _ hp⟩))

theorem RangeInstr.readVregs_of_env {ins : RangeInstr} (mats : List (List MatInput)) {ev : EnvValue}
    (he : ev ∈ ins.env) {v : Nat} (hv : v ∈ ev.vregs mats) : v ∈ ins.readVregs mats :=
  List.mem_append_right _ (List.mem_flatMap.2 ⟨ev, he, hv⟩)

/-- The input an output shares its register with is the first input's first half. -/
theorem RangeInstr.mem_sameAsFirst (ins : RangeInstr) (flag : Bool) :
    ∀ q ∈ (if flag = true then (ins.inputs.headD []).head?.map fun (q : Nat × Nat) => (q.2, q.1) else none),
      q.2 ∈ ins.inputVregs := by
  intro q hq
  split_ifs at hq
  · obtain ⟨q', hq', rfl⟩ := Option.mem_map.1 hq
    cases e : ins.inputs with
    | nil => rw [e] at hq'; cases hq'
    | cons first rest =>
      rw [e, List.headD_cons] at hq'
      exact RangeInstr.mem_inputVregs (by rw [e]; exact List.mem_cons_self _ _) (List.mem_of_mem_head? hq')
  · cases hq

/-- A value the instruction reads is defined two positions before it or earlier. -/
theorem BlocksWF.read_gap (hwf : BlocksWF b blocks nV) (hb : blk ∈ blocks) (hi : ins ∈ blk.instrs) {v : Nat}
    (hv : v ∈ ins.readVregs b.materializations) (d : Nat) (hd : DefinedAt blocks v d) : d + 2 ≤ ins.pos := by
  have := hwf.read_after_def blk hb ins hi v hv d hd
  have := hwf.def_even hd
  have := hwf.instr_even hb hi
  omega

/-- The inputs or the register arguments, each half read at `pos`. -/
theorem BuildInv.processInputs (hwf : BlocksWF b blocks nV) (hb : blk ∈ blocks) (hi : ins ∈ blk.instrs)
    (hc : ins.pos < c) (lr : Option Nat) (l : List (List (Nat × Nat)))
    (hl : ∀ x ∈ l, ∀ p ∈ x, p.1 ∈ ins.readVregs b.materializations)
    (h : BuildInv b blocks nV (OpenIn blk) (fun r => r.BlockingAt (ins.pos - 1) (ins.pos - 1) (ins.pos + 1)) c S s) :
    BuildInv b blocks nV (OpenIn blk) (fun r => r.BlockingAt (ins.pos - 1) (ins.pos - 1) (ins.pos + 1)) c S
      (l.foldl (fun s halves => halves.foldl
        (fun s (p : Nat × Nat) => LinearScan.processOneInput b s blk.startPos ins.pos p.2 p.1 lr) s) s) := by
  have hbnd := hwf.instr_bounds hb hi
  refine List.foldlRecOn l _ s h fun t ht halves hh => List.foldlRecOn halves _ t ht fun t ht p hp => ?_
  have hin := hl halves hh p hp
  exact ht.processOneInput lr hb (hwf.read_lt blk hb ins hi _ hin)
    (fun d hd => by have := hwf.read_gap hb hi hin d hd; omega) (.inl ⟨blk, hb, ins, hi, rfl, hin⟩) hbnd.1 hbnd.2
    le_rfl (hwf.read_gap hb hi hin)

/-- One half of an environment value or a materialization input: the value's
range gets `[bs, pos + 1)` and a use at `pos + 1`. -/
theorem BuildInv.envUse {bshape : LiveRange → Prop} (h : BuildInv b blocks nV (OpenIn blk) bshape c S s)
    (hwf : BlocksWF b blocks nV) (hb : blk ∈ blocks) (hi : ins ∈ blk.instrs) (hc : ins.pos < c) {p : Nat × Nat}
    (hp : p.1 ∈ ins.readVregs b.materializations) :
    BuildInv b blocks nV (OpenIn blk) bshape c S (addEnvUse s blk.startPos (ins.pos + 1) p) := by
  have hbnd := hwf.instr_bounds hb hi
  have hde := hwf.read_gap hb hi hp
  unfold addEnvUse
  rw [h.liveRanges]
  exact (h.of_sameRanges (sameRanges_setSlot _ _ _)).valueEdit hb (by omega) (hwf.read_lt blk hb ins hi _ hp)
    (fun d hd => by have := hde d hd; omega) (.inl ⟨blk, hb, ins, hi, rfl, hp⟩) (by omega) (by omega) (by omega)
    (fun d hd => by have := hde d hd; omega) fun r => LiveRange.usesEdit_addUse _ _ _

theorem matVregs_mono (mats : List (List MatInput)) {fuel m : Nat} {inp : MatInput} (hinp : inp ∈ mats.getD m [])
    {v : Nat} (hv : v ∈ (match inp with
      | .constant _ _ => []
      | .value halves => halves.map Prod.fst
      | .materialization m' _ => matVregs mats fuel m')) : v ∈ matVregs mats (fuel + 1) m :=
  List.mem_flatMap.2 ⟨inp, hinp, hv⟩

/-- `ProcessMaterializationUses`: every value a materialization reaches within
the fuel gets a use at `pos + 1`. -/
theorem BuildInv.processMaterializationUses {bshape : LiveRange → Prop} (hwf : BlocksWF b blocks nV)
    (hb : blk ∈ blocks) (hi : ins ∈ blk.instrs) (hc : ins.pos < c) :
    ∀ (fuel : Nat) (s : BuildState) (m : Nat),
      (∀ v ∈ matVregs b.materializations fuel m, v ∈ ins.readVregs b.materializations) →
      BuildInv b blocks nV (OpenIn blk) bshape c S s →
      BuildInv b blocks nV (OpenIn blk) bshape c S
        (processMaterializationUses b blk.startPos (ins.pos + 1) fuel s m)
  | 0, _, _, _, h => h
  | fuel + 1, s, m, hm, h => by
    rw [LinearScan.processMaterializationUses]
    split_ifs
    · exact h
    refine List.foldlRecOn _ _ _ (h.of_sameRanges ⟨rfl, rfl, rfl, rfl, rfl, rfl⟩) fun t ht inp hinp => ?_
    rcases inp with ⟨c, slot⟩ | halves | ⟨m', slot⟩
    · exact ht.of_sameRanges (sameRanges_setSlot _ _ _)
    · exact List.foldlRecOn halves _ t ht fun t' ht' p hp =>
        ht'.envUse hwf hb hi hc (hm _ (matVregs_mono _ hinp (List.mem_map_of_mem _ hp)))
    · exact BuildInv.processMaterializationUses hwf hb hi hc fuel _ m'
        (fun v hv => hm v (matVregs_mono _ hinp hv)) (ht.of_sameRanges (sameRanges_setSlot _ _ _))

/-- `ProcessEnvironmentUses`: every value of the environment survives to the
instruction's end, the `:suspend_state` variable without a use. -/
theorem BuildInv.envPhase {bshape : LiveRange → Prop} (h : BuildInv b blocks nV (OpenIn blk) bshape c S s)
    (hwf : BlocksWF b blocks nV) (hb : blk ∈ blocks) (hi : ins ∈ blk.instrs) (hc : ins.pos < c) :
    BuildInv b blocks nV (OpenIn blk) bshape c S (processEnvironmentUses b s blk.startPos ins.pos ins.env) := by
  have hbnd := hwf.instr_bounds hb hi
  refine List.foldlRecOn ins.env _ s h fun t ht ev hev => ?_
  have hread := fun v (hv : v ∈ ev.vregs b.materializations) => ins.readVregs_of_env _ hev hv
  rcases ev with ⟨c, slot⟩ | slot | ⟨m, slot⟩ | halves | ⟨_ | v, slot, frameSlot⟩
  · exact ht.of_sameRanges (sameRanges_setSlot _ _ _)
  · exact ht.of_sameRanges (sameRanges_setSlot _ _ _)
  · exact BuildInv.processMaterializationUses hwf hb hi hc _ _ m (fun v hv => hread v hv)
      (ht.of_sameRanges (sameRanges_setSlot _ _ _))
  · exact List.foldlRecOn halves _ t ht fun t' ht' p hp =>
      ht'.envUse hwf hb hi hc (hread _ (List.mem_map_of_mem _ hp))
  · exact ht.of_sameRanges (sameRanges_setSlot _ _ _)
  · have hv := hread v (List.mem_singleton_self v)
    have hde := hwf.read_gap hb hi hv
    dsimp only
    rw [BuildState.setSlot_liveRanges, ht.liveRanges]
    exact (ht.of_sameRanges (sameRanges_setSlot _ _ _)).valueEdit hb (by omega) (hwf.read_lt blk hb ins hi _ hv)
      (fun d hd => by have := hde d hd; omega) (.inl ⟨blk, hb, ins, hi, rfl, hv⟩) (by omega) (by omega) (by omega)
      (fun d hd => by have := hde d hd; omega) fun r => LiveRange.UsesEdit.refl _ _

/-- The registers a call that is not callee-safe blocks, on `[pos, pos + 1)`. -/
theorem BuildInv.callPhase {shape : Nat → LiveRange → Prop} {pos : Nat}
    (h : BuildInv b blocks nV shape (fun r => r.BlockingAt lo pos (pos + 1)) c S s) (hlo : lo ≤ pos) (cond : Bool) :
    BuildInv b blocks nV shape (fun r => r.BlockingAt lo pos (pos + 1)) c S
      (if cond = true then
        (b.allRegisters .fpuRegister).foldl (fun s r => LinearScan.blockLocation b s (.fpuRegister r) pos (pos + 1))
          ((b.allRegisters .register).foldl (fun s r => LinearScan.blockLocation b s (.register r) pos (pos + 1)) s)
      else s) := by
  split_ifs
  · exact (h.foldl_at (fun t a ht => ht.blockLocation b _ hlo (Nat.lt_succ_self _)) _).foldl_at
      (fun t a ht => ht.blockLocation b _ hlo (Nat.lt_succ_self _)) _
  · exact h

/-- The instruction's safepoint, recorded when it can call. -/
theorem BuildInv.safepointPhase {shape : Nat → LiveRange → Prop} {bshape : LiveRange → Prop} {pos : Nat}
    (h : BuildInv b blocks nV shape bshape c c s) (hc : pos + 2 ≤ c) (he : pos % 2 = 0) (cond : Bool) (k : Nat) :
    BuildInv b blocks nV shape bshape c pos
      (if cond = true then { s with safepoints := s.safepoints ++ [(pos, k)] } else s) := by
  split_ifs
  · exact h.addSafepoint hc (by omega) he k
  · exact h.weaken le_rfl (by omega) (fun _ _ => id) fun _ => id

/-- The outputs, unless the first one's slot is unused: the walk is then done
from `pos` on. -/
theorem BuildInv.outputsPhase
    (h : BuildInv b blocks nV (OpenIn blk) (fun r => r.BlockingAt lo ins.pos (ins.pos + 1)) c S s)
    (hwf : BlocksWF b blocks nV) (hb : blk ∈ blocks) (hi : ins ∈ blk.instrs) (hc : ins.pos < c) (hlo : lo ≤ ins.pos)
    {sq : Option (Nat × Nat)} (hsq : ∀ q ∈ sq, q.2 ∈ ins.inputVregs) (il : Bool) :
    BuildInv b blocks nV (OpenIn blk) (fun r => r.BlockingAt lo ins.pos (ins.pos + 1)) ins.pos S
      (match ins.outs with
        | [] => s
        | (_, k) :: _ =>
          if s.alloc.slots k = .invalid then s
          else ins.outs.foldl (fun s (p : Int × Nat) =>
            processOneOutput b s blk.startPos ins.pos p.2 p.1 sq il ins.resultKind) s) := by
  have h' := h.weaken hc.le le_rfl (fun _ _ => id) fun _ => id
  split
  · exact h'
  · split_ifs
    · exact h'
    · exact BuildInv.processOutputs hwf hb hi rfl hlo hsq il _ ins.outs (fun _ => id) (hwf.out_nodup blk hb ins hi)
        s h' fun n hn => h.pending hwf hb hi hc hn

/-- `ProcessOneInstruction` at `ins.pos`, every position from `c` on done:
afterwards every position from `ins.pos` on is done. -/
theorem BuildInv.processOneInstruction
    (h : BuildInv b blocks nV (OpenIn blk) (fun r => r.StartsFrom (c - 1)) c c s)
    (hwf : BlocksWF b blocks nV) (hb : blk ∈ blocks) (hi : ins ∈ blk.instrs) (hc : ins.pos + 2 ≤ c) :
    BuildInv b blocks nV (OpenIn blk) (fun r => r.StartsFrom (ins.pos - 1)) ins.pos ins.pos
      (processOneInstruction b s blk.startPos blk.insideLoop ins) := by
  unfold LinearScan.processOneInstruction
  split
  next s' hs' =>
    exact (h.processConstant hwf hb hi (by omega) hs').weaken le_rfl (by omega : ins.pos ≤ c) (fun _ _ => id)
      fun r hr => ⟨hr.1, fun iv hiv => by have := hr.2 iv hiv; omega⟩
  next =>
    dsimp only
    refine (BuildInv.outputsPhase ?_ hwf hb hi (by omega : ins.pos < c) (Nat.sub_le ins.pos 1)
      (ins.mem_sameAsFirst _) _).weaken
      le_rfl le_rfl
      (fun _ _ => id) fun r hr => ⟨hr.1, fun iv hiv => (hr.2 iv hiv).1⟩
    refine BuildInv.safepointPhase ?_ hc (hwf.instr_even hb hi) _ _
    refine BuildInv.callPhase ?_ (by omega) _
    refine BuildInv.foldl_at ?_ (fun t a ht => ht.processTemp (by omega) a) _
    refine (BuildInv.processInputs hwf hb hi (by omega) _ _
      (fun x hx p hp => ins.readVregs_of_moveArg _ hx hp) ?_).weaken le_rfl le_rfl (fun _ _ => id)
      fun r hr => hr.mono (by omega)
    refine BuildInv.processInputs hwf hb hi (by omega) _ _ (fun x hx p hp => ?_) ?_
    · refine ins.readVregs_of_input _ (RangeInstr.mem_inputVregs ?_ hp)
      split_ifs at hx
      · exact List.mem_of_mem_drop hx
      · exact hx
    refine BuildInv.envPhase ?_ hwf hb hi (by omega)
    have h' : BuildInv b blocks nV (OpenIn blk) (fun r => r.BlockingAt (ins.pos - 1) (ins.pos - 1) (ins.pos + 1)) c c s :=
      h.weaken le_rfl le_rfl (fun _ _ => id)
        fun r hr => LiveRange.blockingAt_of_ge hr.1 (fun iv hiv => by have := hr.2 iv hiv; omega) (by omega)
    split
    · split_ifs
      · exact h'.of_sameRanges (sameRanges_setSlot _ _ _)
      · exact h'
    · exact h'

end Instruction

end LinearScan
