import LinearScan.BuildWalk
import LinearScan.RangeCut
import LinearScan.CheapEvict

/-!
# Construction at a block's entry: initial definitions and phis

A block's entry defines values: a join its phis (`ConnectIncomingPhiMoves`), a
catch entry or a function entry its initial definitions
(`ProcessInitialDefinition`). Each is defined at the entry's position, given its
safepoints and finished:

* a phi is queued whole, with every safepoint it contains
  (`BuildInv.connectIncomingPhiMoves`);
* an initial definition is not queued itself: it is assigned its register, or
  its spill slot, at the entry. What is queued is the part after the entry, cut
  at the position after it for a register parameter, or by `SplitBetween` before
  the first use that wants a register (`BuildInv.processInitialDefinition`).

The part a split hands on keeps what the queue asks of a range (`Queued`): a
split cuts the range's safepoints where it cuts its cover, since recorded
safepoints sit at even positions and their entries one after
(`Queued.splitParts`).
-/

namespace LinearScan

/-! ## The part after a split of a finished range -/

theorem LiveRange.Separated.ascending {r : LiveRange} (h : r.Separated) : IntervalsAscending r.intervals :=
  ⟨h.1, h.2.imp fun h => h.le⟩

/-- A separated range contains exactly what its intervals cover. -/
theorem LiveRange.contains_eq_cover {r : LiveRange} (h : r.Separated) (q : Nat) :
    r.contains q = intervalsCover r.intervals q := by
  show (r.canCover q && intervalsCover r.intervals q) = _
  cases hc : intervalsCover r.intervals q
  · simp
  · simp only [Bool.and_true, LiveRange.canCover, Bool.and_eq_true, decide_eq_true_eq]
    exact ⟨LiveRange.start_le_of_cover h.ascending hc, LiveRange.lt_stop_of_cover h.ascending hc⟩

/-- The entry `ToInstructionEnd(q)` of a safepoint at an even position `q` that
the range covers stays before a split at `x` exactly when `q` is before `x`. -/
theorem LiveRange.keepsAt_end {r : LiveRange} (h : r.Separated) {x q : Nat} (hq : q % 2 = 0)
    (hc : intervalsCover r.intervals q = true) : r.keepsAt x (toInstructionEnd q) = decide (q < x) := by
  have e : toInstructionEnd q = q + 1 := by unfold toInstructionEnd; omega
  rw [e, LiveRange.keepsAt]
  by_cases heq : q + 1 = x
  · have hns : r.intervals.any (·.start == x) = false := by
      refine List.any_eq_false.2 fun J hJ hs => ?_
      obtain ⟨I, hI, hIc⟩ := List.any_eq_true.1 hc
      simp only [UseInterval.contains, Bool.and_eq_true, decide_eq_true_eq] at hIc
      rw [beq_iff_eq] at hs
      have := h.1 J hJ
      rcases pairwise_mem_total h.2 hI hJ with rfl | h' | h' <;> omega
    simp [heq, hns]
    omega
  · by_cases hlt : q + 1 < x
    · simp [hlt, show q < x by omega]
    · simp [hlt, heq, show ¬q < x by omega]

/-- The entries of a value's safepoints, at the ends of the safepoints it
covers, in position order. -/
theorem coveredSafepoints_sorted {sps : List (Nat × Nat)} (hsps : sps.Pairwise fun a b => b.1 + 2 ≤ a.1)
    (kept : Nat × Nat → Bool) (r : LiveRange) :
    (LiveRange.coveredSafepoints sps kept r).Pairwise fun a b => a.pos ≤ b.pos := by
  unfold LiveRange.coveredSafepoints
  refine List.pairwise_map.2 (((List.pairwise_reverse.2 hsps).filter _).imp fun h => ?_)
  dsimp only
  unfold toInstructionEnd
  omega

/-- Everything `AssignSafepoints` records for a range is at or after its start. -/
theorem coveredSafepoints_ge {sps : List (Nat × Nat)} {kept : Nat × Nat → Bool} {r : LiveRange}
    (hsep : r.Separated) : ∀ e ∈ LiveRange.coveredSafepoints sps kept r, r.start ≤ e.pos := by
  intro e he
  obtain ⟨q, hq, rfl⟩ := List.mem_map.1 he
  rw [List.mem_filter, Bool.and_eq_true, LiveRange.contains_eq_cover hsep] at hq
  have := LiveRange.start_le_of_cover hsep.ascending hq.2.2
  show r.start ≤ toInstructionEnd q.1
  unfold toInstructionEnd
  omega

/-- A split strictly inside a well-formed range hands on a well-formed range:
each use it hands on lies in the hull of the cut interval's second half or of an
interval after it. -/
theorem LiveRange.splitParts_tail_wellFormed {r : LiveRange} (h : r.WellFormed) {x : Nat}
    (hx : r.start < x ∧ x < r.stop) (n : Nat) : (r.splitParts x n).2.WellFormed := by
  have hasc := h.separated.ascending
  have hu := (splitListOfPositions_keepsAt hasc hx (fun u : UsePosition => u.pos) h.ordered).2
  obtain ⟨A, iv, B, he, hA, hiv, hget, hcut⟩ := splitParts_cut hasc hx n
  have hB := cut_after hasc he hiv
  refine ⟨(splitParts_wf hasc hx n).2.1, (splitParts_separated h.separated x n).2,
    ?_, fun u hmem => ?_⟩
  · unfold LiveRange.UsesOrdered
    exact (show (r.splitParts x n).2.uses = _ from hu) ▸ h.ordered.filter _
  rw [show (r.splitParts x n).2.uses = _ from hu, List.mem_filter] at hmem
  obtain ⟨hmem, hkeep⟩ := hmem
  simp only [LiveRange.keepsAt, Bool.not_eq_true', Bool.or_eq_false_iff, decide_eq_false_iff_not,
    Bool.and_eq_false_iff, Bool.not_eq_false'] at hkeep
  obtain ⟨I, hI, h₁, h₂⟩ := h.inHull u hmem
  have hiv_mem : ∀ {J : UseInterval}, (J = iv ∨ J ∈ B) → x ≤ J.start → J ∈ (r.splitParts x n).2.intervals := by
    intro J hJ hs
    rcases hcut with ⟨hlt, -, e⟩ | ⟨-, -, e⟩ <;> rw [e]
    · rcases hJ with rfl | hJ
      · omega
      · exact List.mem_cons_of_mem _ hJ
    · rcases hJ with rfl | hJ
      · exact List.mem_cons_self _ _
      · exact List.mem_cons_of_mem _ hJ
  rw [he, List.mem_append, List.mem_cons] at hI
  rcases hI with hI | rfl | hI
  · -- a use at the end of an interval before the cut: the cut is at an interval's start
    have hstop := hA I hI
    obtain ⟨J, hJ, hJs⟩ := List.any_eq_true.1 ((hkeep.2.resolve_left (by omega)))
    rw [beq_iff_eq] at hJs
    have hJ' : J = iv ∨ J ∈ B := by
      rw [he, List.mem_append, List.mem_cons] at hJ
      rcases hJ with hJ | hJ | hJ
      · have := hasc.1 J (he ▸ List.mem_append_left _ hJ); have := hA J hJ; omega
      · exact .inl hJ
      · exact .inr hJ
    exact ⟨J, hiv_mem hJ' hJs.ge, by omega, by
      rcases hJ' with rfl | hJ'
      · omega
      · have := hB J hJ'; omega⟩
  · rcases hcut with ⟨hlt, -, e⟩ | ⟨hle, -, e⟩ <;> rw [e]
    · exact ⟨⟨x, I.stop⟩, List.mem_cons_self _ _, by simp only; omega, h₂⟩
    · exact ⟨I, List.mem_cons_self _ _, h₁, h₂⟩
  · exact ⟨I, hiv_mem (.inr hI) (hB I hI).le, h₁, h₂⟩

/-- A split strictly inside a range whose safepoints are the covered ones
`kept` keeps hands on a range whose safepoints are again exactly those. -/
theorem LiveRange.splitParts_tail_safepoints {r : LiveRange} (h : r.Separated) {x : Nat}
    (hx : r.start < x ∧ x < r.stop) {sps : List (Nat × Nat)} (hsps : sps.Pairwise fun a b => b.1 + 2 ≤ a.1)
    (heven : ∀ p ∈ sps, p.1 % 2 = 0) {kept : Nat × Nat → Bool}
    (hsp : r.safepoints = LiveRange.coveredSafepoints sps kept r) (n : Nat) :
    (r.splitParts x n).2.safepoints = LiveRange.coveredSafepoints sps kept (r.splitParts x n).2 := by
  have hcut := (splitListOfPositions_keepsAt h.ascending hx (fun sp : SafepointPosition => sp.pos)
    (hsp ▸ coveredSafepoints_sorted hsps kept r)).2
  rw [show (r.splitParts x n).2.safepoints = _ from hcut, hsp, LiveRange.coveredSafepoints,
    LiveRange.coveredSafepoints, List.filter_map, List.filter_filter]
  congr 1
  refine List.filter_congr fun q hq => ?_
  rw [LiveRange.contains_eq_cover h, LiveRange.contains_eq_cover (splitParts_separated h x n).2]
  cases hc : intervalsCover r.intervals q.1
  · have : intervalsCover (r.splitParts x n).2.intervals q.1 = false := by
      rw [Bool.eq_false_iff]; intro ht
      rw [(splitParts_tail_cover h.ascending hx n q.1).1 ht |>.1] at hc; cases hc
    simp [this]
  · have ht : intervalsCover (r.splitParts x n).2.intervals q.1 = decide (x ≤ q.1) := by
      rw [Bool.eq_iff_iff, splitParts_tail_cover h.ascending hx n q.1, hc]; simp
    simp only [Function.comp, LiveRange.keepsAt_end h (heven q (List.mem_reverse.1 hq)) hc, ht,
      Bool.and_true]
    rw [show decide (q.1 < x) = !decide (x ≤ q.1) from (decide_eq_decide.2 Nat.not_le.symm).trans decide_not,
      Bool.not_not, Bool.and_comm]

/-- `SplitListOfPositions` keeps nothing before a split before every position. -/
theorem splitListOfPositions_of_lt {α : Type} (posOf : α → Nat) {l : List α} {x : Nat} (b : Bool)
    (h : ∀ e ∈ l, x < posOf e) : (splitListOfPositions posOf l x b).2 = l := by
  cases l with
  | nil => rfl
  | cons e l =>
    have := h e (List.mem_cons_self _ _)
    cases b <;> simp [splitListOfPositions, List.span_eq_take_drop, List.takeWhile_cons, List.dropWhile_cons,
      show ¬posOf e ≤ x by omega, show ¬posOf e < x by omega]

section Queued
variable {b : BuildCtx} {blocks : List RangeBlock} {sps : List (Nat × Nat)} {c : Nat}

/-- What the queue asks of a range does not read its finger, its locations or
its flags. -/
theorem Queued.congr {r r' : LiveRange} (h : Queued b blocks sps c r) (hi : r'.intervals = r.intervals)
    (hu : r'.uses = r.uses) (hs : r'.safepoints = r.safepoints) (hv : r'.vreg = r.vreg) :
    Queued b blocks sps c r' := by
  obtain ⟨⟨h1, h2, h3, h4⟩, h5⟩ := h
  have hc : r'.contains = r.contains := by
    funext q; simp only [LiveRange.contains, LiveRange.canCover, LiveRange.start, LiveRange.stop, hi]
  refine ⟨⟨hi ▸ h1, by unfold LiveRange.Separated; rw [hi]; exact h2, by unfold LiveRange.UsesOrdered; rw [hu]; exact h3,
    fun u hmem => hi ▸ h4 u (hu ▸ hmem)⟩, ?_⟩
  rcases h5 with ⟨e1, e2⟩ | ⟨v, d, e1, e2, e3, e4, e5⟩
  · exact .inl ⟨hv.trans e1, hs.trans e2⟩
  · refine .inr ⟨v, d, hv.trans e1, e2, e3, by simpa [LiveRange.start, hi] using e4, ?_⟩
    rw [hs, e5, LiveRange.coveredSafepoints, LiveRange.coveredSafepoints, hc]

/-- A value's range that the queue would accept hands on, from a split before
its end, a range the queue accepts: the whole range when the split is at or
before its start, the part after the cut otherwise. -/
theorem Queued.splitParts {r : LiveRange} (h : Queued b blocks sps c r) (hv : 0 ≤ r.vreg)
    (hsps : sps.Pairwise fun a b => b.1 + 2 ≤ a.1) (heven : ∀ p ∈ sps, p.1 % 2 = 0) {x : Nat}
    (hne : r.start ≠ x) (hx : x < r.stop) (n : Nat) : Queued b blocks sps c (r.splitParts x n).2 := by
  obtain ⟨hwf, ⟨ht, -⟩ | ⟨v, d, e1, e2, e3, e4, e5⟩⟩ := h
  · rw [ht] at hv; exact absurd hv (by decide)
  have hvreg : (r.splitParts x n).2.vreg = r.vreg := rfl
  rcases Nat.lt_or_gt_of_ne hne with hlt | hlt
  · -- a cut inside the range
    refine ⟨LiveRange.splitParts_tail_wellFormed hwf ⟨hlt, hx⟩ n, .inr ⟨v, d, hvreg.trans e1, e2, e3, ?_,
      LiveRange.splitParts_tail_safepoints hwf.separated ⟨hlt, hx⟩ hsps heven e5 n⟩⟩
    exact e4.trans (hlt.le.trans (splitParts_bounds hwf.separated.ascending ⟨hlt, hx⟩ n).2.1)
  · -- a cut before the range: the sibling is the whole range
    obtain ⟨-, -, hTi, hTu⟩ := splitParts_of_lt_start hwf.separated.ascending hwf.ne_nil hlt
      (fun u hu => LiveRange.start_le_use hwf.separated.ascending hwf.inHull hu) n
    have hTs : (r.splitParts x n).2.safepoints = r.safepoints :=
      splitListOfPositions_of_lt _ _ fun e he => hlt.trans_le (coveredSafepoints_ge hwf.separated e (e5 ▸ he))
    exact Queued.congr ⟨hwf, .inr ⟨v, d, e1, e2, e3, e4, e5⟩⟩ hTi hTu hTs hvreg

end Queued

/-! ## Steps that change one value's range

At a block's entry the walk finishes the values the entry defines one at a
time. Each step changes, among the ranges, the range of its own value only
(`EditsOnly`), besides location slots, moves and the allocator's side tables,
and it may queue new ranges. -/

section Edits
variable {b : BuildCtx} {blocks : List RangeBlock} {nV : Nat} {shape : Nat → LiveRange → Prop}
  {bshape : LiveRange → Prop} {c S v : Nat} {s s' s'' : BuildState}

/-- `s'` is `s` with at most the range `v` changed among the ranges, and the
same worklists, blocking ranges and recorded safepoints. -/
structure EditsOnly (v : Nat) (s s' : BuildState) : Prop where
  ranges : ∀ j, j ≠ v → s'.alloc.ranges j = s.alloc.ranges j
  fresh : s'.alloc.fresh = s.alloc.fresh
  liveRanges : s'.alloc.liveRanges = s.alloc.liveRanges
  blocking : s'.blocking = s.blocking
  unallocatedOf : s'.unallocatedOf = s.unallocatedOf
  safepoints : s'.safepoints = s.safepoints

theorem EditsOnly.trans (e : EditsOnly v s s') (e' : EditsOnly v s' s'') : EditsOnly v s s'' :=
  ⟨fun j hj => (e'.ranges j hj).trans (e.ranges j hj), e'.fresh.trans e.fresh, e'.liveRanges.trans e.liveRanges,
    e'.blocking.trans e.blocking, e'.unallocatedOf.trans e.unallocatedOf, e'.safepoints.trans e.safepoints⟩

theorem SameRanges.editsOnly (e : SameRanges s s') (v : Nat) : EditsOnly v s s' :=
  ⟨fun _ _ => by rw [e.ranges], e.fresh, e.liveRanges, e.blocking, e.unallocatedOf, e.safepoints⟩

theorem editsOnly_updRange (s : BuildState) (v : Nat) (f : LiveRange → LiveRange) :
    EditsOnly v s (s.updRange v f) :=
  ⟨fun j hj => by rw [BuildState.updRange_ranges, if_neg hj], rfl, rfl, rfl, rfl, rfl⟩

theorem EditsOnly.valuesFrame (e : EditsOnly v s s') : ValuesFrame nV (· = v) s s' :=
  fun j _ hj => ⟨e.ranges j hj, fun k hk => by rwa [e.unallocatedOf] at hk⟩

/-- A step that changes only the range of a value the walk has passed and
that is not queued keeps the invariant. -/
theorem BuildInv.editsOnly (h : BuildInv b blocks nV shape bshape c S s) (e : EditsOnly v s s') (hv : v < nV)
    (hc : ¬Open blocks c v) (hq : ∀ k, v ∉ s.unallocatedOf k) (hvreg : (s'.alloc.ranges v).vreg = v) :
    BuildInv b blocks nV shape bshape c S s' where
  liveRanges := by rw [e.liveRanges]; exact h.liveRanges
  fresh := by rw [e.fresh]; exact h.fresh
  vreg j hj := by
    by_cases hjv : j = v
    · subst hjv; exact hvreg
    · rw [e.ranges j hjv]; exact h.vreg j hj
  open_ w hw ho := by
    rw [e.ranges w fun hwv => hc (hwv ▸ ho)]; exact h.open_ w hw ho
  blocking k reg id hb := by
    rw [e.blocking] at hb
    rw [e.ranges id (h.blocking_ne hb hv), e.fresh]; exact h.blocking k reg id hb
  queued k id hq' := by
    rw [e.unallocatedOf] at hq'
    rw [e.ranges id fun hid => hq k (hid ▸ hq'), e.fresh, e.safepoints]; exact h.queued k id hq'
  spsGap := by rw [e.safepoints]; exact h.spsGap
  spsGe := by rw [e.safepoints]; exact h.spsGe
  spsEven := by rw [e.safepoints]; exact h.spsEven

theorem ValuesFrame.mono {T T' : Nat → Prop} (h : ValuesFrame nV T s s') (hT : ∀ j, T j → T' j) :
    ValuesFrame nV T' s s' :=
  fun j hj hT' => h j hj fun hT'' => hT' (hT j hT'')

/-- A fold whose steps each change the ranges of their own values only, the
values of distinct steps distinct: what a step needs of its values, and what
it leaves of them, no other step's frame can break, so every step gets the
first and every value ends with the second. -/
theorem ValuesFrame.foldl (nV : Nat) {α : Type} {Inv : BuildState → Prop} {step : BuildState → α → BuildState}
    (keys : α → List Nat) {P Q : α → BuildState → Prop}
    (hP : ∀ a t t' (T : Nat → Prop), P a t → ValuesFrame nV T t t' → (∀ w ∈ keys a, ¬T w) → P a t')
    (hQ : ∀ a t t' (T : Nat → Prop), Q a t → ValuesFrame nV T t t' → (∀ w ∈ keys a, ¬T w) → Q a t')
    (hstep : ∀ a t, Inv t → P a t → Inv (step t a) ∧ Q a (step t a) ∧ ValuesFrame nV (· ∈ keys a) t (step t a)) :
    ∀ (l : List α) (t : BuildState), (l.flatMap keys).Nodup → Inv t → (∀ a ∈ l, P a t) →
      Inv (l.foldl step t) ∧ (∀ a ∈ l, Q a (l.foldl step t)) ∧
        ValuesFrame nV (· ∈ l.flatMap keys) t (l.foldl step t)
  | [], t, _, h, _ => ⟨h, fun _ h => absurd h (List.not_mem_nil _), ValuesFrame.refl t⟩
  | a :: l, t, hnd, h, hp => by
    rw [List.flatMap_cons, List.nodup_append] at hnd
    obtain ⟨h1, hq1, f1⟩ := hstep a t h (hp a (List.mem_cons_self _ _))
    obtain ⟨h2, hq2, f2⟩ := ValuesFrame.foldl nV keys hP hQ hstep l _ hnd.2.1 h1 fun a' ha' =>
      hP a' t _ _ (hp a' (List.mem_cons_of_mem _ ha')) f1 fun w hw hwa => hnd.2.2 hwa (List.mem_flatMap.2 ⟨a', ha', hw⟩)
    refine ⟨h2, fun a' ha' => ?_, (f1.mono fun w hw => List.mem_flatMap.2 ⟨a, List.mem_cons_self _ _, hw⟩).trans
      (f2.mono fun w hw => ?_)⟩
    · rcases List.mem_cons.1 ha' with rfl | ha'
      · exact hQ a' _ _ _ hq1 f2 fun w hw hwl => hnd.2.2 hw hwl
      · exact hq2 a' ha'
    · obtain ⟨a', ha', hw'⟩ := List.mem_flatMap.1 hw
      exact List.mem_flatMap.2 ⟨a', List.mem_cons_of_mem _ ha', hw'⟩

end Edits

/-! ## `CompleteRange(defn, range)` -/

section Complete
variable (b : BuildCtx)

theorem sameRanges_convertStackUses (loc : Location) :
    ∀ (s : BuildState) (us : List UsePosition), SameRanges s (convertStackUses loc s us).1
  | _, [] => ⟨rfl, rfl, rfl, rfl, rfl, rfl⟩
  | s, u :: us => by
    simp only [convertStackUses]
    split_ifs
    · exact (sameRanges_setSlot s u.slot loc).trans (sameRanges_convertStackUses loc _ us)
    · exact sameRanges_convertStackUses loc s us

/-- The use walk keeps some of the uses, in their order. -/
theorem convertStackUses_sublist (loc : Location) :
    ∀ (s : BuildState) (us : List UsePosition), List.Sublist (convertStackUses loc s us).2 us
  | _, [] => List.Sublist.slnil
  | s, u :: us => by
    simp only [convertStackUses]
    split_ifs
    · exact (convertStackUses_sublist loc _ us).cons u
    · exact (convertStackUses_sublist loc s us).cons₂ u

/-- The reservation changes the range's spill slot, and no other range. -/
theorem reserveStackSpillSlot_edits (s : BuildState) (id : Nat) :
    EditsOnly id s (reserveStackSpillSlot b s id) ∧
      (reserveStackSpillSlot b s id).alloc.ranges id =
        { s.alloc.ranges id with spillSlot := ((reserveStackSpillSlot b s id).alloc.ranges id).spillSlot } := by
  unfold reserveStackSpillSlot
  dsimp only
  split_ifs
  · refine ⟨⟨fun j hj => ?_, ?_, ?_, rfl, rfl, rfl⟩, ?_⟩
    · rw [markAsObjectAtSafepoints_ranges, allocateSpillSlotForRange_ranges_ne _ _ _ hj]
      simp [AllocState.setRange, hj]
    · exact markAsObjectAtSafepoints_keep _ AllocState.fresh (fun _ _ _ => rfl) _ _
    · exact markAsObjectAtSafepoints_keep _ AllocState.liveRanges (fun _ _ _ => rfl) _ _
    · rw [markAsObjectAtSafepoints_ranges, allocateSpillSlotForRange_self]
      simp [AllocState.setRange]
  · refine ⟨⟨fun j hj => ?_, rfl, rfl, rfl, rfl, rfl⟩, ?_⟩
    · rw [allocateSpillSlotForRange_ranges_ne _ _ _ hj]
      simp [AllocState.setRange, hj]
    · rw [allocateSpillSlotForRange_self]
      simp [AllocState.setRange]
  · exact ⟨⟨fun _ _ => rfl, rfl, rfl, rfl, rfl, rfl⟩, rfl⟩

/-- `CompleteRange(defn, range)` changes the range `id` only: its intervals
and vreg stay, it keeps some of its uses in order, and its safepoints are the
ones `AssignSafepoints` records. -/
theorem completeRangeDefn_edits (s : BuildState) (skip : Nat → Bool) (id : Nat) :
    let s' := completeRangeDefn b s skip id
    EditsOnly id s s' ∧ (s'.alloc.ranges id).intervals = (s.alloc.ranges id).intervals ∧
      (s'.alloc.ranges id).vreg = (s.alloc.ranges id).vreg ∧ List.Sublist (s'.alloc.ranges id).uses (s.alloc.ranges id).uses ∧
      (s'.alloc.ranges id).safepoints =
        (assignSafepointsFrom b skip s.safepoints.reverse (s.alloc.ranges id)).safepoints := by
  obtain ⟨sps, hsp⟩ := assignSafepointsFrom_eq b skip s.safepoints.reverse (s.alloc.ranges id)
  have e1 := editsOnly_updRange s id (assignSafepointsFrom b skip s.safepoints.reverse)
  have hr1 : (assignSafepoints b s skip id).alloc.ranges id = { s.alloc.ranges id with safepoints := sps } := by
    simp [assignSafepoints, hsp]
  dsimp only [completeRangeDefn]
  split_ifs
  · rw [hr1, hsp]
    exact ⟨e1, rfl, rfl, List.Sublist.refl _, rfl⟩
  · obtain ⟨e2, hr2⟩ := reserveStackSpillSlot_edits b (assignSafepoints b s skip id) id
    set t := reserveStackSpillSlot b (assignSafepoints b s skip id) id
    have e3 := (sameRanges_convertStackUses (t.alloc.ranges id).spillSlot t (t.alloc.ranges id).uses).editsOnly id
    refine ⟨e1.trans (e2.trans (e3.trans (editsOnly_updRange _ id _))), ?_⟩
    simp only [BuildState.updRange_ranges, if_true, convertStackUses_ranges]
    refine ⟨by rw [hr2, hr1], by rw [hr2, hr1], ?_, by rw [hr2, hr1, hsp]⟩
    refine (convertStackUses_sublist _ _ _).trans ?_
    rw [hr2, hr1]

end Complete

/-! ## Initial definitions

`ProcessInitialDefinition` finishes a value at its entry: its range, defined at
the entry (`DefinedRange`), is completed with the safepoints it keeps, then cut
after the entry or before its first use that wants a register, and the part
after the cut is queued (`BuildInv.processInitialDefinition`). The cut lies
inside the range because every use lies inside a block, whose start the
context's `block_start` agrees with. -/

/-- The range of a value at its definition at `pos`, before `CompleteRange`:
well formed, from `pos` on, without safepoints, and every use strictly inside
a block. -/
structure DefinedRange (blocks : List RangeBlock) (pos : Nat) (r : LiveRange) : Prop where
  wellFormed : r.WellFormed
  start : r.start = pos
  safepoints : r.safepoints = []
  inside : ∀ u ∈ r.uses, ∃ blk ∈ blocks, blk.startPos < u.pos ∧ u.pos < blk.endPos

theorem LiveRange.WellFormed.of_uses_sublist {r r' : LiveRange} (h : r.WellFormed) (hi : r'.intervals = r.intervals)
    (hu : List.Sublist r'.uses r.uses) : r'.WellFormed where
  ne_nil := hi ▸ h.ne_nil
  separated := by unfold LiveRange.Separated; rw [hi]; exact h.separated
  ordered := List.Pairwise.sublist hu h.ordered
  inHull u hmem := hi ▸ h.inHull u (hu.subset hmem)

theorem LiveRange.contains_congr {r r' : LiveRange} (hi : r'.intervals = r.intervals) : r'.contains = r.contains := by
  funext q; simp only [LiveRange.contains, LiveRange.canCover, LiveRange.start, LiveRange.stop, hi]

theorem DefinedRange.congr {blocks : List RangeBlock} {pos : Nat} {r r' : LiveRange} (h : DefinedRange blocks pos r)
    (hi : r'.intervals = r.intervals) (hu : r'.uses = r.uses) (hs : r'.safepoints = r.safepoints) :
    DefinedRange blocks pos r' :=
  ⟨h.wellFormed.of_uses_sublist hi (hu ▸ List.Sublist.refl _), by rw [← h.start]; simp only [LiveRange.start, hi],
    hs.trans h.safepoints, fun u hmem => h.inside u (hu ▸ hmem)⟩

/-- `DefineAt(pos)` on the range a value has when the walk reaches its
definition at `pos`: every interval ends and every use lies after `pos`. -/
theorem DefinedRange.defineAt {blocks : List RangeBlock} {pos : Nat} {r : LiveRange} (hsep : r.Separated)
    (ho : r.UsesOrdered) (hh : r.UsesInHull) (hsp : r.safepoints = []) (hstop : ∀ iv ∈ r.intervals, pos < iv.stop)
    (hu : ∀ u ∈ r.uses, pos < u.pos) (hin : ∀ u ∈ r.uses, ∃ blk ∈ blocks, blk.startPos < u.pos ∧ u.pos < blk.endPos) :
    DefinedRange blocks pos (r.defineAt pos) :=
  ⟨LiveRange.wellFormed_defineAt hsep ho hh (fun iv h => hstop iv (List.mem_of_mem_head? h))
      (fun u h => (hu u h).le) (LiveRange.UsesEdit.refl _ _),
    LiveRange.defineAt_start, by rw [LiveRange.defineAt_safepoints, hsp],
    fun u h => hin u (by rwa [LiveRange.defineAt_uses] at h)⟩

theorem Finger.firstRegisterBeneficialUse_mem {f : Finger} {uses : List UsePosition} {slots : Nat → Location}
    {a : Nat} (hs : uses.Pairwise fun a b => a.pos ≤ b.pos) {p : Nat × UsePosition}
    (h : (f.firstRegisterBeneficialUse uses slots a).2 = some p) : p.2 ∈ uses ∧ a ≤ p.2.pos := by
  unfold Finger.firstRegisterBeneficialUse at h
  split at h
  · next heq => cases h; exact mem_firstUseAfter hs (List.mem_of_find?_eq_some heq)
  · cases h

/-- `SplitAt` off a range's start: the part after the cut is a new range, and
the part before it is written back. -/
theorem splitAt_eq_newRange (s : BuildState) {id x : Nat} (hid : id ≠ s.alloc.fresh)
    (hne : (s.alloc.ranges id).start ≠ x) :
    ({ s with alloc := (splitAt s.alloc id x).1 } : BuildState) =
        (s.newRange ((s.alloc.ranges id).splitParts x s.alloc.fresh).2).1.updRange id
          (fun _ => ((s.alloc.ranges id).splitParts x s.alloc.fresh).1) ∧
      (splitAt s.alloc id x).2 = s.alloc.fresh := by
  refine ⟨?_, splitAt_snd hne⟩
  simp only [splitAt, if_neg hne, BuildState.newRange, BuildState.updRange, AllocState.setRange]
  congr 2
  funext j
  split_ifs <;> simp_all

section Initial
variable {b : BuildCtx} {blocks : List RangeBlock} {nV : Nat} {shape : Nat → LiveRange → Prop}
  {bshape : LiveRange → Prop} {S pos v : Nat} {s : BuildState}

/-- `CompleteRange(defn, range)` on the range of a value defined at `pos` that
the walk has passed: the range is one the queue accepts, when the skips of
`AssignSafepoints` and the range's constant flag say what `safepointKept`
says at every safepoint the range contains. -/
theorem BuildInv.completeRangeDefn (h : BuildInv b blocks nV shape bshape pos S s) (hv : v < nV)
    (hd : DefinedAt blocks v pos) (hq : ∀ k, v ∉ s.unallocatedOf k) (hr : DefinedRange blocks pos (s.alloc.ranges v))
    (skip : Nat → Bool) (hk : ∀ p : Nat × Nat, (s.alloc.ranges v).contains p.1 = true →
      (!skip p.1 && keepsSafepoint b (s.alloc.ranges v).spillSlot.isConstant p.2) = safepointKept b blocks v p) :
    let s' := LinearScan.completeRangeDefn b s skip v
    BuildInv b blocks nV shape bshape pos S s' ∧ EditsOnly v s s' ∧
      Queued b blocks s'.safepoints pos (s'.alloc.ranges v) ∧
      List.Sublist (s'.alloc.ranges v).uses (s.alloc.ranges v).uses := by
  obtain ⟨e, hi, hvr, hu, hsp⟩ := completeRangeDefn_edits b s skip v
  have hvreg := hvr.trans (h.vreg v hv)
  refine ⟨h.editsOnly e hv (fun ho => lt_irrefl _ (ho pos hd)) hq hvreg, e,
    ⟨hr.wellFormed.of_uses_sublist hi hu, .inr ⟨v, pos, hvreg, hd, le_rfl, ?_, ?_⟩⟩, hu⟩
  · rw [← hr.start]; simp only [LiveRange.start, hi, le_refl]
  · rw [hsp, e.safepoints, assignSafepointsFrom_covered (b := b) skip _ h.spsGap hr.safepoints hk,
      LiveRange.coveredSafepoints, LiveRange.coveredSafepoints, LiveRange.contains_congr hi]

/-- Moving the finger of a queued-ready range changes nothing the invariant reads. -/
theorem BuildInv.setFinger (h : BuildInv b blocks nV shape bshape pos S s) (hv : v < nV)
    (hc : ¬Open blocks pos v) (hq : ∀ k, v ∉ s.unallocatedOf k) (hQ : Queued b blocks s.safepoints pos (s.alloc.ranges v))
    (f : LiveRange → Finger) :
    let s' := s.updRange v fun r => { r with finger := f r }
    BuildInv b blocks nV shape bshape pos S s' ∧ EditsOnly v s s' ∧
      Queued b blocks s'.safepoints pos (s'.alloc.ranges v) ∧ (s'.alloc.ranges v).uses = (s.alloc.ranges v).uses := by
  have e := editsOnly_updRange s v fun r => { r with finger := f r }
  refine ⟨h.editsOnly e hv hc hq (by simp [h.vreg v hv]), e, ?_, by simp⟩
  simp only [BuildState.updRange_ranges, if_true, BuildState.updRange_safepoints]
  exact (queued_finger _).2 hQ

/-- Splitting a finished value's range that the walk has passed at `x`, before
its end, and queueing the part after the cut: the whole range when `x` is its
start. -/
theorem BuildInv.splitQueue (h : BuildInv b blocks nV shape bshape pos S s) (hv : v < nV)
    (hc : ¬Open blocks pos v) (hq : ∀ k, v ∉ s.unallocatedOf k)
    (hQ : Queued b blocks s.safepoints pos (s.alloc.ranges v)) {x : Nat} (hx : x < (s.alloc.ranges v).stop)
    (kind : RegisterKind) :
    BuildInv b blocks nV shape bshape pos S
        (completeRange { s with alloc := (splitAt s.alloc v x).1 } (splitAt s.alloc v x).2 kind) ∧
      ValuesFrame nV (· = v) s
        (completeRange { s with alloc := (splitAt s.alloc v x).1 } (splitAt s.alloc v x).2 kind) := by
  have hvf : v ≠ s.alloc.fresh := by have := h.fresh; omega
  by_cases hst : (s.alloc.ranges v).start = x
  · rw [splitAt_of_start _ _ _ hst]
    exact ⟨h.complete (hv.trans_le h.fresh) hQ (fun _ => hc) fun k reg hb => h.blocking_ne hb hv rfl,
      valuesFrame_completeRange (fun i _ hi => hi) kind⟩
  obtain ⟨e1, e2⟩ := splitAt_eq_newRange s hvf hst
  rw [e1, e2]
  set p := (s.alloc.ranges v).splitParts x s.alloc.fresh
  obtain ⟨h1, hf⟩ := h.newRange p.2
  rw [show (s.newRange p.2).2 = s.alloc.fresh from rfl] at hf
  have e := editsOnly_updRange (s.newRange p.2).1 v fun _ => p.1
  have hnv : (s.newRange p.2).1.alloc.ranges v = s.alloc.ranges v := by
    simp [BuildState.newRange, AllocState.setRange, hvf]
  have h2 := h1.editsOnly e hv hc hq (by
    rw [BuildState.updRange_ranges, if_pos rfl, ← h.vreg v hv]; exact (splitParts_fields _ _ _).1)
  have htail : ((s.newRange p.2).1.updRange v fun _ => p.1).alloc.ranges s.alloc.fresh = p.2 := by
    rw [BuildState.updRange_ranges, if_neg hvf.symm]; exact newRange_self s p.2
  have hvreg : 0 ≤ (s.alloc.ranges v).vreg := by rw [h.vreg v hv]; exact Int.ofNat_nonneg v
  refine ⟨h2.complete (e.fresh ▸ hf.lt) ?_ (fun hlt => absurd hlt (by have := hf.ge; omega))
      (e.blocking ▸ hf.not_blocking),
    (valuesFrame_newRange h.fresh _).trans (e.valuesFrame.trans (valuesFrame_completeRange (fun i hi _ => ?_) kind))⟩
  · rw [htail, e.safepoints]
    exact hQ.splitParts hvreg h.spsGap h.spsEven hst hx _
  · have := h.fresh; omega

/-- The cut of the stack path before a use `u` that wants a register, with
the part after it queued as `kind`: the cut lies before `u`, inside the range. -/
theorem BuildInv.splitBeforeUse (h : BuildInv b blocks nV shape bshape pos S s) (hlo : b.toAllocCtx.LoopOrder)
    (hbs : ∀ blk ∈ blocks, ∀ p, blk.startPos < p → p < blk.endPos → b.blockStart p = blk.startPos)
    (hv : v < nV) (hc : ¬Open blocks pos v) (hq : ∀ k, v ∉ s.unallocatedOf k)
    (hQ : Queued b blocks s.safepoints pos (s.alloc.ranges v))
    (hin : ∀ u ∈ (s.alloc.ranges v).uses, ∃ blk ∈ blocks, blk.startPos < u.pos ∧ u.pos < blk.endPos)
    {u : UsePosition} (hu : u ∈ (s.alloc.ranges v).uses) (kind : RegisterKind) :
    let p := splitBetween b.toAllocCtx s.alloc v pos u.pos
    BuildInv b blocks nV shape bshape pos S (completeRange { s with alloc := p.1 } p.2 kind) ∧
      ValuesFrame nV (· = v) s (completeRange { s with alloc := p.1 } p.2 kind) := by
  obtain ⟨blk, hb, h1, h2⟩ := hin u hu
  obtain ⟨iv, hiv, -, h3⟩ := hQ.1.inHull u hu
  have h4 := LiveRange.stop_le_stop hQ.1.separated.ascending hiv
  have h5 : splitBetweenPos b.toAllocCtx pos u.pos < u.pos := splitBetweenPos_lt hlo (show b.toAllocCtx.blockStart u.pos < u.pos by
    rw [show b.toAllocCtx.blockStart u.pos = blk.startPos from hbs blk hb u.pos h1 h2]; exact h1)
  exact h.splitQueue hv hc hq hQ (by omega) kind

/-- Writing the use slots of a range changes no range. -/
theorem sameRanges_convertAllUses (s : BuildState) (c : AllocCtx) (id : Nat) :
    SameRanges s { s with alloc := convertAllUses c s.alloc id } :=
  ⟨convertAllUses_ranges _ _ _, convertAllUses_keep _ AllocState.fresh (fun _ _ _ => rfl) (fun _ _ _ => rfl) _ _,
    convertAllUses_keep _ AllocState.liveRanges (fun _ _ _ => rfl) (fun _ _ _ => rfl) _ _, rfl, rfl, rfl⟩

/-- Reserving an incoming parameter's frame slot and marking it at the
safepoints changes no range. -/
theorem sameRanges_reserveFrameSlot (s : BuildState) (c : AllocCtx) (id : Nat) (cond : Bool) (t : SpillTable) :
    SameRanges s (if cond then { s with alloc := markAsObjectAtSafepoints c { s.alloc with spillTable := t } id }
      else s) := by
  split_ifs
  · exact ⟨markAsObjectAtSafepoints_ranges _ _ _, markAsObjectAtSafepoints_keep _ AllocState.fresh
      (fun _ _ _ => rfl) _ _, markAsObjectAtSafepoints_keep _ AllocState.liveRanges (fun _ _ _ => rfl) _ _,
      rfl, rfl, rfl⟩
  · exact ⟨rfl, rfl, rfl, rfl, rfl, rfl⟩

/-- The stack path of `ProcessInitialDefinition`: the range is completed,
its finger reset and moved to the first use that wants a register, the part
from the cut before that use queued, its uses converted and, for a parameter
in the frame, its slot reserved. Only the value's range changes besides the
new, queued one. -/
theorem BuildInv.completeInitialDefinitionInStack (h : BuildInv b blocks nV shape bshape pos S s)
    (hlo : b.toAllocCtx.LoopOrder)
    (hbs : ∀ blk ∈ blocks, ∀ p, blk.startPos < p → p < blk.endPos → b.blockStart p = blk.startPos)
    (hv : v < nV) (hd : DefinedAt blocks v pos) (hq : ∀ k, v ∉ s.unallocatedOf k)
    (hr : DefinedRange blocks pos (s.alloc.ranges v)) (skip : Nat → Bool)
    (hk : ∀ p : Nat × Nat, (s.alloc.ranges v).contains p.1 = true →
      (!skip p.1 && keepsSafepoint b (s.alloc.ranges v).spillSlot.isConstant p.2) = safepointKept b blocks v p)
    (kind : RegisterKind) (rangeEnd : Nat) (inFrame : Bool) :
    BuildInv b blocks nV shape bshape pos S (completeInitialDefinitionInStack b s kind v pos rangeEnd skip inFrame) ∧
      ValuesFrame nV (· = v) s (completeInitialDefinitionInStack b s kind v pos rangeEnd skip inFrame) := by
  have hc : ¬Open blocks pos v := fun ho => lt_irrefl _ (ho pos hd)
  obtain ⟨h1, e1, hQ1, hu1⟩ := h.completeRangeDefn hv hd hq hr skip hk
  have hq1 : ∀ k, v ∉ (LinearScan.completeRangeDefn b s skip v).unallocatedOf k := by rw [e1.unallocatedOf]; exact hq
  obtain ⟨h2, e2, hQ2, hu2⟩ := h1.setFinger hv hc hq1 hQ1 Finger.reset
  set t2 := (LinearScan.completeRangeDefn b s skip v).updRange v fun r => { r with finger := Finger.reset r }
  set R := t2.alloc.ranges v
  obtain ⟨h3, e3, hQ3, hu3⟩ := h2.setFinger hv hc (by rw [e2.unallocatedOf]; exact hq1) hQ2 fun _ =>
    (R.finger.firstRegisterBeneficialUse R.uses t2.alloc.slots pos).1
  have hq3 : ∀ k, v ∉ (t2.updRange v fun r => { r with finger :=
      (R.finger.firstRegisterBeneficialUse R.uses t2.alloc.slots pos).1 }).unallocatedOf k := by
    rw [e3.unallocatedOf, e2.unallocatedOf]; exact hq1
  have f5 := fun (t : BuildState) (cond : Bool) (tbl : SpillTable) => (sameRanges_convertAllUses t b.toAllocCtx v).trans
    (sameRanges_reserveFrameSlot _ b.toAllocCtx v cond tbl)
  unfold LinearScan.completeInitialDefinitionInStack
  dsimp only
  rcases hq2 : (R.finger.firstRegisterBeneficialUse R.uses t2.alloc.slots pos).2 with _ | ⟨k, u⟩
  · exact ⟨h3.of_sameRanges (f5 _ _ _), e1.valuesFrame.trans (e2.valuesFrame.trans (e3.valuesFrame.trans
      (f5 _ _ _).valuesFrame))⟩
  · have hu : u ∈ R.uses := (Finger.firstRegisterBeneficialUse_mem hQ2.1.ordered hq2).1
    obtain ⟨h4, f4⟩ := h3.splitBeforeUse hlo hbs hv hc hq3 hQ3
      (fun u hu => hr.inside u (hu1.subset (by rw [← hu2, ← hu3]; exact hu))) (by rw [hu3]; exact hu) kind
    exact ⟨h4.of_sameRanges (f5 _ _ _), e1.valuesFrame.trans (e2.valuesFrame.trans (e3.valuesFrame.trans
      (f4.trans (f5 _ _ _).valuesFrame)))⟩

/-- The register path of `ProcessInitialDefinition`: the range is completed,
the part after the entry queued, its uses converted, and its register blocked
at the entry. -/
theorem BuildInv.initialInRegister {lo : Nat}
    (h : BuildInv b blocks nV shape (fun r => r.BlockingAt lo pos (pos + 1)) pos S s) (hv : v < nV)
    (hd : DefinedAt blocks v pos) (hc : ¬Open blocks pos v) (hq : ∀ k, v ∉ s.unallocatedOf k)
    (hr : DefinedRange blocks pos (s.alloc.ranges v)) (skip : Nat → Bool)
    (hk : ∀ p : Nat × Nat, (s.alloc.ranges v).contains p.1 = true →
      (!skip p.1 && keepsSafepoint b (s.alloc.ranges v).spillSlot.isConstant p.2) = safepointKept b blocks v p)
    (loc : Location) (hlop : lo ≤ pos) :
    let s1 := LinearScan.completeRangeDefn b s skip v
    let s2 := if pos + 1 < (s1.alloc.ranges v).stop then splitInitialDefinitionAt s1 v (pos + 1) loc.registerKind
      else s1
    let s3 := { s2 with alloc := convertAllUses b.toAllocCtx s2.alloc v }
    BuildInv b blocks nV shape (fun r => r.BlockingAt lo pos (pos + 1)) pos S (LinearScan.blockLocation b s3 loc pos (pos + 1)) ∧
      ValuesFrame nV (· = v) s (LinearScan.blockLocation b s3 loc pos (pos + 1)) := by
  intro s1 s2 s3
  obtain ⟨h1, e1, hQ1, -⟩ := h.completeRangeDefn hv hd hq hr skip hk
  have hq1 : ∀ k, v ∉ s1.unallocatedOf k := by rw [e1.unallocatedOf]; exact hq
  obtain ⟨h2, f2⟩ : BuildInv b blocks nV shape (fun r => r.BlockingAt lo pos (pos + 1)) pos S s2 ∧
      ValuesFrame nV (· = v) s1 s2 := by
    by_cases hx : pos + 1 < (s1.alloc.ranges v).stop
    · simp only [s2, if_pos hx, splitInitialDefinitionAt]
      exact h1.splitQueue hv hc hq1 hQ1 hx _
    · simp only [s2, if_neg hx]
      exact ⟨h1, ValuesFrame.refl s1⟩
  have e3 := sameRanges_convertAllUses s2 b.toAllocCtx v
  exact ⟨(h2.of_sameRanges e3).blockLocation b _ hlop (Nat.lt_succ_self pos),
    e1.valuesFrame.trans (f2.trans (e3.valuesFrame.trans ((h2.of_sameRanges e3).valuesFrame_blockLocation _ _ _)))⟩

theorem skipCatchEntry_comm (live : Bool) (p pos : Nat) : (live && p == pos) = (pos == p && live) := by
  cases live <;> simp [eq_comm]

/-- `ProcessInitialDefinition` for a value `v` that an initial definition `d`
of the entry at `pos` defines, its range defined there: the invariant holds
after it, and among the values only `v` changed. A parameter in a register
is queued from the position after the entry on and blocks its register at
the entry; any other range is finished in its spill slot. -/
theorem BuildInv.processInitialDefinition {lo : Nat}
    (h : BuildInv b blocks nV shape (fun r => r.BlockingAt lo pos (pos + 1)) pos S s)
    (hwf : BlocksWF b blocks nV) (hlo : b.toAllocCtx.LoopOrder)
    (hbs : ∀ blk ∈ blocks, ∀ p, blk.startPos < p → p < blk.endPos → b.blockStart p = blk.startPos)
    {blk : RangeBlock} (hb : blk ∈ blocks) (hpos : blk.startPos = pos) {d : InitialDef} (hd : d ∈ blk.initialDefs)
    (hdv : d.defines v = true) (hq : ∀ k, v ∉ s.unallocatedOf k) (hr : DefinedRange blocks pos (s.alloc.ranges v))
    (hnc : (s.alloc.ranges v).spillSlot.isConstant = false) (hlop : lo ≤ pos) (second : Bool) :
    BuildInv b blocks nV shape (fun r => r.BlockingAt lo pos (pos + 1)) pos S
        (LinearScan.processInitialDefinition b s d v pos second) ∧
      ValuesFrame nV (· = v) s (LinearScan.processInitialDefinition b s d v pos second) := by
  have hv : v < nV := hwf.entry_lt blk hb v (RangeBlock.mem_entryVregs hd hdv)
  have hdef : DefinedAt blocks v pos := hpos ▸ DefinedAt.of_initial hb hd hdv
  have hc : ¬Open blocks pos v := fun ho => lt_irrefl _ (ho pos hdef)
  have hkept := hwf.safepointKept_of_initial hb hd hdv
  rw [hpos] at hkept
  unfold LinearScan.processInitialDefinition
  rcases hval : d.value with ⟨loc, sus, live⟩ | c
  · have hloc := hwf.param_loc blk hb d hd loc sus live hval second
    have hlive : d.liveAfterCatchEntry = live := by simp [InitialDef.liveAfterCatchEntry, hval]
    have hpc : d.isConstant = false := by simp [InitialDef.isConstant, hval]
    dsimp only
    have e1 := editsOnly_updRange s v fun r => { r with assigned := loc.half second }
    have h1 := h.editsOnly e1 hv hc hq (by simp [h.vreg v hv])
    have hr1 : DefinedRange blocks pos ((s.updRange v fun r => { r with assigned := loc.half second }).alloc.ranges v) :=
      hr.congr (by simp) (by simp) (by simp)
    by_cases hreg : (loc.half second).isMachineRegister = true
    · -- a parameter in a register
      rw [if_pos hreg]
      obtain ⟨h2, f2⟩ := h1.initialInRegister hv hdef hc (by rw [e1.unallocatedOf]; exact hq) hr1
        (fun p => live && p == pos) (fun p _ => by
          simp only [BuildState.updRange_ranges, if_true, hnc, hkept, hlive, hpc, skipCatchEntry_comm])
        (loc.half second) hlop
      exact ⟨h2, e1.valuesFrame.trans f2⟩
    · -- a parameter in its spill slot
      rw [if_neg hreg]
      have e2 := editsOnly_updRange (s.updRange v fun r => { r with assigned := loc.half second }) v
        fun r => { r with spillSlot := loc.half second }
      obtain ⟨h3, f3⟩ := (h1.editsOnly e2 hv hc (by rw [e1.unallocatedOf]; exact hq) (by simp [h.vreg v hv]))
        |>.completeInitialDefinitionInStack hlo hbs hv hdef (by rw [e2.unallocatedOf, e1.unallocatedOf]; exact hq)
          (hr1.congr (by simp) (by simp) (by simp)) (fun p => live && p == pos) (fun p _ => by
            simp only [BuildState.updRange_ranges, if_true, hloc, hkept, hlive, hpc, skipCatchEntry_comm])
          d.resultKind _ _
      exact ⟨h3, e1.valuesFrame.trans (e2.valuesFrame.trans f3)⟩
  · -- a constant
    have hlive : d.liveAfterCatchEntry = false := by simp [InitialDef.liveAfterCatchEntry, hval]
    have hpc : d.isConstant = true := by simp [InitialDef.isConstant, hval]
    dsimp only
    have e1 := editsOnly_updRange s v fun r =>
      { r with assigned := Location.constant c (if second then 1 else 0),
               spillSlot := Location.constant c (if second then 1 else 0) }
    obtain ⟨h3, f3⟩ := (h.editsOnly e1 hv hc hq (by simp [h.vreg v hv])).completeInitialDefinitionInStack hlo hbs hv
      hdef (by rw [e1.unallocatedOf]; exact hq) (hr.congr (by simp) (by simp) (by simp))
      (fun p => false && p == pos) (fun p _ => by
        simp only [BuildState.updRange_ranges, if_true, hkept, hlive, hpc, Location.isConstant, Bool.false_and,
          Bool.and_false, Bool.not_false, Bool.true_and])
      d.resultKind _ _
    exact ⟨h3, e1.valuesFrame.trans f3⟩

/-- A value the entry at hand defines, not finished yet: its range is the one
the walk built, in shape `sh`, and it is not queued. -/
structure EntryPending (b : BuildCtx) (blocks : List RangeBlock) (nV : Nat) (sh : LiveRange → Prop)
    (s : BuildState) (v : Nat) : Prop where
  lt : v < nV
  open_ : ValueOpen b blocks v (s.alloc.ranges v)
  shape : sh (s.alloc.ranges v)
  not_queued : ∀ k, v ∉ s.unallocatedOf k

theorem EntryPending.of_frame {sh : LiveRange → Prop} {s' : BuildState} {T : Nat → Prop}
    (hp : EntryPending b blocks nV sh s v) (hf : ValuesFrame nV T s s') (hT : ¬T v) :
    EntryPending b blocks nV sh s' v :=
  have ⟨e, hq⟩ := hf v hp.lt hT
  ⟨hp.lt, e ▸ hp.open_, e ▸ hp.shape, fun k hk => hp.not_queued k (hq k hk)⟩

variable {lo : Nat} {blk : RangeBlock}

/-- One half of an initial definition: the value's range is defined at the
entry by `g` and processed. -/
theorem BuildInv.defineInitial (h : BuildInv b blocks nV shape (fun r => r.BlockingAt lo pos (pos + 1)) pos S s)
    (hwf : BlocksWF b blocks nV) (hlo : b.toAllocCtx.LoopOrder)
    (hbs : ∀ blk ∈ blocks, ∀ p, blk.startPos < p → p < blk.endPos → b.blockStart p = blk.startPos)
    (hb : blk ∈ blocks) (hpos : blk.startPos = pos) {d : InitialDef} (hd : d ∈ blk.initialDefs)
    (hdv : d.defines v = true) {sh : LiveRange → Prop} (hp : EntryPending b blocks nV sh s v)
    {g : LiveRange → LiveRange} (hg : DefinedRange blocks pos (g (s.alloc.ranges v)))
    (hgv : (g (s.alloc.ranges v)).vreg = (s.alloc.ranges v).vreg)
    (hgs : (g (s.alloc.ranges v)).spillSlot = (s.alloc.ranges v).spillSlot) (hlop : lo ≤ pos) (second : Bool) :
    BuildInv b blocks nV shape (fun r => r.BlockingAt lo pos (pos + 1)) pos S
        (LinearScan.processInitialDefinition b (s.updRange v g) d v pos second) ∧
      ValuesFrame nV (· = v) s (LinearScan.processInitialDefinition b (s.updRange v g) d v pos second) := by
  have hdef : DefinedAt blocks v pos := hpos ▸ DefinedAt.of_initial hb hd hdv
  have e := editsOnly_updRange s v g
  have hr : (s.updRange v g).alloc.ranges v = g (s.alloc.ranges v) := by simp
  obtain ⟨h2, f2⟩ := (h.editsOnly e hp.lt (fun ho => lt_irrefl _ (ho pos hdef)) hp.not_queued
    (by rw [hr, hgv, h.vreg v hp.lt])).processInitialDefinition hwf hlo hbs hb hpos hd hdv
      (by rw [e.unallocatedOf]; exact hp.not_queued) (hr ▸ hg) (by rw [hr, hgs]; exact hp.open_.notConstant) hlop second
  exact ⟨h2, e.valuesFrame.trans f2⟩

/-- The range a function, OSR or graph entry `[pos, E)` gives one half of
an initial definition: `[pos, E)`, defined at `pos`. -/
theorem DefinedRange.entry {r : LiveRange} {E : Nat} (h : ValueOpen b blocks v r) (hd : DefinedAt blocks v pos)
    (hsep : (r.addUseInterval pos E).Separated) (hE : pos < E) :
    DefinedRange blocks pos ((r.addUseInterval pos E).defineAt pos) :=
  have hafter := h.afterDef pos hd
  DefinedRange.defineAt hsep (by unfold LiveRange.UsesOrdered; rw [LiveRange.addUseInterval_uses]; exact h.ordered)
    (LiveRange.usesInHull_addUseInterval h.inHull) (by rw [LiveRange.addUseInterval_safepoints]; exact h.safepoints)
    (LiveRange.addUseInterval_stop_gt hafter.1 hE) (by rw [LiveRange.addUseInterval_uses]; exact hafter.2)
    (by rw [LiveRange.addUseInterval_uses]; exact h.inside)

/-- The values of an initial definition, the second half of a pair with it. -/
def InitialDef.vregs (d : InitialDef) : List Nat := d.vreg :: d.pairVreg.toList

/-- `processEntryDefs` at a function, OSR or graph entry `[pos, E)` whose
values are all pending, each range separated after `[pos, E)` is added: every
initial definition is processed, the second half of a pair first. -/
theorem BuildInv.processEntryDefs (h : BuildInv b blocks nV shape (fun r => r.BlockingAt lo pos (pos + 1)) pos S s)
    (hwf : BlocksWF b blocks nV) (hlo : b.toAllocCtx.LoopOrder)
    (hbs : ∀ blk ∈ blocks, ∀ p, blk.startPos < p → p < blk.endPos → b.blockStart p = blk.startPos)
    (hb : blk ∈ blocks) (hpos : blk.startPos = pos) {defs : List InitialDef} (hk : blk.kind = .entry defs)
    {E : Nat} (hE : pos < E) (hlop : lo ≤ pos)
    (hp : ∀ v ∈ blk.entryVregs, EntryPending b blocks nV (fun r => (r.addUseInterval pos E).Separated) s v) :
    BuildInv b blocks nV shape (fun r => r.BlockingAt lo pos (pos + 1)) pos S
      (LinearScan.processEntryDefs b s pos E defs) := by
  have hdefs : blk.initialDefs = defs := by rw [RangeBlock.initialDefs, hk]
  have hvs : blk.entryVregs = defs.flatMap InitialDef.vregs := by
    rw [RangeBlock.entryVregs, hk, hdefs]; rfl
  have half : ∀ d ∈ defs, ∀ v ∈ d.vregs, ∀ t, BuildInv b blocks nV shape (fun r => r.BlockingAt lo pos (pos + 1)) pos S t →
      EntryPending b blocks nV (fun r => (r.addUseInterval pos E).Separated) t v → ∀ second,
      let t' := LinearScan.processInitialDefinition b
        (t.updRange (t.alloc.liveRanges v) fun r => (r.addUseInterval pos E).defineAt pos) d
        (t.alloc.liveRanges v) pos second
      BuildInv b blocks nV shape (fun r => r.BlockingAt lo pos (pos + 1)) pos S t' ∧ ValuesFrame nV (· = v) t t' :=
    fun d hd v hv t ht hpv second => by
      rw [ht.liveRanges v]
      exact ht.defineInitial hwf hlo hbs hb hpos (hdefs ▸ hd) (InitialDef.defines_iff.2 hv) hpv
        (g := fun r => (r.addUseInterval pos E).defineAt pos) (DefinedRange.entry hpv.open_ (hpos ▸ DefinedAt.of_initial hb (hdefs ▸ hd) (InitialDef.defines_iff.2 hv))
          hpv.shape hE) (by simp) (by simp) hlop second
  refine (ValuesFrame.foldl nV InitialDef.vregs
    (P := fun d t => d ∈ defs ∧ ∀ v ∈ d.vregs, EntryPending b blocks nV (fun r => (r.addUseInterval pos E).Separated) t v)
    (Q := fun _ _ => True) (fun d t t' T hP hf hT => ⟨hP.1, fun v hv => (hP.2 v hv).of_frame hf (hT v hv)⟩)
    (fun _ _ _ _ _ _ _ => trivial) (fun d t ht hP => ?_) defs s (hvs ▸ hwf.entry_nodup blk hb) h
    fun d hd => ⟨hd, fun v hv => hp v (hvs ▸ List.mem_flatMap.2 ⟨d, hd, hv⟩)⟩).1
  have hvreg := List.mem_cons_self d.vreg d.pairVreg.toList
  rcases hpair : d.pairVreg with _ | v'
  · dsimp only
    obtain ⟨h1, f1⟩ := half d hP.1 d.vreg hvreg t ht (hP.2 _ hvreg) false
    exact ⟨h1, trivial, f1.mono fun j hj => hj ▸ hvreg⟩
  · have hv' : v' ∈ d.vregs := by simp [InitialDef.vregs, hpair]
    have hne : d.vreg ≠ v' := by
      have := (List.nodup_flatMap.1 (hvs ▸ hwf.entry_nodup blk hb)).1 d hP.1
      simp only [InitialDef.vregs, hpair, Option.toList_some, List.nodup_cons, List.mem_singleton] at this
      exact this.1
    dsimp only
    obtain ⟨h1, f1⟩ := half d hP.1 v' hv' t ht (hP.2 _ hv') true
    obtain ⟨h2, f2⟩ := half d hP.1 d.vreg hvreg _ h1 ((hP.2 _ hvreg).of_frame f1 hne) false
    exact ⟨h2, trivial, (f1.mono fun j hj => hj ▸ hv').trans (f2.mono fun j hj => hj ▸ hvreg)⟩

/-- `processCatchDefs` at a catch entry at `pos` whose values are all
pending: each initial definition is defined at the entry and processed. -/
theorem BuildInv.processCatchDefs (h : BuildInv b blocks nV shape (fun r => r.BlockingAt lo pos (pos + 1)) pos S s)
    (hwf : BlocksWF b blocks nV) (hlo : b.toAllocCtx.LoopOrder)
    (hbs : ∀ blk ∈ blocks, ∀ p, blk.startPos < p → p < blk.endPos → b.blockStart p = blk.startPos)
    (hb : blk ∈ blocks) (hpos : blk.startPos = pos) {locs : Nat} {defs : List InitialDef}
    (hk : blk.kind = .catchEntry locs defs) (hlop : lo ≤ pos)
    (hp : ∀ v ∈ blk.entryVregs, EntryPending b blocks nV (fun _ => True) s v) :
    BuildInv b blocks nV shape (fun r => r.BlockingAt lo pos (pos + 1)) pos S
      (LinearScan.processCatchDefs b s pos defs) := by
  have hdefs : blk.initialDefs = defs := by rw [RangeBlock.initialDefs, hk]
  have hvs : blk.entryVregs = defs.flatMap InitialDef.vregs := by
    rw [RangeBlock.entryVregs, hk, hdefs]; rfl
  refine (ValuesFrame.foldl nV InitialDef.vregs
    (P := fun d t => d ∈ defs ∧ EntryPending b blocks nV (fun _ => True) t d.vreg)
    (Q := fun _ _ => True) (fun d t t' T hP hf hT => ⟨hP.1, hP.2.of_frame hf (hT _ (List.mem_cons_self _ _))⟩)
    (fun _ _ _ _ _ _ _ => trivial) (fun d t ht hP => ?_) defs s (hvs ▸ hwf.entry_nodup blk hb) h
    fun d hd => ⟨hd, hp d.vreg (hvs ▸ List.mem_flatMap.2 ⟨d, hd, List.mem_cons_self _ _⟩)⟩).1
  have hpv := hP.2
  have hdv : d.defines d.vreg = true := by simp [InitialDef.defines]
  have hafter := hpv.open_.afterDef pos (hpos ▸ DefinedAt.of_initial hb (hdefs ▸ hP.1) hdv)
  dsimp only
  rw [ht.liveRanges]
  obtain ⟨h1, f1⟩ := ht.defineInitial hwf hlo hbs hb hpos (hdefs ▸ hP.1) hdv hpv (g := fun r => r.defineAt pos)
    (DefinedRange.defineAt hpv.open_.separated hpv.open_.ordered hpv.open_.inHull hpv.open_.safepoints hafter.1
      hafter.2 hpv.open_.inside) (by simp) (by simp) hlop false
  exact ⟨h1, trivial, f1.mono fun j hj => hj ▸ List.mem_cons_self _ _⟩

end Initial

end LinearScan
