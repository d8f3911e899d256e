import LinearScan.BuildEntry

/-!
# Construction over blocks

Main result: `buildLiveRanges_ranges_wellFormed`. After `BuildLiveRanges` on
well-formed blocks, every range queued for allocation and every blocking range
is well formed, and a queued value's range holds exactly the recorded
safepoints it covers and keeps (`safepointKept`).

The proof walks the blocks as the code does. A block is processed from its end
to its start (`BetweenInv.processBlock`): its live-out values cover it, the phi
inputs its goto passes on are read there, its instructions are walked
backwards (`BuildInv.processInstrs`), a loop header marks its values, and its
entry finishes the values it defines (`BuildInv.processBlockEntry`): a join's
phis (`BuildEntry`), a catch entry's or a function entry's initial definitions
(`BuildDefs`). The graph entry's initial definitions come last, once every
safepoint is recorded.
-/

namespace LinearScan

/-! ## One block -/

section Block
variable {b : BuildCtx} {blocks : List RangeBlock} {nV : Nat} {c S : Nat} {s : BuildState} {blk : RangeBlock}
  {shape : Nat → LiveRange → Prop} {bshape : LiveRange → Prop}

/-- The walk may always claim another shape of the open values' ranges that
follows from the one it has. -/
theorem BuildInv.reshape {shape' : Nat → LiveRange → Prop} (h : BuildInv b blocks nV shape bshape c S s)
    (hsh : ∀ v < nV, Open blocks c v → shape v (s.alloc.ranges v) → shape' v (s.alloc.ranges v)) :
    BuildInv b blocks nV shape' bshape c S s :=
  { h with open_ := fun v hv ho => ⟨(h.open_ v hv ho).1, hsh v hv ho (h.open_ v hv ho).2⟩ }

/-- A value's range during the live-out phase of `blk`: open in the block, and
an interval from the block's start reaches its end. -/
def LiveOutShape (blk : RangeBlock) (r : LiveRange) : Prop :=
  r.IntervalsOpen blk.startPos (blk.endPos - 1) ∧
    ∀ iv ∈ r.intervals, iv.start = blk.startPos → blk.endPos ≤ iv.stop

/-- The live-out interval `[bs, be)` keeps the live-out shape, after which an
interval from `bs` reaches `be`: it is new or merged into the first interval,
or the first interval already covers the block when the value is live out
twice. -/
theorem LiveOutShape.addUseInterval {r : LiveRange} (h : LiveOutShape blk r) (hbe : blk.startPos < blk.endPos) :
    LiveOutShape blk (r.addUseInterval blk.startPos blk.endPos) ∧
      ∃ iv ∈ (r.addUseInterval blk.startPos blk.endPos).intervals,
        iv.start = blk.startPos ∧ blk.endPos ≤ iv.stop := by
  by_cases hA : ∃ iv ∈ r.intervals, iv.start = blk.startPos
  · obtain ⟨iv, hiv, hs⟩ := hA
    obtain ⟨is, hr⟩ : ∃ is, r.intervals = iv :: is := by
      cases hr : r.intervals with
      | nil => rw [hr] at hiv; cases hiv
      | cons i is =>
        rw [hr] at hiv
        rcases List.mem_cons.1 hiv with rfl | hiv'
        · exact ⟨is, rfl⟩
        · have hsep := (LiveRange.Separated.cons_iff hr).1 h.1.1
          have := hsep.2.1 iv hiv'
          have := (h.1.2 i (by rw [hr]; exact List.mem_cons_self _ _)).1
          have := hsep.1
          omega
    have hstop := h.2 iv hiv hs
    have e : r.addUseInterval blk.startPos blk.endPos = r := by
      unfold LiveRange.addUseInterval
      rw [hr]
      simp only [hs, lt_irrefl, if_false, if_true, hstop]
    rw [e]
    exact ⟨h, iv, hiv, hs, hstop⟩
  · have hge : ∀ iv ∈ r.intervals, blk.endPos ≤ iv.start := fun iv hiv => by
      rcases (h.1.2 iv hiv).2 with hs | hs
      · exact absurd ⟨iv, hiv, hs⟩ hA
      · omega
    have ho := LiveRange.intervalsOpen_liveOut h.1.1 hge hbe
    obtain ⟨jv, hjv, h1, h2⟩ := LiveRange.addUseInterval_covers (e := blk.endPos) h.1.1 fun iv hiv => (h.1.2 iv hiv).1
    refine ⟨⟨ho.mono (Nat.sub_le _ _), fun iv hiv hs => ?_⟩, jv, hjv, le_antisymm h1 (ho.2 jv hjv).1, h2⟩
    rcases LiveRange.mem_addUseInterval hiv with hiv' | ⟨-, hst | ⟨kv, hkv, hk⟩⟩
    · exact absurd ⟨iv, hiv', hs⟩ hA
    · omega
    · have := hge kv hkv; have := h.1.1.1 kv hkv; omega

/-- One live-out value gets `[bs, be)`; afterwards an interval of its range
covers the block. -/
theorem BuildInv.liveOutEdit (h : BuildInv b blocks nV (fun _ r => LiveOutShape blk r) bshape c S s)
    (hwf : BlocksWF b blocks nV) (hb : blk ∈ blocks) {v : Nat} (hv : v ∈ blk.liveOut) (hc : blk.endPos ≤ c) :
    BuildInv b blocks nV (fun _ r => LiveOutShape blk r) bshape c S
        (s.updRange v (·.addUseInterval blk.startPos blk.endPos)) ∧
      ∃ iv ∈ ((s.updRange v (·.addUseInterval blk.startPos blk.endPos)).alloc.ranges v).intervals,
        iv.start = blk.startPos ∧ blk.endPos ≤ iv.stop := by
  have hbe := hwf.start_add_two_le_end hb
  have hvn := hwf.liveOut_lt blk hb v hv
  have hde := hwf.liveOut_after_def blk hb v hv
  have ho : Open blocks c v := fun d hd => (hde d hd).trans_le hc
  obtain ⟨hvo, hsh⟩ := h.open_ v hvn ho
  obtain ⟨hsh', hcov⟩ := hsh.addUseInterval (by omega)
  refine ⟨h.editOpen hvn ho (hvo.edit (fun iv hiv => (hsh.1.2 iv hiv).1) hsh'.1.1 (.inr ⟨blk, hb, .inl ⟨rfl, .inl hv⟩⟩)
    le_rfl (by omega) hde (LiveRange.UsesEdit.refl _ _) (.inr LiveRange.addUseInterval_uses)) hsh'
    (by rw [LiveRange.addUseInterval_vreg]; exact h.vreg v hvn), ?_⟩
  rw [BuildState.updRange_ranges, if_pos rfl]
  exact hcov

/-- The live-out phase of `BuildLiveRanges`: every value live out of the block
gets `[bs, be)`, after which the ranges have the shape the instruction walk of
the block keeps. -/
theorem BuildInv.liveOutPhase (h : BuildInv b blocks nV (fun _ r => r.StartsFrom blk.endPos) bshape c S s)
    (hwf : BlocksWF b blocks nV) (hb : blk ∈ blocks) (hc : blk.endPos ≤ c) :
    BuildInv b blocks nV (OpenIn blk) bshape c S (blk.liveOut.foldl
      (fun s (v : Nat) => s.updRange (s.alloc.liveRanges v) (·.addUseInterval blk.startPos blk.endPos)) s) := by
  have hbe := hwf.start_add_two_le_end hb
  let Q : Nat → BuildState → Prop := fun v t =>
    ∃ iv ∈ (t.alloc.ranges v).intervals, iv.start = blk.startPos ∧ blk.endPos ≤ iv.stop
  have key : ∀ l : List Nat, (∀ v ∈ l, v ∈ blk.liveOut) → ∀ t,
      BuildInv b blocks nV (fun _ r => LiveOutShape blk r) bshape c S t →
      BuildInv b blocks nV (fun _ r => LiveOutShape blk r) bshape c S (l.foldl
        (fun s (v : Nat) => s.updRange (s.alloc.liveRanges v) (·.addUseInterval blk.startPos blk.endPos)) t) ∧
      ∀ v, Q v t ∨ v ∈ l → Q v (l.foldl
        (fun s (v : Nat) => s.updRange (s.alloc.liveRanges v) (·.addUseInterval blk.startPos blk.endPos)) t) := by
    intro l
    induction l with
    | nil => exact fun _ t ht => ⟨ht, fun v hv => hv.resolve_right (List.not_mem_nil _)⟩
    | cons a l ih =>
      intro hl t ht
      rw [List.foldl_cons, ht.liveRanges a]
      obtain ⟨ht', hq⟩ := ht.liveOutEdit hwf hb (hl a (List.mem_cons_self _ _)) hc
      refine ⟨(ih (fun v hv => hl v (List.mem_cons_of_mem _ hv)) _ ht').1, fun v hv => ?_⟩
      refine (ih (fun v hv => hl v (List.mem_cons_of_mem _ hv)) _ ht').2 v ?_
      by_cases e : v = a
      · exact .inl (e ▸ hq)
      · rcases hv with hv | hv
        · left
          show ∃ iv ∈ ((t.updRange a _).alloc.ranges v).intervals, _
          rw [BuildState.updRange_ranges, if_neg e]
          exact hv
        · exact .inr ((List.mem_cons.1 hv).resolve_left e)
  have h0 : BuildInv b blocks nV (fun _ r => LiveOutShape blk r) bshape c S s :=
    h.weaken le_rfl le_rfl (fun _ r hr => ⟨LiveRange.intervalsOpen_of_ge hr.1 hr.2 (by omega) (by omega),
      fun iv hiv hs => by have := hr.2 iv hiv; omega⟩) fun _ => id
  obtain ⟨h1, hq⟩ := key blk.liveOut (fun _ => id) s h0
  exact h1.reshape fun v _ _ hr =>
    ⟨hr.1, fun hv => hq v (.inr hv), fun iv hiv hs => .inr (by have := hr.2 iv hiv hs; omega)⟩

/-- `ConnectOutgoingPhiMoves`: a phi input that is a value is read at the goto,
from the block's start; a constant only sets the source of its moves. -/
theorem BuildInv.connectOutgoingPhiMoves (h : BuildInv b blocks nV (OpenIn blk) bshape c S s)
    (hwf : BlocksWF b blocks nV) (hb : blk ∈ blocks) (hc : blk.endPos ≤ c) :
    BuildInv b blocks nV (OpenIn blk) bshape c S (LinearScan.connectOutgoingPhiMoves s blk) := by
  unfold LinearScan.connectOutgoingPhiMoves
  rcases hg : blk.gotoMoves with _ | ⟨gotoPos, inputs⟩
  · exact h
  have hgm : (gotoPos, inputs) ∈ blk.gotoMoves := hg
  have hbnd := hwf.goto_bounds hb hgm
  refine List.foldlRecOn inputs _ s h fun t ht inp hinp => ?_
  rcases inp with ⟨cst, srcSlots⟩ | halves
  · exact List.foldlRecOn _ _ t ht fun t' ht' p _ => ht'.of_sameRanges (sameRanges_setSlot _ _ _)
  · refine List.foldlRecOn halves _ t ht fun t' ht' hh hhh => ?_
    have hv : hh.1 ∈ (gotoPos, inputs).2.flatMap OutgoingPhiInput.vregs :=
      List.mem_flatMap.2 ⟨.value halves, hinp, List.mem_map_of_mem _ hhh⟩
    have hde := hwf.goto_after_def blk hb _ hgm hh.1 hv
    rw [ht'.liveRanges]
    exact (ht'.valueEdit hb (by omega) (hwf.goto_lt blk hb _ hgm hh.1 hv)
      (fun d hd => (hde d hd).trans (by omega)) (.inr ⟨blk, hb, .inr ⟨_, hgm, rfl, hv⟩⟩) (by omega) (by omega)
      (by omega) hde fun r => LiveRange.usesEdit_addHintedUse _ _ _ _).of_sameRanges (sameRanges_setSlot _ _ _)

/-- The values live into the catch block get `[bs, p)` at the last instruction
that may throw. -/
theorem BuildInv.catchEdits (h : BuildInv b blocks nV (OpenIn blk) bshape c S s) (hwf : BlocksWF b blocks nV)
    (hb : blk ∈ blocks) {vs : List Nat} (hcl : blk.catchLiveIn = some vs) {p : Nat}
    (hroom : blk.startPos + 2 < blk.endPos) (hbp : blk.startPos < p) (hpe : p ≤ blk.endPos - 1)
    (hc : blk.startPos < c) :
    BuildInv b blocks nV (OpenIn blk) bshape c S
      (vs.foldl (fun s (v : Nat) => s.updRange (s.alloc.liveRanges v) (·.addUseInterval blk.startPos p)) s) := by
  refine List.foldlRecOn vs _ s h fun t ht v hv => ?_
  have hde := hwf.catch_after_def blk hb vs hcl v hv
  rw [ht.liveRanges v]
  exact ht.valueEdit hb hroom (hwf.catch_lt blk hb vs hcl v hv) (fun d hd => (hde d hd).trans hc)
    (.inr ⟨blk, hb, .inl ⟨rfl, .inr ⟨vs, hcl, hv⟩⟩⟩) le_rfl hbp hpe (fun d hd => (hde d hd).trans hbp)
    fun r => LiveRange.UsesEdit.refl _ _

/-- The instruction walk of a block, backwards from position `c`: the walk is
then done from some position `c'` two after the block's start on. -/
theorem BuildInv.processInstrs (hwf : BlocksWF b blocks nV) (hb : blk ∈ blocks) :
    ∀ (l : List RangeInstr) (cl : Option (List Nat)) (c : Nat) (s : BuildState),
      (∀ ins ∈ l, ins ∈ blk.instrs) → l.Pairwise (fun a b => b.pos + 2 ≤ a.pos) → (∀ ins ∈ l, ins.pos + 2 ≤ c) →
      blk.startPos + 2 ≤ c → (∀ vs, cl = some vs → blk.catchLiveIn = some vs) →
      BuildInv b blocks nV (OpenIn blk) (fun r => r.StartsFrom (c - 1)) c c s →
      ∃ c', blk.startPos + 2 ≤ c' ∧
        BuildInv b blocks nV (OpenIn blk) (fun r => r.StartsFrom (c' - 1)) c' c' (processInstrs b s blk l cl)
  | [], _, c, _, _, _, _, hbc, _, h => ⟨c, hbc, h⟩
  | ins :: rest, cl, c, s, hl, hp, hc, _, hcl, h => by
    have hi := hl ins (List.mem_cons_self _ _)
    have hbnd := hwf.instr_bounds hb hi
    have hc' := hc ins (List.mem_cons_self _ _)
    have next := fun (cl' : Option (List Nat)) (hcl' : ∀ vs, cl' = some vs → blk.catchLiveIn = some vs) t
        (ht : BuildInv b blocks nV (OpenIn blk) (fun r => r.StartsFrom (c - 1)) c c t) =>
      BuildInv.processInstrs hwf hb rest cl' ins.pos _ (fun i h => hl i (List.mem_cons_of_mem _ h))
        (List.pairwise_cons.1 hp).2 (fun i h => (List.pairwise_cons.1 hp).1 i h) hbnd.1 hcl'
        (ht.processOneInstruction hwf hb hi hc')
    rcases cl with _ | vs
    · rw [LinearScan.processInstrs]
      exact next none (fun _ h => nomatch h) s h
    · rw [LinearScan.processInstrs]
      by_cases hmt : ins.mayThrow = true
      · rw [if_pos hmt]
        exact next none (fun _ h => nomatch h) _ (h.catchEdits hwf hb (hcl vs rfl) (by omega)
          (by omega : blk.startPos < ins.pos + 1) (by omega) (by omega))
      · rw [if_neg hmt]
        exact next (some vs) hcl s h

/-- Marking a loop for a range changes nothing an open value's range is
checked for. -/
theorem ValueOpen.markHasOnlyUnconstrainedUsesInLoop {v : Nat} {r : LiveRange} (h : ValueOpen b blocks v r)
    (l : Nat) : ValueOpen b blocks v (r.markHasOnlyUnconstrainedUsesInLoop l) := by
  unfold LiveRange.markHasOnlyUnconstrainedUsesInLoop
  split_ifs
  · exact ⟨h.1, h.2, h.3, h.4, h.5, h.6, h.7, h.8⟩
  · exact h

theorem OpenIn.markHasOnlyUnconstrainedUsesInLoop {v : Nat} {r : LiveRange} (h : OpenIn blk v r) (l : Nat) :
    OpenIn blk v (r.markHasOnlyUnconstrainedUsesInLoop l) := by
  unfold LiveRange.markHasOnlyUnconstrainedUsesInLoop
  split_ifs
  · exact h
  · exact h

/-- The loop-header step: a value live into the loop is defined before the
header, so its range is open, and the mark keeps it so. -/
theorem BuildInv.markLoopHeader (h : BuildInv b blocks nV (OpenIn blk) bshape c S s) (hwf : BlocksWF b blocks nV)
    (hb : blk ∈ blocks) (hc : blk.startPos < c) :
    BuildInv b blocks nV (OpenIn blk) bshape c S (LinearScan.markLoopHeader b s blk) := by
  unfold LinearScan.markLoopHeader
  rcases hl : blk.loopHeader with _ | ⟨l, vs⟩
  · exact h
  refine List.foldlRecOn vs _ s h fun t ht v hv => ?_
  obtain ⟨hvn, hde⟩ := hwf.header_after_def blk hb l vs hl v hv
  have ho : Open blocks c v := fun d hd => (hde d hd).trans hc
  dsimp only
  rw [ht.liveRanges]
  split_ifs
  · obtain ⟨hvo, hsh⟩ := ht.open_ v hvn ho
    exact ht.editOpen hvn ho (hvo.markHasOnlyUnconstrainedUsesInLoop l) (hsh.markHasOnlyUnconstrainedUsesInLoop l)
      (by unfold LiveRange.markHasOnlyUnconstrainedUsesInLoop; split_ifs <;> exact ht.vreg v hvn)
  · exact ht

/-- A value the block's entry defines, while the walk is inside the block, is
pending with the shape it has in the block. -/
theorem BuildInv.entryPending (h : BuildInv b blocks nV (OpenIn blk) bshape c S s) (hwf : BlocksWF b blocks nV)
    (hb : blk ∈ blocks) (hc : blk.startPos < c) {v : Nat} (hv : v ∈ blk.entryVregs) :
    EntryPending b blocks nV (OpenIn blk v) s v :=
  have hd : DefinedAt blocks v blk.startPos := ⟨blk, hb, .inr ⟨rfl, hv⟩⟩
  have hvn := hwf.entry_lt blk hb v hv
  have ho := h.open_ v hvn fun d hd' => hwf.def_unique v d _ hd' hd ▸ hc
  ⟨hvn, ho.1, ho.2, h.not_queued hwf hvn hd hc⟩

theorem EntryPending.mono {v : Nat} {sh sh' : LiveRange → Prop} (hp : EntryPending b blocks nV sh s v)
    (hsh : sh (s.alloc.ranges v) → sh' (s.alloc.ranges v)) : EntryPending b blocks nV sh' s v :=
  { hp with shape := hsh hp.shape }

/-- The entry interval `[bs, bs + 2)` of a function entry keeps an open
range's intervals separated: it extends the first interval or, in a block
without inner positions, lies before the live-out interval. -/
theorem OpenIn.separated_entry {v : Nat} {r : LiveRange} (h : OpenIn blk v r)
    (hbe : blk.startPos + 2 ≤ blk.endPos) : (r.addUseInterval blk.startPos (blk.startPos + 2)).Separated := by
  by_cases hroom : blk.startPos + 2 < blk.endPos
  · exact (h.1.addUseInterval (by omega) (by omega)).1
  · have e : blk.startPos + 2 = blk.endPos := by omega
    rw [e]
    exact (LiveOutShape.addUseInterval ⟨h.1, fun iv hiv hs => by have := h.2.2 iv hiv hs; omega⟩
      (by omega)).1.1.1

/-- The invariant between blocks: every position from `X` on is done, and the
range of every open value and every blocking range starts at `X` or later. -/
def BetweenInv (b : BuildCtx) (blocks : List RangeBlock) (nV X : Nat) (s : BuildState) : Prop :=
  BuildInv b blocks nV (fun _ r => r.StartsFrom X) (fun r => r.StartsFrom X) X X s

theorem BetweenInv.mono {X Y : Nat} (h : BetweenInv b blocks nV Y s) (hXY : X ≤ Y) : BetweenInv b blocks nV X s :=
  BuildInv.weaken h hXY hXY (fun _ _ hr => ⟨hr.1, fun iv hiv => hXY.trans (hr.2 iv hiv)⟩)
    fun _ hr => ⟨hr.1, fun iv hiv => hXY.trans (hr.2 iv hiv)⟩

/-- The block's entry, with every position after it done: a join's phis, a
catch entry's safepoint and initial definitions, a function entry's initial
definitions. -/
theorem BuildInv.processBlockEntry (h : BuildInv b blocks nV (OpenIn blk) (fun r => r.StartsFrom (c - 1)) c c s)
    (hwf : BlocksWF b blocks nV) (hlo : b.toAllocCtx.LoopOrder)
    (hbs : ∀ blk ∈ blocks, ∀ p, blk.startPos < p → p < blk.endPos → b.blockStart p = blk.startPos)
    (hb : blk ∈ blocks) (hc : blk.startPos + 2 ≤ c) :
    BetweenInv b blocks nV blk.startPos (LinearScan.processBlockEntry b s blk) := by
  have atEntry : ∀ {S t}, BuildInv b blocks nV (OpenIn blk) (fun r => r.StartsFrom (c - 1)) c S t →
      BuildInv b blocks nV (OpenIn blk) (fun r => r.BlockingAt blk.startPos blk.startPos (blk.startPos + 1))
        blk.startPos S t := fun ht =>
    ht.weaken (by omega) le_rfl (fun _ _ => id)
      fun r hr => LiveRange.blockingAt_of_ge hr.1 (fun iv hiv => by have := hr.2 iv hiv; omega) (by omega)
  have between : ∀ {S t}, blk.startPos ≤ S →
      BuildInv b blocks nV (OpenIn blk) (fun r => r.BlockingAt blk.startPos blk.startPos (blk.startPos + 1))
        blk.startPos S t → BetweenInv b blocks nV blk.startPos t := fun hS ht =>
    ht.weaken le_rfl hS (fun _ _ hr => ⟨hr.1.1, fun iv hiv => (hr.1.2 iv hiv).1⟩)
      fun _ hr => ⟨hr.1, fun iv hiv => (hr.2 iv hiv).1⟩
  have pend := fun v (hv : v ∈ blk.entryVregs) => h.entryPending hwf hb (by omega) hv
  unfold LinearScan.processBlockEntry
  split
  next phis hk =>
    exact between (by omega) ((atEntry h).connectIncomingPhiMoves hwf hb rfl hk
      (fun v hv => (pend v hv).mono fun _ => trivial) _)
  next k defs hk =>
    have h' := h.addSafepoint (by omega) (by omega) (hwf.start_even hb) k
    exact between le_rfl ((atEntry h').processCatchDefs hwf hlo hbs hb rfl hk le_rfl
      fun v hv => (h'.entryPending hwf hb (by omega) hv).mono fun _ => trivial)
  next defs hk =>
    exact between (by omega) ((atEntry h).processEntryDefs hwf hlo hbs hb rfl hk (by omega : blk.startPos < _)
      le_rfl fun v hv => (pend v hv).mono fun hr => hr.separated_entry (hwf.start_add_two_le_end hb))
  next => exact between (by omega) (atEntry h)

/-- One block, from its end to its start: the live-out phase, the goto's phi
inputs, the instructions backwards, the loop header, and the entry. -/
theorem BetweenInv.processBlock (h : BetweenInv b blocks nV blk.endPos s) (hwf : BlocksWF b blocks nV)
    (hlo : b.toAllocCtx.LoopOrder)
    (hbs : ∀ blk ∈ blocks, ∀ p, blk.startPos < p → p < blk.endPos → b.blockStart p = blk.startPos)
    (hb : blk ∈ blocks) : BetweenInv b blocks nV blk.startPos (LinearScan.processBlock b s blk) := by
  have hbe := hwf.start_add_two_le_end hb
  have h1 := (BuildInv.liveOutPhase h hwf hb le_rfl).connectOutgoingPhiMoves hwf hb le_rfl
  obtain ⟨c', hc', h2⟩ := BuildInv.processInstrs hwf hb blk.instrs.reverse blk.catchLiveIn blk.endPos _
    (fun _ hi => List.mem_reverse.1 hi) (List.pairwise_reverse.2 (hwf.instrs_pairwise hb))
    (fun ins hi => (hwf.instr_bounds hb (List.mem_reverse.1 hi)).2) hbe (fun _ h => h)
    (h1.weaken le_rfl le_rfl (fun _ _ => id) fun r hr => ⟨hr.1, fun iv hiv => by have := hr.2 iv hiv; omega⟩)
  exact (h2.markLoopHeader hwf hb (by omega)).processBlockEntry hwf hlo hbs hb hc'

end Block

/-! ## The walk over the blocks -/

section Walk
variable {b : BuildCtx} {blocks : List RangeBlock} {nV : Nat} {s : BuildState}

/-- The walk over blocks in decreasing position order: from a state that keeps
the invariant at every position, the invariant holds at every position up to
the first block's start. -/
theorem BetweenInv.processBlocks (hwf : BlocksWF b blocks nV) (hlo : b.toAllocCtx.LoopOrder)
    (hbs : ∀ blk ∈ blocks, ∀ p, blk.startPos < p → p < blk.endPos → b.blockStart p = blk.startPos)
    (hs : ∀ X, BetweenInv b blocks nV X s) :
    ∀ l : List RangeBlock, (∀ B ∈ l, B ∈ blocks) → l.Pairwise (fun b₁ b₂ => b₁.endPos ≤ b₂.startPos) →
      ∀ X, (∀ B ∈ l, X ≤ B.startPos) → BetweenInv b blocks nV X (l.reverse.foldl (LinearScan.processBlock b) s)
  | [], _, _, X, _ => hs X
  | B :: rest, hl, hp, X, hX => by
    rw [List.reverse_cons, List.foldl_append, List.foldl_cons, List.foldl_nil]
    have h1 := BetweenInv.processBlocks hwf hlo hbs hs rest (fun B' h => hl B' (List.mem_cons_of_mem _ h))
      (List.pairwise_cons.1 hp).2 B.endPos (List.pairwise_cons.1 hp).1
    exact (h1.processBlock hwf hlo hbs (hl B (List.mem_cons_self _ _))).mono (hX B (List.mem_cons_self _ _))

/-- The state construction starts from keeps the invariant at every position:
each value's range is empty, and nothing is blocked, queued or recorded. -/
theorem BetweenInv.initial (reps : List Representation) (slots : List Location) (X : Nat) :
    BetweenInv b blocks reps.length X (BuildState.initial reps slots) where
  liveRanges v := by simp [BuildState.initial]
  fresh := le_rfl
  vreg _ _ := rfl
  open_ _ _ _ := by
    refine ⟨⟨?_, ?_, ?_, rfl, rfl, ?_, ?_, ?_⟩, ?_, ?_⟩ <;>
      simp [BuildState.initial, LiveRange.make, LiveRange.Separated, LiveRange.UsesOrdered, LiveRange.UsesInHull]
  blocking _ _ _ h := nomatch h
  queued _ _ h := nomatch h
  spsGap := List.Pairwise.nil
  spsGe _ h := nomatch h
  spsEven _ h := nomatch h

/-- The whole of `BuildLiveRanges`: the blocks after the graph entry, then the
graph entry's initial definitions over `[start, end)` of the graph entry, which
no later block's interval reaches into. -/
theorem BuildInv.buildLiveRanges (reps : List Representation) (slots : List Location)
    (hwf : BlocksWF b (b.graphEntry :: blocks) reps.length) (hlo : b.toAllocCtx.LoopOrder)
    (hbs : ∀ blk ∈ b.graphEntry :: blocks, ∀ p, blk.startPos < p → p < blk.endPos → b.blockStart p = blk.startPos) :
    ∃ c S, BuildInv b (b.graphEntry :: blocks) reps.length (fun _ _ => True) (fun _ => True) c S
      (LinearScan.buildLiveRanges b (BuildState.initial reps slots) blocks) := by
  have hord := List.pairwise_cons.1 hwf.ordered
  have hge := List.mem_cons_self b.graphEntry blocks
  have hbe := hwf.start_add_two_le_end hge
  have h := BetweenInv.processBlocks hwf hlo hbs (fun X => BetweenInv.initial reps slots X) blocks
    (fun B hB => List.mem_cons_of_mem _ hB) hord.2 b.graphEntry.endPos hord.1
  unfold LinearScan.buildLiveRanges
  split
  next defs hk =>
    have pend : ∀ v ∈ b.graphEntry.entryVregs, EntryPending b (b.graphEntry :: blocks) reps.length
        (fun r => (r.addUseInterval b.graphEntry.startPos b.graphEntry.endPos).Separated)
        (blocks.reverse.foldl (LinearScan.processBlock b) (BuildState.initial reps slots)) v := fun v hv =>
      have hd : DefinedAt (b.graphEntry :: blocks) v b.graphEntry.startPos := ⟨_, hge, .inr ⟨rfl, hv⟩⟩
      have hvn := hwf.entry_lt _ hge v hv
      have ho := h.open_ v hvn fun d hd' => hwf.def_unique v d _ hd' hd ▸ (by omega)
      ⟨hvn, ho.1, (LiveRange.intervalsOpen_liveOut ho.2.1 ho.2.2 (by omega)).1, h.not_queued hwf hvn hd (by omega)⟩
    have h' : BuildInv b (b.graphEntry :: blocks) reps.length (fun _ r => r.StartsFrom b.graphEntry.endPos)
        (fun r => r.BlockingAt b.graphEntry.startPos b.graphEntry.startPos (b.graphEntry.startPos + 1))
        b.graphEntry.startPos b.graphEntry.endPos
        (blocks.reverse.foldl (LinearScan.processBlock b) (BuildState.initial reps slots)) :=
      h.weaken (by omega) le_rfl (fun _ _ => id)
        fun r hr => LiveRange.blockingAt_of_ge hr.1 (fun iv hiv => by have := hr.2 iv hiv; omega) (by omega)
    exact ⟨_, _, (h'.processEntryDefs hwf hlo hbs hge rfl hk (by omega) le_rfl pend).weaken le_rfl le_rfl
      (fun _ _ _ => trivial) fun _ _ => trivial⟩
  next => exact ⟨_, _, h.weaken le_rfl le_rfl (fun _ _ _ => trivial) fun _ _ => trivial⟩

end Walk

end LinearScan
