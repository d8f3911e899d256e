import LinearScan.BuildDefs

/-!
# Construction at a join

`ConnectIncomingPhiMoves` at a join (`BuildInv.connectIncomingPhiMoves`): each
phi half is defined at the join's start, given the destinations of its moves as
uses there, finished with every safepoint it contains, and queued.

At the join the walk has passed every position after it, so the phis are
closed in the invariant; each is tracked apart until its turn (`PhiReady`),
and each step changes its own value's range only.
-/

namespace LinearScan

/-! ## Phis -/

section Phis
variable {b : BuildCtx} {blocks : List RangeBlock} {nV : Nat} {shape : Nat → LiveRange → Prop}
  {bshape : LiveRange → Prop} {S pos v : Nat} {s : BuildState}

/-- A phi half defined at the join's start `pos`, before it is finished: its
range is an open one defined at `pos` and given uses at `pos`, and it is not
queued. -/
structure PhiReady (b : BuildCtx) (blocks : List RangeBlock) (nV pos : Nat) (s : BuildState) (v : Nat) : Prop where
  lt : v < nV
  base : ∃ r, ValueOpen b blocks v r ∧ LiveRange.UsesEdit (r.defineAt pos) (s.alloc.ranges v) pos
  not_queued : ∀ k, v ∉ s.unallocatedOf k

theorem PhiReady.of_frame {s' : BuildState} {T : Nat → Prop} (hp : PhiReady b blocks nV pos s v)
    (hf : ValuesFrame nV T s s') (hT : ¬T v) : PhiReady b blocks nV pos s' v :=
  have ⟨e, hq⟩ := hf v hp.lt hT
  ⟨hp.lt, e ▸ hp.base, fun k hk => hp.not_queued k (hq k hk)⟩

theorem LiveRange.usesEdit_isLoopPhi (r : LiveRange) (p : Nat) (flag : Bool) :
    LiveRange.UsesEdit r { r with isLoopPhi := flag } p :=
  ⟨rfl, rfl, rfl, rfl, id, fun u hu => .inl ⟨u, hu, rfl⟩⟩

/-- A phi half is defined at the join's start, and flagged when the join is a
loop header. -/
theorem BuildInv.definePhi (h : BuildInv b blocks nV shape bshape pos S s) (hdef : DefinedAt blocks v pos)
    (hp : EntryPending b blocks nV (fun _ => True) s v) (isLoopHeader : Bool) :
    let s' := s.updRange (s.alloc.liveRanges v) fun r =>
      if isLoopHeader then { r.defineAt pos with isLoopPhi := true } else r.defineAt pos
    BuildInv b blocks nV shape bshape pos S s' ∧ PhiReady b blocks nV pos s' v ∧ ValuesFrame nV (· = v) s s' := by
  rw [h.liveRanges v]
  have e := editsOnly_updRange s v fun r =>
    if isLoopHeader then { r.defineAt pos with isLoopPhi := true } else r.defineAt pos
  have hedit : LiveRange.UsesEdit ((s.alloc.ranges v).defineAt pos) ((s.updRange v fun r =>
      if isLoopHeader then { r.defineAt pos with isLoopPhi := true } else r.defineAt pos).alloc.ranges v) pos := by
    rw [BuildState.updRange_ranges, if_pos rfl]
    split_ifs
    · exact LiveRange.usesEdit_isLoopPhi _ _ _
    · exact LiveRange.UsesEdit.refl _ _
  exact ⟨h.editsOnly e hp.lt (fun ho => lt_irrefl _ (ho pos hdef)) hp.not_queued
      (by rw [hedit.vreg, LiveRange.defineAt_vreg, h.vreg v hp.lt]),
    ⟨hp.lt, ⟨_, hp.open_, hedit⟩, by rw [e.unallocatedOf]; exact hp.not_queued⟩, e.valuesFrame⟩

/-- A destination of a phi's move, which then prefers a register, is a use of
the phi half at the join's start. -/
theorem BuildInv.phiDest (h : BuildInv b blocks nV shape bshape pos S s) (hdef : DefinedAt blocks v pos)
    (hp : PhiReady b blocks nV pos s v) (slot : Nat) :
    let s' := (s.setSlot slot (.unallocated .prefersRegister)).updRange (s.alloc.liveRanges v)
      fun r => (r.addUse pos slot).1
    BuildInv b blocks nV shape bshape pos S s' ∧ PhiReady b blocks nV pos s' v ∧ ValuesFrame nV (· = v) s s' := by
  rw [h.liveRanges v]
  have e := ((sameRanges_setSlot s slot (.unallocated .prefersRegister)).editsOnly v).trans
    (editsOnly_updRange _ v fun r => (r.addUse pos slot).1)
  obtain ⟨r, hr, hedit⟩ := hp.base
  have hedit' : LiveRange.UsesEdit (r.defineAt pos) (((s.setSlot slot (.unallocated .prefersRegister)).updRange v
      fun r => (r.addUse pos slot).1).alloc.ranges v) pos := by
    rw [BuildState.updRange_ranges, if_pos rfl, BuildState.setSlot_ranges]
    exact hedit.trans (LiveRange.usesEdit_addUse _ _ _)
  exact ⟨h.editsOnly e hp.lt (fun ho => lt_irrefl _ (ho pos hdef)) hp.not_queued
      (by rw [hedit'.vreg, ← hedit.vreg, h.vreg v hp.lt]),
    ⟨hp.lt, ⟨r, hr, hedit'⟩, by rw [e.unallocatedOf]; exact hp.not_queued⟩, e.valuesFrame⟩

variable {blk : RangeBlock} {phis : List PhiDef}

/-- A phi half is finished with every safepoint it contains, and queued. -/
theorem BuildInv.finishPhi (h : BuildInv b blocks nV shape bshape pos S s) (hwf : BlocksWF b blocks nV)
    (hb : blk ∈ blocks) (hpos : blk.startPos = pos) (hk : blk.kind = .join phis) (hv : v ∈ blk.entryVregs)
    (hp : PhiReady b blocks nV pos s v) (kind : RegisterKind) :
    let s' := completeRange (assignSafepoints b s (fun _ => false) (s.alloc.liveRanges v)) (s.alloc.liveRanges v) kind
    BuildInv b blocks nV shape bshape pos S s' ∧ ValuesFrame nV (· = v) s s' := by
  have hdef : DefinedAt blocks v pos := hpos ▸ ⟨blk, hb, .inr ⟨rfl, hv⟩⟩
  obtain ⟨r, hr, hedit⟩ := hp.base
  have hafter := hr.afterDef pos hdef
  rw [h.liveRanges v]
  refine ⟨h.finishKept hp.lt hdef _ (fun p _ => ?_) hp.not_queued
    (LiveRange.wellFormed_defineAt hr.separated hr.ordered hr.inHull
      (fun iv h => hafter.1 iv (List.mem_of_mem_head? h)) (fun u h => (hafter.2 u h).le) hedit)
    (by rw [hedit.safepoints, LiveRange.defineAt_safepoints, hr.safepoints])
    (by rw [hedit.start, LiveRange.defineAt_start]) kind,
    (valuesFrame_updRange (fun i _ hi => hi) _).trans (valuesFrame_completeRange (fun i _ hi => hi) kind)⟩
  rw [hwf.safepointKept_of_join hb hk hv, hedit.spillSlot, LiveRange.defineAt_spillSlot, hr.notConstant]
  simp [keepsSafepoint]

/-- The phis' halves `vs`, distinct and pending, each defined at the join's start. -/
theorem BuildInv.definePhis (h : BuildInv b blocks nV shape bshape pos S s) {vs : List Nat} (hnd : vs.Nodup)
    (hdef : ∀ v ∈ vs, DefinedAt blocks v pos) (hp : ∀ v ∈ vs, EntryPending b blocks nV (fun _ => True) s v)
    (isLoopHeader : Bool) :
    let s' := vs.foldl (fun s (v : Nat) => s.updRange (s.alloc.liveRanges v) fun r =>
      if isLoopHeader then { r.defineAt pos with isLoopPhi := true } else r.defineAt pos) s
    BuildInv b blocks nV shape bshape pos S s' ∧ (∀ v ∈ vs, PhiReady b blocks nV pos s' v) ∧
      ValuesFrame nV (· ∈ vs) s s' := by
  obtain ⟨h1, h2, f⟩ := ValuesFrame.foldl nV (fun v => [v])
    (P := fun v t => v ∈ vs ∧ EntryPending b blocks nV (fun _ => True) t v)
    (Q := fun v t => PhiReady b blocks nV pos t v)
    (fun v t t' T hP hf hT => ⟨hP.1, hP.2.of_frame hf (hT v (List.mem_singleton_self v))⟩)
    (fun v t t' T hQ hf hT => hQ.of_frame hf (hT v (List.mem_singleton_self v)))
    (fun v t ht hP => by
      obtain ⟨h1, h2, f⟩ := ht.definePhi (hdef v hP.1) hP.2 isLoopHeader
      exact ⟨h1, h2, f.mono fun j hj => List.mem_singleton.2 hj⟩)
    vs s (by simpa using hnd) h fun v hv => ⟨hv, hp v hv⟩
  exact ⟨h1, h2, f.mono fun j hj => by simpa using hj⟩

/-- The destinations of the phis' moves from every predecessor, each a use of
its half. -/
theorem BuildInv.phiDests (h : BuildInv b blocks nV shape bshape pos S s) {vs : List Nat}
    (hdef : ∀ v ∈ vs, DefinedAt blocks v pos) (hp : ∀ v ∈ vs, PhiReady b blocks nV pos s v)
    (dests : List (List Nat)) :
    let s' := dests.foldl (fun s ds => (vs.zip ds).foldl (fun s (p : Nat × Nat) =>
      (s.setSlot p.2 (.unallocated .prefersRegister)).updRange (s.alloc.liveRanges p.1)
        fun r => (r.addUse pos p.2).1) s) s
    BuildInv b blocks nV shape bshape pos S s' ∧ (∀ v ∈ vs, PhiReady b blocks nV pos s' v) ∧
      ValuesFrame nV (· ∈ vs) s s' := by
  let M := fun t => BuildInv b blocks nV shape bshape pos S t ∧ (∀ v ∈ vs, PhiReady b blocks nV pos t v) ∧
    ValuesFrame nV (· ∈ vs) s t
  refine List.foldlRecOn (motive := M) dests _ s ⟨h, hp, ValuesFrame.refl s⟩ fun t ht ds _ =>
    List.foldlRecOn (motive := M) _ _ t ht fun t ht p hp => ?_
  obtain ⟨ht, hr, f⟩ := ht
  have hv := (List.of_mem_zip hp).1
  obtain ⟨h1, h2, f1⟩ := ht.phiDest (hdef _ hv) (hr _ hv) p.2
  refine ⟨h1, fun w hw => ?_, f.trans (f1.mono fun j hj => hj ▸ hv)⟩
  by_cases e : w = p.1
  · exact e ▸ h2
  · exact (hr w hw).of_frame f1 e

/-- The phis' halves, each finished and queued. -/
theorem BuildInv.finishPhis (h : BuildInv b blocks nV shape bshape pos S s) (hwf : BlocksWF b blocks nV)
    (hb : blk ∈ blocks) (hpos : blk.startPos = pos) (hk : blk.kind = .join phis) {vs : List Nat} (hnd : vs.Nodup)
    (hvs : ∀ v ∈ vs, v ∈ blk.entryVregs) (hp : ∀ v ∈ vs, PhiReady b blocks nV pos s v) (kind : RegisterKind) :
    let s' := vs.foldl (fun s (v : Nat) =>
      completeRange (assignSafepoints b s (fun _ => false) (s.alloc.liveRanges v)) (s.alloc.liveRanges v) kind) s
    BuildInv b blocks nV shape bshape pos S s' ∧ ValuesFrame nV (· ∈ vs) s s' := by
  obtain ⟨h1, -, f⟩ := ValuesFrame.foldl nV (fun v => [v])
    (P := fun v t => v ∈ vs ∧ PhiReady b blocks nV pos t v) (Q := fun _ _ => True)
    (fun v t t' T hP hf hT => ⟨hP.1, hP.2.of_frame hf (hT v (List.mem_singleton_self v))⟩)
    (fun _ _ _ _ _ _ _ => trivial)
    (fun v t ht hP => by
      obtain ⟨h1, f⟩ := ht.finishPhi hwf hb hpos hk (hvs v hP.1) hP.2 kind
      exact ⟨h1, trivial, f.mono fun j hj => List.mem_singleton.2 hj⟩)
    vs s (by simpa using hnd) h fun v hv => ⟨hv, hp v hv⟩
  exact ⟨h1, f.mono fun j hj => by simpa using hj⟩

/-- `ConnectIncomingPhiMoves` at a join whose phis are all pending: each phi is
defined at the join's start, given its moves' destinations as uses there,
finished with every safepoint it contains, and queued. -/
theorem BuildInv.connectIncomingPhiMoves (h : BuildInv b blocks nV shape bshape pos S s)
    (hwf : BlocksWF b blocks nV) (hb : blk ∈ blocks) (hpos : blk.startPos = pos) (hk : blk.kind = .join phis)
    (hp : ∀ v ∈ blk.entryVregs, EntryPending b blocks nV (fun _ => True) s v) (isLoopHeader : Bool) :
    BuildInv b blocks nV shape bshape pos S (LinearScan.connectIncomingPhiMoves b s pos isLoopHeader phis) := by
  have hvs : blk.entryVregs = phis.flatMap PhiDef.vregs := by rw [RangeBlock.entryVregs, hk]
  have hnd := hvs ▸ hwf.entry_nodup blk hb
  refine (ValuesFrame.foldl nV PhiDef.vregs
    (P := fun phi t => phi ∈ phis ∧ ∀ v ∈ phi.vregs, EntryPending b blocks nV (fun _ => True) t v)
    (Q := fun _ _ => True) (fun phi t t' T hP hf hT => ⟨hP.1, fun v hv => (hP.2 v hv).of_frame hf (hT v hv)⟩)
    (fun _ _ _ _ _ _ _ => trivial) (fun phi t ht hP => ?_) phis s hnd h
    fun phi hphi => ⟨hphi, fun v hv => hp v (hvs ▸ List.mem_flatMap.2 ⟨phi, hphi, hv⟩)⟩).1
  have hmem : ∀ v ∈ phi.vregs, v ∈ blk.entryVregs := fun v hv => hvs ▸ List.mem_flatMap.2 ⟨phi, hP.1, hv⟩
  have hdef : ∀ v ∈ phi.vregs, DefinedAt blocks v pos := fun v hv => hpos ▸ ⟨blk, hb, .inr ⟨rfl, hmem v hv⟩⟩
  have hndp : phi.vregs.Nodup := (List.nodup_flatMap.1 hnd).1 phi hP.1
  dsimp only
  obtain ⟨h1, hr1, f1⟩ := ht.definePhis hndp hdef hP.2 isLoopHeader
  obtain ⟨h2, hr2, f2⟩ := h1.phiDests hdef hr1 phi.dests
  obtain ⟨h3, f3⟩ := h2.finishPhis hwf hb hpos hk hndp hmem hr2 phi.resultKind
  exact ⟨h3, trivial, f1.trans (f2.trans f3)⟩

end Phis

end LinearScan
