import Mathlib.Data.List.Forall2
import Mathlib.Data.List.GetD
import Mathlib.Data.List.Nodup
import LinearScan.Resolve

/-!
# Edge resolution puts every value in place

`Resolve.lean` translates the non-linear half of `ResolveControlFlow`. This
file proves what it is for. Along an edge `P → S` of a graph without critical
edges, execute `P`'s goto parallel move and then `S`'s entry parallel move, each
as a simultaneous assignment (`execParallelMove`). Start from a state where
every value live into `S` sits in the location `FindCover` gives it at `P`'s
last position, and every phi move's source holds the phi's input. The result
holds every live-in value in its location at `S`'s start (unless that location
is the value's spill slot, which the eager spill store fills), and every phi
destination holds its input (`resolveControlFlow_edge_dataflow`).

The proof follows the loop structure of the code:
* `Extends` says which parallel moves a step may append to, and what the
  appended moves carry. Every step of the code appends and never removes.
* `resolveLiveIn_spec` is the step lemma of the live-in loop. Every move it adds
  takes a live-in value from its location at a predecessor's exit to its
  location at `S`'s start. A value whose location changes across the edge
  gets a move on the edge, or a pending move (`Resolved`).
* `propagate_stable` says the `while (changed)` loop reaches a fixpoint within
  its bound: no pending move that is sunk into `S` reads a location that a
  blocked pending move writes. `resolvePending_spec` adds the scan of the
  goto moves. A sunk move's source is written by no move on any incoming edge.
* `resolveBlock_frame` and `foldlM_resolveBlock_frame` show that the blocks
  other than `S` never touch `P`'s goto move or `S`'s entry move. So the run
  over `block_order_` leaves on the edge exactly what `S`'s own iteration
  produced.

The hypotheses are the shape of the flow graph (`GraphWF`), which the code
relies on and in part checks (`NumberInstructions` stops on a join predecessor
that ends in neither a goto nor a try entry), and the allocation's outcome at
`S`'s start (`EntryLocs`): every sibling has a location, and distinct live
values occupy distinct locations.
-/

namespace LinearScan

/-! ## Parallel moves as simultaneous assignment -/

/-- What a parallel move leaves in `l`. Suppose every non-redundant move into
`l` reads a location holding `x`, and `l` holds `x` when no such move exists.
Then `l` holds `x` afterwards. -/
theorem execParallelMove_eq {α : Type} {ms : List Move} {σ : Location → α} {l : Location}
    {x : α} (hw : ∀ m ∈ ms, m.isRedundant = false → m.dest = l → σ m.src = x)
    (hk : (∀ m ∈ ms, m.isRedundant = false → m.dest ≠ l) → σ l = x) :
    execParallelMove ms σ l = x := by
  unfold execParallelMove
  split
  · next m hm =>
    have hp := List.find?_some hm
    simp only [Bool.and_eq_true, Bool.not_eq_true', beq_iff_eq] at hp
    exact hw m (List.mem_of_find?_eq_some hm) hp.1 hp.2
  · next hm =>
    refine hk fun m hmem hr hd => ?_
    have := List.find?_eq_none.1 hm m hmem
    simp [hr, hd] at this

/-- A redundant move between two valid locations is a move of a location onto
itself. -/
theorem Move.src_eq_dest_of_isRedundant {m : Move} (h : m.isRedundant = true)
    (hs : m.src ≠ .invalid) (hd : m.dest ≠ .invalid) : m.src = m.dest := by
  simpa [Move.isRedundant, hs, hd] using h

/-! ## Appending moves -/

namespace Moves

@[simp] theorem addExit_exit (mv : Moves) (b b' : Nat) (m : Move) :
    (mv.addExit b m).exit b' = if b' = b then mv.exit b' ++ [m] else mv.exit b' := rfl

@[simp] theorem addExit_entry (mv : Moves) (b : Nat) (m : Move) :
    (mv.addExit b m).entry = mv.entry := rfl

@[simp] theorem addEntry_entry (mv : Moves) (b b' : Nat) (m : Move) :
    (mv.addEntry b m).entry b' = if b' = b then mv.entry b' ++ [m] else mv.entry b' := rfl

@[simp] theorem addEntry_exit (mv : Moves) (b : Nat) (m : Move) :
    (mv.addEntry b m).exit = mv.exit := rfl

end Moves

/-- `f'` is `f` with moves appended, only at blocks satisfying `allowed`, and
each appended move satisfying `ok` for its block. -/
def Appends (allowed : Nat → Prop) (ok : Nat → Move → Prop) (f f' : Nat → List Move) : Prop :=
  ∀ b, ∃ xs, f' b = f b ++ xs ∧ (xs ≠ [] → allowed b) ∧ ∀ m ∈ xs, ok b m

namespace Appends

variable {allowed : Nat → Prop} {ok : Nat → Move → Prop} {f f' f'' : Nat → List Move}

theorem refl : Appends allowed ok f f := fun _ => ⟨[], by simp, by simp, by simp⟩

theorem trans (h₁ : Appends allowed ok f f') (h₂ : Appends allowed ok f' f'') :
    Appends allowed ok f f'' := fun b => by
  obtain ⟨xs, hx, hxa, hxo⟩ := h₁ b
  obtain ⟨ys, hy, hya, hyo⟩ := h₂ b
  refine ⟨xs ++ ys, by rw [hy, hx, List.append_assoc], fun hne => ?_, fun m hm => ?_⟩
  · by_cases h : xs = []
    · exact hya (by simpa [h] using hne)
    · exact hxa h
  · rcases List.mem_append.1 hm with hm | hm
    exacts [hxo m hm, hyo m hm]

theorem mono {allowed' : Nat → Prop} {ok' : Nat → Move → Prop} (h : Appends allowed ok f f')
    (ha : ∀ b, allowed b → allowed' b) (ho : ∀ b m, ok b m → ok' b m) :
    Appends allowed' ok' f f' := fun b => by
  obtain ⟨xs, hx, hxa, hxo⟩ := h b
  exact ⟨xs, hx, fun hne => ha b (hxa hne), fun m hm => ho b m (hxo m hm)⟩

theorem mem (h : Appends allowed ok f f') {b : Nat} {m : Move} (hm : m ∈ f' b) :
    m ∈ f b ∨ ok b m := by
  obtain ⟨xs, hx, -, hxo⟩ := h b
  rw [hx, List.mem_append] at hm
  exact hm.imp id (hxo m)

theorem eq_of_not (h : Appends allowed ok f f') {b : Nat} (hb : ¬allowed b) : f' b = f b := by
  obtain ⟨xs, hx, hxa, -⟩ := h b
  rw [hx, of_not_not (mt hxa hb), List.append_nil]

theorem subset (h : Appends allowed ok f f') {b : Nat} {m : Move} (hm : m ∈ f b) : m ∈ f' b := by
  obtain ⟨xs, hx, -, -⟩ := h b
  rw [hx]
  exact List.mem_append_left xs hm

/-- Appending one move at an allowed block. -/
theorem single {b : Nat} {m : Move} (hb : allowed b) (hm : ok b m) :
    Appends allowed ok f (fun b' => if b' = b then f b' ++ [m] else f b') := fun b' => by
  by_cases h : b' = b
  · subst h; exact ⟨[m], by simp, fun _ => hb, by simpa using hm⟩
  · exact ⟨[], by simp [h], by simp, by simp⟩

end Appends

section Extends
variable (inp : ResolveInput) (S : Nat)

/-- `mv'` is `mv` with moves appended: onto the goto moves of `S`'s
predecessors that end in a goto, each satisfying `okExit` for its block, and
onto `S`'s entry move, each satisfying `okEntry`. -/
structure Extends (okExit : Nat → Move → Prop) (okEntry : Move → Prop) (mv mv' : Moves) : Prop where
  exit : Appends (fun Q => Q ∈ (inp.blocks S).preds ∧ inp.movesOnGoto Q = true)
    okExit mv.exit mv'.exit
  entry : Appends (· = S) (fun _ => okEntry) mv.entry mv'.entry

variable {inp S} {okExit okExit' : Nat → Move → Prop} {okEntry okEntry' : Move → Prop}
  {mv mv' mv'' : Moves}

theorem Extends.refl : Extends inp S okExit okEntry mv mv := ⟨.refl, .refl⟩

theorem Extends.trans (h₁ : Extends inp S okExit okEntry mv mv')
    (h₂ : Extends inp S okExit okEntry mv' mv'') : Extends inp S okExit okEntry mv mv'' :=
  ⟨h₁.exit.trans h₂.exit, h₁.entry.trans h₂.entry⟩

theorem Extends.mono (h : Extends inp S okExit okEntry mv mv')
    (hx : ∀ Q m, okExit Q m → okExit' Q m) (he : ∀ m, okEntry m → okEntry' m) :
    Extends inp S okExit' okEntry' mv mv' :=
  ⟨h.exit.mono (fun _ => id) hx, h.entry.mono (fun _ => id) (fun _ => he)⟩

/-- `EmitMoveOnEdge` from a predecessor of `S`. -/
theorem extends_emitMoveOnEdge {Q : Nat} (hQ : Q ∈ (inp.blocks S).preds) (m : Move) :
    Extends inp S (fun Q' m' => Q' = Q ∧ m' = m)
      (fun m' => m' = m ∧ inp.movesOnGoto Q = false) mv (emitMoveOnEdge inp mv S Q m) := by
  unfold emitMoveOnEdge
  split
  · next hg => exact ⟨Appends.single ⟨hQ, hg⟩ ⟨rfl, rfl⟩, .refl⟩
  · next hg => exact ⟨.refl, Appends.single rfl ⟨rfl, by simpa using hg⟩⟩

/-- The move `EmitMoveOnEdge` adds lands on the edge's goto move or in `S`. -/
theorem mem_emitMoveOnEdge (Q : Nat) (m : Move) :
    m ∈ (emitMoveOnEdge inp mv S Q m).exit Q ∨ m ∈ (emitMoveOnEdge inp mv S Q m).entry S := by
  unfold emitMoveOnEdge
  split <;> simp

end Extends

/-! ## Lookups -/

theorem forall₂_of_mapM_eq_some {α β : Type} {f : α → Option β} :
    ∀ {l : List α} {r : List β}, l.mapM f = some r → List.Forall₂ (fun a b => f a = some b) l r
  | [], r, h => by simp only [List.mapM_nil, pure, Option.some.injEq] at h; subst h; exact .nil
  | a :: l, r, h => by
    simp only [List.mapM_cons, bind, Option.bind_eq_some, pure, Option.some.injEq] at h
    obtain ⟨b, hb, bs, hbs, rfl⟩ := h
    exact .cons hb (forall₂_of_mapM_eq_some hbs)

theorem exists_mem_zip_of_forall₂ {α β : Type} {R : α → β → Prop} :
    ∀ {l : List α} {r : List β}, List.Forall₂ R l r → ∀ {a : α}, a ∈ l →
      ∃ b, (a, b) ∈ l.zip r ∧ R a b
  | _, _, .nil, _, h => absurd h (List.not_mem_nil _)
  | _, _, .cons (b := b) hab hrest, _, h => by
    rcases List.mem_cons.1 h with rfl | h
    · exact ⟨b, by simp, hab⟩
    · obtain ⟨c, hc, hr⟩ := exists_mem_zip_of_forall₂ hrest h
      exact ⟨c, by simp [hc], hr⟩

theorem forall₂_getElem? {α β : Type} {R : α → β → Prop} :
    ∀ {l : List α} {r : List β}, List.Forall₂ R l r → ∀ {j : Nat} {b : β}, r[j]? = some b →
      ∃ a, l[j]? = some a ∧ R a b
  | _, _, .nil, _, _, h => by simp at h
  | _, _, .cons (a := a) hab _, 0, _, h => by
    simp only [List.getElem?_cons_zero, Option.some.injEq] at h
    exact ⟨a, by simp, h ▸ hab⟩
  | _, _, .cons _ hrest, _ + 1, _, h => by
    simpa using forall₂_getElem? hrest (by simpa using h)

theorem eq_of_allSame {s₀ s : Location} {ss : List Location} (h : allSame (s₀ :: ss) = true)
    (hs : s ∈ s₀ :: ss) : s = s₀ := by
  simp only [allSame, List.all_eq_true, beq_iff_eq] at h
  rcases List.mem_cons.1 hs with rfl | hs
  exacts [rfl, h s hs]

/-- A value without siblings sits in one location wherever it is covered. -/
theorem locAt_eq_of_length_le_one {chain : List Sibling} (h : chain.length ≤ 1) {p q : Nat}
    {a b : Location} (ha : locAt chain p = some a) (hb : locAt chain q = some b) : a = b := by
  rcases chain with _ | ⟨r, _ | ⟨r', rest⟩⟩
  · simp [locAt, findCover] at ha
  · simp only [locAt, findCover, List.find?_cons, List.find?_nil] at ha hb
    split at ha <;> split at hb <;> simp_all
  · simp at h

/-! ## The live-in loop -/

section LiveIn
variable (inp : ResolveInput) (S : Nat)

/-- A move of a live value of `S` along the edge from `Q`: from its location at
`Q`'s exit to its location at `S`'s start. -/
def EdgeMove (Q : Nat) (m : Move) : Prop :=
  ∃ v ∈ (inp.blocks S).liveIn, dstLoc inp S v = some m.dest ∧ srcLoc inp v Q = some m.src

/-- A move of a live value that every incoming edge of `S` agrees on. -/
def SinkMove (m : Move) : Prop :=
  1 < (inp.blocks S).preds.length ∧ ∃ v ∈ (inp.blocks S).liveIn, dstLoc inp S v = some m.dest ∧
    ∀ Q ∈ (inp.blocks S).preds, srcLoc inp v Q = some m.src

/-- A move of the live-in loop into `S`'s entry: a move on the edge from a
predecessor that does not end in a goto. -/
def EntryEdgeMove (m : Move) : Prop :=
  ∃ Q ∈ (inp.blocks S).preds, inp.movesOnGoto Q = false ∧ EdgeMove inp S Q m

/-- Live value `v` is taken care of on the edge from `P`: it keeps its
location, or a move brings it over, on the edge, in `S` or pending. -/
def Resolved (P : Nat) (mv : Moves) (pending : List Move) (v : Nat) : Prop :=
  ∀ d s, dstLoc inp S v = some d → d ≠ inp.spillSlot v → srcLoc inp v P = some s →
    s = d ∨ ⟨d, s⟩ ∈ mv.exit P ∨ ⟨d, s⟩ ∈ mv.entry S ∨ ⟨d, s⟩ ∈ pending

variable {inp S}

theorem Resolved.mono {P v : Nat} {okExit : Nat → Move → Prop} {okEntry : Move → Prop}
    {mv mv' : Moves} {pd pd' : List Move} (h : Resolved inp S P mv pd v)
    (hmv : Extends inp S okExit okEntry mv mv') (hpd : pd <+: pd') : Resolved inp S P mv' pd' v :=
  fun d s hd hne hs => (h d s hd hne hs).imp_right fun h =>
    h.imp hmv.exit.subset (Or.imp hmv.entry.subset fun h => hpd.subset h)

@[simp] theorem emitEdgeMoves_nil (dst : Location) (mv : Moves) :
    emitEdgeMoves inp S dst mv [] = mv := rfl

theorem emitEdgeMoves_cons (dst : Location) (mv : Moves) (p : Nat × Location)
    (ps : List (Nat × Location)) :
    emitEdgeMoves inp S dst mv (p :: ps) =
      emitEdgeMoves inp S dst (if dst = p.2 then mv else emitMoveOnEdge inp mv S p.1 ⟨dst, p.2⟩) ps :=
  rfl

/-- The per-edge moves of one value go to its predecessors' goto moves or to
`S`, each from the source listed for its predecessor. -/
theorem extends_emitEdgeMoves (dst : Location) :
    ∀ (ps : List (Nat × Location)) (mv : Moves), (∀ p ∈ ps, p.1 ∈ (inp.blocks S).preds) →
      Extends inp S (fun Q m => m.dest = dst ∧ (Q, m.src) ∈ ps)
        (fun m => m.dest = dst ∧ ∃ Q, (Q, m.src) ∈ ps ∧ inp.movesOnGoto Q = false)
        mv (emitEdgeMoves inp S dst mv ps)
  | [], _, _ => .refl
  | p :: ps, mv, hps => by
    have hp := List.mem_cons_self p ps
    rw [emitEdgeMoves_cons]
    refine Extends.trans ?_ ((extends_emitEdgeMoves dst ps _ fun q hq =>
      hps q (List.mem_cons_of_mem p hq)).mono
      (fun _ _ h => ⟨h.1, List.mem_cons_of_mem p h.2⟩)
      (fun _ ⟨hd, Q, hm, hg⟩ => ⟨hd, Q, List.mem_cons_of_mem p hm, hg⟩))
    split
    · exact .refl
    · exact (extends_emitMoveOnEdge (hps p hp) _).mono
        (fun _ _ ⟨hQ, hm⟩ => by subst hQ hm; exact ⟨rfl, hp⟩)
        (fun _ ⟨hm, hg⟩ => by subst hm; exact ⟨rfl, p.1, hp, hg⟩)

/-- Every listed predecessor whose source differs gets its move, on its goto
move or in `S`. -/
theorem mem_emitEdgeMoves (dst : Location) :
    ∀ (ps : List (Nat × Location)) (mv : Moves), (∀ p ∈ ps, p.1 ∈ (inp.blocks S).preds) →
      ∀ p ∈ ps, dst ≠ p.2 → ⟨dst, p.2⟩ ∈ (emitEdgeMoves inp S dst mv ps).exit p.1 ∨
        ⟨dst, p.2⟩ ∈ (emitEdgeMoves inp S dst mv ps).entry S
  | [], _, _, _, h, _ => absurd h (List.not_mem_nil _)
  | q :: ps, mv, hps, p, hp, hne => by
    have hps' : ∀ p ∈ ps, p.1 ∈ (inp.blocks S).preds := fun p hp => hps p (List.mem_cons_of_mem q hp)
    rw [emitEdgeMoves_cons]
    rcases List.mem_cons.1 hp with rfl | hp
    · have rest := extends_emitEdgeMoves dst ps (emitMoveOnEdge inp mv S p.1 ⟨dst, p.2⟩) hps'
      rw [if_neg hne]
      exact (mem_emitMoveOnEdge p.1 _).imp rest.exit.subset rest.entry.subset
    · exact mem_emitEdgeMoves dst ps _ hps' p hp hne

/-- The step lemma of the live-in loop at a block that is not a catch entry. -/
theorem resolveLiveIn_spec (hcatch : (inp.blocks S).isCatch = false) {v : Nat}
    (hv : v ∈ (inp.blocks S).liveIn) {mv mv' : Moves} {pd pd' : List Move}
    (h : resolveLiveIn inp S (mv, pd) v = some (mv', pd')) :
    Extends inp S (EdgeMove inp S) (EntryEdgeMove inp S) mv mv' ∧
      (∃ ys, pd' = pd ++ ys ∧ ∀ m ∈ ys, SinkMove inp S m) ∧
      ∀ P ∈ (inp.blocks S).preds, Resolved inp S P mv' pd' v := by
  have unchanged : ∃ ys, pd = pd ++ ys ∧ ∀ m ∈ ys, SinkMove inp S m := ⟨[], by simp, by simp⟩
  unfold resolveLiveIn at h
  by_cases hlen : (inp.chain v).length ≤ 1
  · rw [if_pos (by simp [hlen, hcatch])] at h
    cases h
    exact ⟨.refl, unchanged, fun P _ d s hd _ hs => Or.inl (locAt_eq_of_length_le_one hlen hs hd)⟩
  rw [if_neg (by simp [hlen])] at h
  simp only [hcatch, Bool.false_eq_true, ite_false, bind, pure, Option.bind_eq_some] at h
  obtain ⟨dst, hdst, h⟩ := h
  split at h
  next hsp =>
    cases h
    refine ⟨.refl, unchanged, fun P _ d s hd hne _ => absurd ?_ hne⟩
    rw [hdst, Option.some.injEq] at hd
    rwa [← hd]
  simp only [Option.some_bind, Option.bind_eq_some] at h
  obtain ⟨srcs, hsrcs, h⟩ := h
  have hF := forall₂_of_mapM_eq_some hsrcs
  by_cases hsame : (decide (1 < srcs.length) && allSame srcs) = true
  · -- every predecessor agrees on the source: at most one pending move
    rw [if_pos hsame] at h
    simp only [Bool.and_eq_true, decide_eq_true_eq] at hsame
    obtain ⟨hlen, hall⟩ := hsame
    cases srcs with
    | nil => simp at hlen
    | cons s₀ tl =>
      have hs₀ : ∀ Q ∈ (inp.blocks S).preds, srcLoc inp v Q = some s₀ := fun Q hQ => by
        obtain ⟨s, hz, hs⟩ := exists_mem_zip_of_forall₂ hF hQ
        rwa [eq_of_allSame hall (List.of_mem_zip hz).2] at hs
      have res : ∀ P ∈ (inp.blocks S).preds, ∀ d s, dstLoc inp S v = some d →
          srcLoc inp v P = some s → d = dst ∧ s = s₀ := fun P hP d s hd hs => by
        rw [hdst, Option.some.injEq] at hd
        rw [hs₀ P hP, Option.some.injEq] at hs
        exact ⟨hd.symm, hs.symm⟩
      simp only [Option.some.injEq] at h
      split at h
      next heq =>
        cases h
        refine ⟨.refl, unchanged, fun P hP d s hd _ hs => Or.inl ?_⟩
        obtain ⟨rfl, rfl⟩ := res P hP d s hd hs
        exact heq.symm
      next =>
        cases h
        refine ⟨.refl, ⟨[⟨dst, s₀⟩], rfl, ?_⟩, fun P hP d s hd _ hs => ?_⟩
        · simp only [List.mem_singleton, forall_eq]
          exact ⟨hF.length_eq ▸ hlen, v, hv, hdst, hs₀⟩
        · obtain ⟨rfl, rfl⟩ := res P hP d s hd hs
          simp
  · -- a move on every edge whose source differs
    rw [if_neg hsame] at h
    cases h
    have hpre : ∀ p ∈ (inp.blocks S).preds.zip srcs, p.1 ∈ (inp.blocks S).preds :=
      fun p hp => (List.of_mem_zip hp).1
    have edge : ∀ Q m, (Q, m.src) ∈ (inp.blocks S).preds.zip srcs → m.dest = dst →
        EdgeMove inp S Q m := fun Q m hz hd => ⟨v, hv, hd ▸ hdst, List.forall₂_zip hF hz⟩
    refine ⟨(extends_emitEdgeMoves dst _ mv hpre).mono (fun Q m ⟨hd, hz⟩ => edge Q m hz hd)
      (fun m ⟨hd, Q, hz, hg⟩ => ⟨Q, (List.of_mem_zip hz).1, hg, edge Q m hz hd⟩), unchanged,
      fun P hP d s hd _ hs => ?_⟩
    rw [hdst, Option.some.injEq] at hd
    subst hd
    obtain ⟨s', hz, hs'⟩ := exists_mem_zip_of_forall₂ hF hP
    rw [hs, Option.some.injEq] at hs'
    subst hs'
    by_cases hne : dst = s
    · exact Or.inl hne.symm
    · rcases mem_emitEdgeMoves dst _ mv hpre _ hz hne with h | h
      exacts [Or.inr (Or.inl h), Or.inr (Or.inr (Or.inl h))]

/-- The live-in loop at a block that is not a catch entry: what it appends,
what it leaves pending, and that every live value it went through is
resolved. -/
theorem liveInLoop_spec (hcatch : (inp.blocks S).isCatch = false) :
    ∀ (vs : List Nat) (mv : Moves) (pd : List Move) (r : Moves × List Move),
      (∀ v ∈ vs, v ∈ (inp.blocks S).liveIn) → vs.foldlM (resolveLiveIn inp S) (mv, pd) = some r →
      Extends inp S (EdgeMove inp S) (EntryEdgeMove inp S) mv r.1 ∧
        (∃ ys, r.2 = pd ++ ys ∧ ∀ m ∈ ys, SinkMove inp S m) ∧
        ∀ v ∈ vs, ∀ P ∈ (inp.blocks S).preds, Resolved inp S P r.1 r.2 v
  | [], mv, pd, r, _, h => by
    cases h
    exact ⟨.refl, ⟨[], by simp, by simp⟩, by simp⟩
  | v :: vs, mv, pd, r, hvs, h => by
    simp only [List.foldlM_cons, bind, Option.bind_eq_some] at h
    obtain ⟨⟨mv₁, pd₁⟩, h₁, h⟩ := h
    obtain ⟨e₁, ⟨ys₁, rfl, hys₁⟩, res₁⟩ :=
      resolveLiveIn_spec hcatch (hvs v (List.mem_cons_self v vs)) h₁
    obtain ⟨e₂, ⟨ys₂, hr, hys₂⟩, res₂⟩ :=
      liveInLoop_spec hcatch vs mv₁ (pd ++ ys₁) r (fun w hw => hvs w (List.mem_cons_of_mem v hw)) h
    refine ⟨e₁.trans e₂, ⟨ys₁ ++ ys₂, by rw [hr, List.append_assoc], fun m hm => ?_⟩,
      fun w hw P hP => ?_⟩
    · rcases List.mem_append.1 hm with hm | hm
      exacts [hys₁ m hm, hys₂ m hm]
    · rcases List.mem_cons.1 hw with rfl | hw
      · exact (res₁ P hP).mono e₂ (hr ▸ List.prefix_append _ _)
      · exact res₂ w hw P hP

end LiveIn

/-! ## The propagation of blocked pending moves -/

section Propagate
variable (pending : List Move)

/-- No pending move that can still be emitted reads a location that a blocked
pending move writes. -/
def Stable (c : List Bool) : Prop :=
  ∀ j < pending.length, ∀ k < pending.length, c.getD j false = true → c.getD k false = false →
    (pending.getD k ⟨.invalid, .invalid⟩).dest ≠ (pending.getD j ⟨.invalid, .invalid⟩).src

theorem stable_of_not_becomesBlocked {c : List Bool}
    (h : ∀ j < pending.length, becomesBlocked pending c j = false) : Stable pending c := by
  intro j hj k hk hcj hck heq
  have := h j hj
  simp only [becomesBlocked, hcj, Bool.true_and, List.any_eq_false, List.mem_range] at this
  exact this k hk (by simp only [hck, heq, Bool.not_false, beq_self_eq_true, Bool.and_self])

/-- Clearing a set bit lowers the number of set bits. -/
theorem count_set_false_lt {bits : List Bool} {j : Nat} (h : bits.getD j false = true) :
    (bits.set j false).count true < bits.count true := by
  have hj : j < bits.length := by
    by_contra hj
    simp [List.getD_eq_getElem?_getD, List.getElem?_eq_none (Nat.le_of_not_lt hj)] at h
  have hget : bits[j] = true := by simpa [List.getD_eq_getElem?_getD, hj] using h
  have hpos : 0 < bits.count true := List.count_pos_iff.2 (hget ▸ List.getElem_mem hj)
  rw [List.count_set _ _ _ _ hj, hget]
  simp only [beq_self_eq_true, if_true, beq_iff_eq, Bool.false_eq_true, if_false]
  omega

/-- What a round keeps of its input `c`: bits are only cleared, the number of
set bits never grows, and it drops when the flag is raised. -/
structure RoundInv (c : List Bool) (acc : List Bool × Bool) : Prop where
  mono : ∀ i, acc.1.getD i false = true → c.getD i false = true
  le : acc.1.count true ≤ c.count true
  eq : acc.2 = false → acc.1 = c
  lt : acc.2 = true → acc.1.count true < c.count true

theorem roundInv_propagateStep {c : List Bool} {acc : List Bool × Bool} (h : RoundInv c acc)
    (j : Nat) : RoundInv c (propagateStep pending acc j) := by
  unfold propagateStep
  split
  case isFalse => exact h
  case isTrue hb =>
    have hj : acc.1.getD j false = true := by
      simp only [becomesBlocked, Bool.and_eq_true] at hb
      exact hb.1
    have hlt := count_set_false_lt hj
    have hle := h.le
    refine ⟨fun i hi => h.mono i ?_, by dsimp only; omega, by simp, fun _ => by dsimp only; omega⟩
    by_cases hij : i = j
    · subst hij
      simp only [List.getD_eq_getElem?_getD, List.getElem?_set, if_true] at hi
      split at hi <;> simp at hi
    · simpa [List.getD_eq_getElem?_getD, List.getElem?_set_ne (Ne.symm hij)] using hi

/-- A round that never raises its flag changed nothing and found no move to
block. -/
theorem foldl_propagateStep_quiet : ∀ (is : List Nat) (acc : List Bool × Bool),
    (is.foldl (propagateStep pending) acc).2 = false →
      is.foldl (propagateStep pending) acc = acc ∧ ∀ j ∈ is, becomesBlocked pending acc.1 j = false
  | [], _, _ => ⟨rfl, by simp⟩
  | j :: is, acc, h => by
    rw [List.foldl_cons] at h ⊢
    obtain ⟨hr, hq⟩ := foldl_propagateStep_quiet is _ h
    cases hb : becomesBlocked pending acc.1 j
    · have hs : propagateStep pending acc j = acc := by simp [propagateStep, hb]
      rw [hs] at hr hq ⊢
      exact ⟨hr, fun i hi => (List.mem_cons.1 hi).elim (· ▸ hb) (hq i)⟩
    · have hs : propagateStep pending acc j = (acc.1.set j false, true) := by
        simp [propagateStep, hb]
      rw [hs] at hr h
      rw [hr] at h
      simp at h

theorem roundInv_foldl {c : List Bool} : ∀ (is : List Nat) (acc : List Bool × Bool),
    RoundInv c acc → RoundInv c (is.foldl (propagateStep pending) acc)
  | [], _, h => h
  | j :: is, _, h => roundInv_foldl is _ (roundInv_propagateStep pending h j)

/-- One round: it only clears bits; a quiet round leaves a fixpoint; a round
that raises its flag clears at least one bit. -/
theorem propagateRound_spec (c : List Bool) :
    RoundInv c (propagateRound pending c) ∧
      ((propagateRound pending c).2 = false → Stable pending c) := by
  refine ⟨roundInv_foldl pending _ _ ⟨fun _ => id, le_rfl, fun _ => rfl, by simp⟩, fun h => ?_⟩
  obtain ⟨-, hq⟩ := foldl_propagateStep_quiet pending _ _ h
  exact stable_of_not_becomesBlocked pending fun j hj => hq j (List.mem_range.2 hj)

/-- The `while (changed)` loop only clears bits. -/
theorem propagate_mono : ∀ (fuel : Nat) (c : List Bool) (ch : Bool) (i : Nat),
    (propagate pending fuel c ch).getD i false = true → c.getD i false = true
  | 0, _, _, _, h => h
  | n + 1, c, ch, i, h => by
    unfold propagate at h
    split at h
    case isTrue =>
      exact (propagateRound_spec pending c).1.mono i (propagate_mono n _ _ i h)
    case isFalse => exact h

/-- The `while (changed)` loop ends at a fixpoint when its bound exceeds the
number of set bits: every round that raises its flag clears a bit. -/
theorem propagate_stable : ∀ (fuel : Nat) (c : List Bool) (ch : Bool),
    (ch = false → Stable pending c) → (ch = true → c.count true < fuel) →
      Stable pending (propagate pending fuel c ch)
  | 0, c, ch, hf, ht => by
    cases ch
    · exact hf rfl
    · exact absurd (ht rfl) (Nat.not_lt_zero _)
  | n + 1, c, false, hf, _ => hf rfl
  | n + 1, c, true, _, ht => by
    obtain ⟨hinv, hq⟩ := propagateRound_spec pending c
    rw [propagate, if_pos rfl]
    refine propagate_stable n _ _ (fun h => (hinv.eq h).symm ▸ hq h) (fun h => ?_)
    have := hinv.lt h
    have := ht rfl
    omega

end Propagate

/-! ## Emitting the pending moves -/

section PendingMoves
variable {inp : ResolveInput} {S : Nat}

/-- The move `EmitMoveOnEdge` puts on the edges from `qs`, predecessors of `S`:
on each goto move, or into `S` for a predecessor that does not end in a goto. -/
theorem extends_emitOnEdges (m : Move) : ∀ (qs : List Nat) (mv : Moves),
    (∀ q ∈ qs, q ∈ (inp.blocks S).preds) →
    Extends inp S (fun _ m' => m' = m)
        (fun m' => m' = m ∧ ∃ Q ∈ qs, inp.movesOnGoto Q = false) mv
        (qs.foldl (fun mv p => emitMoveOnEdge inp mv S p m) mv) ∧
      ∀ Q ∈ qs, inp.movesOnGoto Q = true →
        m ∈ (qs.foldl (fun mv p => emitMoveOnEdge inp mv S p m) mv).exit Q
  | [], _, _ => ⟨.refl, by simp⟩
  | q :: qs, mv, hqs => by
    rw [List.foldl_cons]
    have hq := List.mem_cons_self q qs
    obtain ⟨e, hmem⟩ := extends_emitOnEdges m qs (emitMoveOnEdge inp mv S q m)
      fun q' h => hqs q' (List.mem_cons_of_mem q h)
    refine ⟨((extends_emitMoveOnEdge (hqs q hq) m).mono (fun _ _ h => h.2)
        (fun _ ⟨h, hg⟩ => ⟨h, q, hq, hg⟩)).trans
      (e.mono (fun _ _ => id) (fun _ ⟨h, Q, hQ, hg⟩ => ⟨h, Q, List.mem_cons_of_mem q hQ, hg⟩)),
      fun Q hQ hg => ?_⟩
    rcases List.mem_cons.1 hQ with rfl | hQ
    · exact e.exit.subset (by simp [emitMoveOnEdge, hg])
    · exact hmem Q hQ hg

/-- The emission loop at pending move `j`: blocked, it goes onto the goto move
of every predecessor; otherwise into `S`. -/
theorem emitPendingAt_spec (pending : List Move) (c : List Bool) (mv : Moves) (j : Nat) :
    Extends inp S (fun _ m => c.getD j false = false ∧ pending.getD j ⟨.invalid, .invalid⟩ = m)
        (fun m => pending.getD j ⟨.invalid, .invalid⟩ = m ∧
          (c.getD j false = true ∨ ∃ Q ∈ (inp.blocks S).preds, inp.movesOnGoto Q = false))
        mv (emitPendingAt inp S pending c mv j) ∧
      (c.getD j false = true →
          pending.getD j ⟨.invalid, .invalid⟩ ∈ (emitPendingAt inp S pending c mv j).entry S) ∧
      (c.getD j false = false → ∀ Q ∈ (inp.blocks S).preds, inp.movesOnGoto Q = true →
          pending.getD j ⟨.invalid, .invalid⟩ ∈ (emitPendingAt inp S pending c mv j).exit Q) := by
  unfold emitPendingAt
  split
  case isTrue hc =>
    exact ⟨⟨.refl, Appends.single rfl ⟨rfl, Or.inl hc⟩⟩, fun _ => by simp,
      fun h => absurd (hc.symm.trans h) Bool.noConfusion⟩
  case isFalse hc =>
    simp only [Bool.not_eq_true] at hc
    obtain ⟨e, hmem⟩ := extends_emitOnEdges (pending.getD j ⟨.invalid, .invalid⟩)
      (inp.blocks S).preds mv fun _ => id
    exact ⟨e.mono (fun _ _ h => ⟨hc, h.symm⟩) (fun _ ⟨h, hQ⟩ => ⟨h.symm, Or.inr hQ⟩),
      fun h => absurd (hc.symm.trans h) Bool.noConfusion, fun _ => hmem⟩

/-- The emission loop over the indices `is`. -/
theorem emitPending_spec (pending : List Move) (c : List Bool) : ∀ (is : List Nat) (mv : Moves),
    Extends inp S (fun _ m => ∃ k ∈ is, c.getD k false = false ∧ pending.getD k ⟨.invalid, .invalid⟩ = m)
        (fun m => ∃ j ∈ is, pending.getD j ⟨.invalid, .invalid⟩ = m ∧
          (c.getD j false = true ∨ ∃ Q ∈ (inp.blocks S).preds, inp.movesOnGoto Q = false))
        mv (is.foldl (emitPendingAt inp S pending c) mv) ∧
      ∀ j ∈ is, (c.getD j false = true →
          pending.getD j ⟨.invalid, .invalid⟩ ∈ (is.foldl (emitPendingAt inp S pending c) mv).entry S) ∧
        (c.getD j false = false → ∀ Q ∈ (inp.blocks S).preds, inp.movesOnGoto Q = true →
          pending.getD j ⟨.invalid, .invalid⟩ ∈ (is.foldl (emitPendingAt inp S pending c) mv).exit Q)
  | [], _ => ⟨.refl, by simp⟩
  | j :: is, mv => by
    rw [List.foldl_cons]
    have hj := List.mem_cons_self j is
    obtain ⟨e₁, hin, hout⟩ := emitPendingAt_spec pending c mv j
    obtain ⟨e, hmem⟩ := emitPending_spec pending c is (emitPendingAt inp S pending c mv j)
    refine ⟨(e₁.mono (fun _ _ h => ⟨j, hj, h⟩) (fun _ h => ⟨j, hj, h⟩)).trans
      (e.mono (fun _ _ ⟨k, hk, h⟩ => ⟨k, List.mem_cons_of_mem j hk, h⟩)
        (fun _ ⟨i, hi, h⟩ => ⟨i, List.mem_cons_of_mem j hi, h⟩)), fun i hi => ?_⟩
    rcases List.mem_cons.1 hi with rfl | hi
    · exact ⟨fun h => e.entry.subset (hin h), fun h Q hQ hg => e.exit.subset (hout h Q hQ hg)⟩
    · exact hmem i hi

/-- The scan of the incoming goto moves: a source it reports free is written by
no move on them. -/
theorem blockedAtPreds_false {mv : Moves} {src : Location}
    (h : blockedAtPreds inp mv S src = some false) :
    ∀ Q ∈ (inp.blocks S).preds, ∀ m ∈ mv.exit Q, m.isRedundant = false → m.dest ≠ src := by
  intro Q hQ m hm hr hd
  unfold blockedAtPreds at h
  simp only [bind, pure, Option.bind_eq_some, Option.some.injEq] at h
  obtain ⟨hits, hhits, hany⟩ := h
  obtain ⟨b, hz, hb⟩ := exists_mem_zip_of_forall₂ (forall₂_of_mapM_eq_some hhits) hQ
  obtain ⟨ms, hms, rfl⟩ := Option.map_eq_some'.1 hb
  have hms : ms = mv.exit Q := by
    unfold exitMovesOf at hms
    split at hms <;> simp_all
  have hfalse := List.any_eq_false.1 hany _ (List.of_mem_zip hz).2
  subst hms
  exact hfalse (List.any_eq_true.2 ⟨m, hm, by simp [hr, hd]⟩)

/-- A pending move that may be sunk into `S`: no move on an incoming goto move,
and no blocked pending move, writes its source. -/
def FreeSource (inp : ResolveInput) (S : Nat) (mv : Moves) (blocked : Move → Prop) (m : Move) :
    Prop :=
  (∀ Q ∈ (inp.blocks S).preds, ∀ m' ∈ mv.exit Q, m'.isRedundant = false → m'.dest ≠ m.src) ∧
    ∀ m', blocked m' → m'.dest ≠ m.src

/-- The pending moves of `S`. The blocked ones go onto the goto move of every
predecessor. The others are sunk into `S`, and each of them has a free source,
unless some predecessor does not end in a goto. -/
theorem resolvePending_spec {mv mv' : Moves} {pd : List Move}
    (h : resolvePending inp S mv pd = some mv') :
    ∃ blocked : Move → Prop, (∀ m, blocked m → m ∈ pd) ∧
      Extends inp S (fun _ m => blocked m)
        (fun m => m ∈ pd ∧ (FreeSource inp S mv blocked m ∨
          ∃ Q ∈ (inp.blocks S).preds, inp.movesOnGoto Q = false)) mv mv' ∧
      ∀ m ∈ pd, m ∈ mv'.entry S ∨
        ∀ Q ∈ (inp.blocks S).preds, inp.movesOnGoto Q = true → m ∈ mv'.exit Q := by
  unfold resolvePending at h
  split at h
  case isTrue hnil =>
    cases h
    exact ⟨fun _ => False, fun _ => False.elim, .refl, by simp [hnil]⟩
  simp only [bind, pure, Option.some_bind, Option.bind_eq_some, Option.some.injEq] at h
  obtain ⟨bl, hbl, rfl⟩ := h
  have hF := forall₂_of_mapM_eq_some hbl
  have hlen : bl.length = pd.length := hF.length_eq.symm
  -- the initial scan: a set bit of `can_emit` is a source no goto move writes
  have hscan : ∀ j, (bl.map (!·)).getD j false = true →
      ∀ Q ∈ (inp.blocks S).preds, ∀ m' ∈ mv.exit Q, m'.isRedundant = false →
        m'.dest ≠ (pd.getD j ⟨.invalid, .invalid⟩).src := by
    intro j hj
    simp only [List.getD_eq_getElem?_getD, List.getElem?_map] at hj
    cases hb : bl[j]? with
    | none => simp [hb] at hj
    | some b =>
      obtain ⟨a, ha, hab⟩ := forall₂_getElem? hF hb
      simp only [hb, Option.map_some', Option.getD_some, Bool.not_eq_true'] at hj
      subst hj
      simpa [List.getD_eq_getElem?_getD, ha] using blockedAtPreds_false hab
  let c := propagate pd (pd.length + 1) (bl.map (!·)) (bl.any id)
  have hst : Stable pd c := by
    refine propagate_stable pd _ _ _ (fun hany j _ k hk _ hck => ?_) (fun _ => ?_)
    · have hk' : k < bl.length := hlen ▸ hk
      have := List.any_eq_false.1 hany _ (List.getElem_mem hk')
      simp_all [List.getD_eq_getElem?_getD, List.getElem?_map, hk']
    · have := List.count_le_length true (bl.map (!·))
      simp only [List.length_map, hlen] at this
      omega
  let blocked : Move → Prop := fun m =>
    ∃ k < pd.length, c.getD k false = false ∧ pd.getD k ⟨.invalid, .invalid⟩ = m
  obtain ⟨e, hmem⟩ := emitPending_spec pd c (List.range pd.length) mv
  refine ⟨blocked, fun m ⟨k, hk, _, hm⟩ => ?_, e.mono (fun _ m ⟨k, hk, h⟩ => ⟨k, List.mem_range.1 hk, h⟩)
    (fun m ⟨j, hj, hm, hor⟩ => ?_), fun m hm => ?_⟩
  · rw [← hm, List.getD_eq_getElem _ _ hk]
    exact List.getElem_mem hk
  · have hj := List.mem_range.1 hj
    refine ⟨hm ▸ (List.getD_eq_getElem _ _ hj ▸ List.getElem_mem hj), hor.imp (fun hc => ?_) id⟩
    subst hm
    exact ⟨hscan j (propagate_mono pd _ _ _ j hc),
      fun m' ⟨k, hk, hck, hm'⟩ => hm' ▸ hst j hj k hk hc hck⟩
  · obtain ⟨j, hj, rfl⟩ := List.mem_iff_getElem.1 hm
    have := hmem j (List.mem_range.2 hj)
    rw [← List.getD_eq_getElem _ ⟨.invalid, .invalid⟩ hj]
    cases hc : c.getD j false
    · exact Or.inr (this.2 hc)
    · exact Or.inl (this.1 hc)

end PendingMoves

/-! ## One block, and the run over `block_order_` -/

section Block
variable {inp : ResolveInput}

/-- A run of an `Option` loop relates its start and end state by any reflexive,
transitive relation that each step respects. -/
theorem foldlM_rel {α β : Type} {f : β → α → Option β} (R : β → β → Prop)
    (refl : ∀ b, R b b) (trans : ∀ a b c, R a b → R b c → R a c)
    (step : ∀ b a b', f b a = some b' → R b b') :
    ∀ (l : List α) (b b' : β), l.foldlM f b = some b' → R b b'
  | [], b, _, h => by cases h; exact refl b
  | a :: l, b, b', h => by
    simp only [List.foldlM_cons, bind, Option.bind_eq_some] at h
    obtain ⟨b₁, h₁, h⟩ := h
    exact trans _ _ _ (step b a b₁ h₁) (foldlM_rel R refl trans step l b₁ b' h)

/-- Any block's live-in step only appends, to the goto moves of its
predecessors and to its own entry move. -/
theorem resolveLiveIn_extends {X v : Nat} {acc acc' : Moves × List Move}
    (h : resolveLiveIn inp X acc v = some acc') :
    Extends inp X (fun _ _ => True) (fun _ => True) acc.1 acc'.1 := by
  unfold resolveLiveIn at h
  by_cases hshort : ((inp.chain v).length ≤ 1 && !(inp.blocks X).isCatch) = true
  · rw [if_pos hshort] at h; cases h; exact .refl
  rw [if_neg hshort] at h
  simp only [bind, pure, Option.bind_eq_some] at h
  obtain ⟨dst, -, h⟩ := h
  by_cases hsp : dst = inp.spillSlot v
  · rw [if_pos hsp] at h; cases h; exact .refl
  rw [if_neg hsp, Option.some_bind] at h
  by_cases hc : (inp.blocks X).isCatch = true
  · rw [if_pos hc] at h
    split at h
    · cases h; exact ⟨.refl, Appends.single rfl trivial⟩
    · cases h; exact .refl
  rw [if_neg hc] at h
  simp only [Option.some_bind, Option.bind_eq_some] at h
  obtain ⟨srcs, -, h⟩ := h
  by_cases hsame : (decide (1 < srcs.length) && allSame srcs) = true
  · rw [if_pos hsame] at h
    split at h
    · cases h; exact .refl
    · simp only [Option.some.injEq] at h
      split at h <;> (cases h; exact .refl)
  · rw [if_neg hsame] at h
    cases h
    exact (extends_emitEdgeMoves dst _ _ fun p hp => (List.of_mem_zip hp).1).mono
      (fun _ _ _ => trivial) (fun _ _ => trivial)

/-- Any block's iteration only appends, to the goto moves of its predecessors
and to its own entry move. -/
theorem resolveBlock_extends {X : Nat} {mv mv' : Moves} (h : resolveBlock inp mv X = some mv') :
    Extends inp X (fun _ _ => True) (fun _ => True) mv mv' := by
  simp only [resolveBlock, bind, Option.bind_eq_some] at h
  obtain ⟨r, hr, h⟩ := h
  have e₁ := foldlM_rel (fun a b => Extends inp X (fun _ _ => True) (fun _ => True) a.1 b.1)
    (fun _ => .refl) (fun _ _ _ h₁ h₂ => by dsimp only at h₁ h₂ ⊢; exact h₁.trans h₂)
    (fun _ _ _ h => resolveLiveIn_extends h)
    _ _ _ hr
  obtain ⟨_, -, e₂, -⟩ := resolvePending_spec h
  exact e₁.trans (e₂.mono (fun _ _ _ => trivial) (fun _ _ => trivial))

/-- A live value of `S` is moved into place on the edge from `P`, in `S`, or
the edge is one the graph shape rules out. -/
def Covered (inp : ResolveInput) (S P : Nat) (mv : Moves) (v : Nat) : Prop :=
  ∀ d s, dstLoc inp S v = some d → d ≠ inp.spillSlot v → srcLoc inp v P = some s →
    s = d ∨ ⟨d, s⟩ ∈ mv.exit P ∨ ⟨d, s⟩ ∈ mv.entry S ∨
      (inp.movesOnGoto P = false ∧ 1 < (inp.blocks S).preds.length)

/-- The iteration of a block that is not a catch entry. The live-in loop
appends edge moves. The pending phase appends blocked sink moves onto the goto
moves, and sinks the others into `S` with a free source. Every live value is
covered. -/
theorem resolveBlock_spec {S : Nat} (hcatch : (inp.blocks S).isCatch = false) {mv mv' : Moves}
    (h : resolveBlock inp mv S = some mv') :
    ∃ mv₁ blocked, Extends inp S (EdgeMove inp S) (EntryEdgeMove inp S) mv mv₁ ∧
      (∀ m, blocked m → SinkMove inp S m) ∧
      Extends inp S (fun _ m => blocked m)
        (fun m => SinkMove inp S m ∧ (FreeSource inp S mv₁ blocked m ∨
          ∃ Q ∈ (inp.blocks S).preds, inp.movesOnGoto Q = false)) mv₁ mv' ∧
      ∀ v ∈ (inp.blocks S).liveIn, ∀ P ∈ (inp.blocks S).preds, Covered inp S P mv' v := by
  simp only [resolveBlock, bind, Option.bind_eq_some] at h
  obtain ⟨⟨mv₁, pd⟩, hr, h⟩ := h
  obtain ⟨eA, ⟨ys, hys, hsink⟩, hres⟩ := liveInLoop_spec hcatch _ mv [] _ (fun _ => id) hr
  simp only [List.nil_append] at hys
  subst hys
  obtain ⟨blocked, hbl, eC, hpd⟩ := resolvePending_spec h
  refine ⟨mv₁, blocked, eA, fun m hm => hsink m (hbl m hm),
    eC.mono (fun _ _ => id) (fun m ⟨hm, h⟩ => ⟨hsink m hm, h⟩), fun v hv P hP d s hd hne hs => ?_⟩
  rcases hres v hv P hP d s hd hne hs with h | h | h | h
  · exact Or.inl h
  · exact Or.inr (Or.inl (eC.exit.subset h))
  · exact Or.inr (Or.inr (Or.inl (eC.entry.subset h)))
  · rcases hpd _ h with h' | h'
    · exact Or.inr (Or.inr (Or.inl h'))
    · cases hg : inp.movesOnGoto P
      · exact Or.inr (Or.inr (Or.inr ⟨rfl, (hsink _ h).1⟩))
      · exact Or.inr (Or.inl (h' P hP hg))

/-- The blocks other than `S` leave `P`'s goto move and `S`'s entry move
alone, when only `S` can write to `P`'s goto move. -/
theorem foldlM_resolveBlock_frame {S P : Nat}
    (hP : ∀ X, P ∈ (inp.blocks X).preds → inp.movesOnGoto P = true → X = S) :
    ∀ (xs : List Nat) (mv mv' : Moves), S ∉ xs → xs.foldlM (resolveBlock inp) mv = some mv' →
      mv'.exit P = mv.exit P ∧ mv'.entry S = mv.entry S
  | [], _, _, _, h => by cases h; exact ⟨rfl, rfl⟩
  | X :: xs, mv, mv', hS, h => by
    simp only [List.foldlM_cons, bind, Option.bind_eq_some] at h
    obtain ⟨mv₁, h₁, h⟩ := h
    have hX : X ≠ S := fun h => hS (h ▸ List.mem_cons_self X xs)
    have e := resolveBlock_extends h₁
    obtain ⟨hx, he⟩ := foldlM_resolveBlock_frame hP xs mv₁ mv' (fun h => hS (List.mem_cons_of_mem X h)) h
    exact ⟨hx.trans (e.exit.eq_of_not fun ⟨hp, hg⟩ => hX (hP X hp hg)),
      he.trans (e.entry.eq_of_not (Ne.symm hX))⟩

end Block

/-! ## The edge theorem -/

/-- The parallel move executed at `P`'s exit: its goto (or try-entry) move;
other block ends carry none. -/
def edgeExitMoves (inp : ResolveInput) (mv : Moves) (P : Nat) : List Move :=
  (exitMovesOf inp mv P).getD []

/-- The machine state on entry to `S` along the edge from `P`: `P`'s exit move,
then `S`'s entry move, each a simultaneous assignment. -/
def runEdge {α : Type} (inp : ResolveInput) (mv : Moves) (S P : Nat) (σ : Location → α) :
    Location → α :=
  execParallelMove (mv.entry S) (execParallelMove (edgeExitMoves inp mv P) σ)

theorem edgeExitMoves_of_isGoto {inp : ResolveInput} {mv : Moves} {P : Nat}
    (h : (inp.blocks P).exit.isGoto = true) : edgeExitMoves inp mv P = mv.exit P := by
  unfold edgeExitMoves exitMovesOf
  split <;> simp_all [Exit.isGoto]

theorem mem_exit_of_mem_edgeExitMoves {inp : ResolveInput} {mv : Moves} {P : Nat} {m : Move}
    (h : m ∈ edgeExitMoves inp mv P) : m ∈ mv.exit P := by
  unfold edgeExitMoves exitMovesOf at h
  split at h <;> simp_all

theorem exists_mem_of_locAt {chain : List Sibling} {p : Nat} {l : Location}
    (h : locAt chain p = some l) : ∃ r ∈ chain, r.loc = l := by
  obtain ⟨r, hr, rfl⟩ := Option.map_eq_some'.1 h
  exact ⟨r, List.mem_of_find?_eq_some hr, rfl⟩

theorem eq_of_mem_of_length_le_one {l : List Nat} (h : l.length ≤ 1) {a b : Nat} (ha : a ∈ l)
    (hb : b ∈ l) : a = b := by
  match l, h with
  | [_], _ => simp_all

/-- The shape of the flow graph that edge resolution relies on. -/
structure GraphWF (inp : ResolveInput) (phiMoves : Nat → List Move) : Prop where
  /-- `block_order_` lists every block once. -/
  order_nodup : inp.order.Nodup
  /-- A predecessor edge is a successor edge of the predecessor's block end. -/
  pred_succ : ∀ X Q, Q ∈ (inp.blocks X).preds → X ∈ (inp.blocks Q).exit.succs
  /-- No critical edges: a predecessor of a block with several predecessors has
  one successor. -/
  no_critical : ∀ X Q, Q ∈ (inp.blocks X).preds → 1 < (inp.blocks X).preds.length →
    (inp.blocks Q).exit.succs.length = 1
  /-- A predecessor of a join ends in a goto or a try entry: `NumberInstructions`
  reaches `UNREACHABLE` otherwise. -/
  join_pred : ∀ X Q, Q ∈ (inp.blocks X).preds → 1 < (inp.blocks X).preds.length →
    (inp.blocks Q).exit.isGoto = true ∨ ∃ b c, (inp.blocks Q).exit = .tryEntry b c
  /-- Phi moves sit only in gotos: `ConnectIncomingPhiMoves` asserts that the
  predecessor ends in one. -/
  phi_goto : ∀ Q, phiMoves Q ≠ [] → (inp.blocks Q).exit.isGoto = true
  /-- The graph entry does not end in a goto. -/
  entry_exit : ∀ Q, inp.isGraphEntry Q = true → (inp.blocks Q).exit.isGoto = false

/-- The allocation as seen at the edge `P → S`. Every sibling of a live value
has a location. Distinct live values occupy distinct locations at `S`'s start.
The phi moves of the edge write distinct locations that no live value
occupies. -/
structure EntryLocs (inp : ResolveInput) (phiMoves : Nat → List Move) (S P : Nat) : Prop where
  assigned : ∀ v ∈ (inp.blocks S).liveIn, ∀ r ∈ inp.chain v, r.loc ≠ .invalid
  dst_inj : ∀ v ∈ (inp.blocks S).liveIn, ∀ w ∈ (inp.blocks S).liveIn, ∀ l,
    dstLoc inp S v = some l → dstLoc inp S w = some l → v = w
  dst_phi : ∀ v ∈ (inp.blocks S).liveIn, ∀ m ∈ phiMoves P, dstLoc inp S v ≠ some m.dest
  phi_inj : ∀ m ∈ phiMoves P, ∀ m' ∈ phiMoves P, m.dest = m'.dest → m.dest ≠ .invalid → m = m'

section Edge
variable {inp : ResolveInput} {phiMoves : Nat → List Move}

/-- Edge moves go into a goto exactly when the predecessor ends in one: the
graph entry, which `EmitMoveOnEdge` passes over, does not. -/
theorem GraphWF.movesOnGoto_eq (hwf : GraphWF inp phiMoves) (Q : Nat) :
    inp.movesOnGoto Q = (inp.blocks Q).exit.isGoto := by
  unfold ResolveInput.movesOnGoto
  cases he : inp.isGraphEntry Q
  · simp
  · simp [hwf.entry_exit Q he]

/-- Without critical edges, a predecessor of a join ends in a goto: a try entry
has two successors. -/
theorem GraphWF.isGoto_of_join (hwf : GraphWF inp phiMoves) {X Q : Nat}
    (hQ : Q ∈ (inp.blocks X).preds) (h : 1 < (inp.blocks X).preds.length) :
    (inp.blocks Q).exit.isGoto = true := by
  rcases hwf.join_pred X Q hQ h with hg | ⟨b, c, he⟩
  · exact hg
  · have := hwf.no_critical X Q hQ h
    simp [he, Exit.succs] at this

/-- A block with a predecessor that does not end in a goto has no other
predecessor. -/
theorem GraphWF.length_le_one (hwf : GraphWF inp phiMoves) {X Q : Nat}
    (hQ : Q ∈ (inp.blocks X).preds) (hg : (inp.blocks Q).exit.isGoto = false) :
    (inp.blocks X).preds.length ≤ 1 := by
  by_contra h
  rw [hwf.isGoto_of_join hQ (by omega)] at hg
  exact Bool.noConfusion hg

/-- Only `S` writes to the goto move of a predecessor of `S`: a goto has one
successor. -/
theorem GraphWF.eq_of_isGoto (hwf : GraphWF inp phiMoves) {S P X : Nat}
    (hP : P ∈ (inp.blocks S).preds) (hX : P ∈ (inp.blocks X).preds)
    (hg : (inp.blocks P).exit.isGoto = true) : X = S := by
  have h₁ := hwf.pred_succ S P hP
  have h₂ := hwf.pred_succ X P hX
  cases he : (inp.blocks P).exit <;> simp_all [Exit.isGoto, Exit.succs]

/-- The edge theorem for the iteration of `S` itself, from the goto move of
`P` holding the phi moves and an empty entry move of `S`. -/
theorem resolveBlock_edge_dataflow {α : Type} (hwf : GraphWF inp phiMoves) {S P : Nat}
    (hcatch : (inp.blocks S).isCatch = false) (hP : P ∈ (inp.blocks S).preds)
    (hlocs : EntryLocs inp phiMoves S P) {mv mv' : Moves} (hx : mv.exit P = phiMoves P)
    (he : mv.entry S = []) (h : resolveBlock inp mv S = some mv') (σ : Location → α)
    (val : Nat → α) (hlive : ∀ v ∈ (inp.blocks S).liveIn, ∃ l, srcLoc inp v P = some l ∧ σ l = val v) :
    (∀ v ∈ (inp.blocks S).liveIn, ∀ l, dstLoc inp S v = some l → l ≠ inp.spillSlot v →
        runEdge inp mv' S P σ l = val v) ∧
      ∀ m ∈ phiMoves P, m.src ≠ .invalid → m.dest ≠ .invalid → runEdge inp mv' S P σ m.dest = σ m.src := by
  obtain ⟨mv₁, blocked, eA, hbl, eC, hcov⟩ := resolveBlock_spec hcatch h
  -- a predecessor that does not end in a goto is alone and carries no exit move
  have hmg := hwf.movesOnGoto_eq
  have hnongoto : (inp.blocks P).exit.isGoto = false → mv'.exit P = [] := by
    intro hg
    have hn : ¬(P ∈ (inp.blocks S).preds ∧ inp.movesOnGoto P = true) :=
      fun ⟨_, h⟩ => by simp [hmg, hg] at h
    rw [eC.exit.eq_of_not hn, eA.exit.eq_of_not hn, hx]
    by_contra hne
    simp [hwf.phi_goto P hne] at hg
  -- what the exit move and the entry move carry
  have exitMem : ∀ m ∈ mv'.exit P, m ∈ phiMoves P ∨ EdgeMove inp S P m ∨ SinkMove inp S m := by
    intro m hm
    rcases eC.exit.mem hm with hm | hm
    · exact (eA.exit.mem hm).imp (hx ▸ ·) Or.inl
    · exact Or.inr (Or.inr (hbl m hm))
  have entryMem : ∀ m ∈ mv'.entry S, ((inp.blocks P).exit.isGoto = false ∧ EdgeMove inp S P m) ∨
      (SinkMove inp S m ∧ FreeSource inp S mv₁ blocked m) := by
    intro m hm
    rcases eC.entry.mem hm with hm | ⟨hsink, hfree⟩
    · rcases eA.entry.mem hm with hm | ⟨Q, hQ, hg, hedge⟩
      · simp [he] at hm
      · rw [hmg] at hg
        obtain rfl := eq_of_mem_of_length_le_one (hwf.length_le_one hQ hg) hQ hP
        exact Or.inl ⟨hg, hedge⟩
    · refine Or.inr ⟨hsink, hfree.resolve_right fun ⟨Q, hQ, hg⟩ => ?_⟩
      rw [hmg, hwf.isGoto_of_join hQ hsink.1] at hg
      exact Bool.noConfusion hg
  -- the sources the entry move reads survive the exit move
  have srcSafe : ∀ m ∈ mv'.entry S,
      execParallelMove (edgeExitMoves inp mv' P) σ m.src = σ m.src := by
    intro m hm
    refine execParallelMove_eq (fun m' hm' hr hd => absurd hd ?_) fun _ => rfl
    have hm' := mem_exit_of_mem_edgeExitMoves hm'
    rcases entryMem m hm with ⟨hg, -⟩ | ⟨-, hfree⟩
    · simp [hnongoto hg] at hm'
    · rcases eC.exit.mem hm' with h | h
      exacts [hfree.1 P hP m' h hr, hfree.2 m' h]
  -- a move into the location of a live value comes from that value
  have same : ∀ v ∈ (inp.blocks S).liveIn, ∀ d s, dstLoc inp S v = some d →
      srcLoc inp v P = some s → ∀ m, m.dest = d → (EdgeMove inp S P m ∨ SinkMove inp S m) →
        m.src = s := by
    intro v hv d s hd hs m hmd hm
    obtain ⟨w, hw, hwd, hws⟩ : ∃ w ∈ (inp.blocks S).liveIn,
        dstLoc inp S w = some m.dest ∧ srcLoc inp v P = some s ∧ srcLoc inp w P = some m.src := by
      rcases hm with ⟨w, hw, h₁, h₂⟩ | ⟨-, w, hw, h₁, h₂⟩
      exacts [⟨w, hw, h₁, hs, h₂⟩, ⟨w, hw, h₁, hs, h₂ P hP⟩]
    obtain rfl := hlocs.dst_inj v hv w hw d hd (hmd ▸ hwd)
    rw [hws.1] at hws
    exact (Option.some.inj hws.2).symm
  have notPhi : ∀ m ∈ phiMoves P, ∀ m', (EdgeMove inp S P m' ∨ SinkMove inp S m') →
      m'.dest ≠ m.dest := by
    rintro m hm m' (⟨w, hw, h₁, -⟩ | ⟨-, w, hw, h₁, -⟩) hd <;>
      exact hlocs.dst_phi w hw m hm (hd ▸ h₁)
  have valid : ∀ v ∈ (inp.blocks S).liveIn, ∀ p l, locAt (inp.chain v) p = some l →
      l ≠ .invalid := fun v hv _ _ h => by
    obtain ⟨r, hr, rfl⟩ := exists_mem_of_locAt h
    exact hlocs.assigned v hv r hr
  refine ⟨fun v hv d hd hne => ?_, fun m hm hs hd => ?_⟩
  · -- a live value
    obtain ⟨s, hs, hσ⟩ := hlive v hv
    have hdv := valid v hv _ d hd
    have hsv := valid v hv _ s hs
    refine execParallelMove_eq (fun m hm _ hmd => ?_) fun hnoN => ?_
    · rw [srcSafe m hm, same v hv d s hd hs m hmd ((entryMem m hm).imp (·.2) (·.1)), hσ]
    refine execParallelMove_eq (fun m hm _ hmd => ?_) fun hnoX => ?_
    · rcases exitMem m (mem_exit_of_mem_edgeExitMoves hm) with hphi | hm'
      · exact absurd (hmd ▸ hd) (hlocs.dst_phi v hv m hphi)
      · rw [same v hv d s hd hs m hmd hm', hσ]
    -- no move writes the location: it already held the value
    have selfMove : ∀ ms : List Move, ⟨d, s⟩ ∈ ms →
        (∀ m ∈ ms, m.isRedundant = false → m.dest ≠ d) → s = d := fun ms hin hno => by
      cases hr : Move.isRedundant ⟨d, s⟩
      · exact absurd rfl (hno _ hin hr)
      · exact Move.src_eq_dest_of_isRedundant hr hsv hdv
    rcases hcov v hv P hP d s hd hne hs with h | h | h | ⟨hg, hl⟩
    · rw [← h, hσ]
    · cases hg : (inp.blocks P).exit.isGoto
      · simp [hnongoto hg] at h
      · rw [← selfMove _ (edgeExitMoves_of_isGoto hg ▸ h) hnoX, hσ]
    · rw [← selfMove _ h hnoN, hσ]
    · exact absurd (hwf.isGoto_of_join hP hl) (by simp [← hmg, hg])
  · -- a phi
    have hgoto := hwf.phi_goto P (List.ne_nil_of_mem hm)
    unfold runEdge
    rw [edgeExitMoves_of_isGoto hgoto]
    refine execParallelMove_eq (fun m' hm' _ hmd =>
      absurd hmd (notPhi m hm m' ((entryMem m' hm').imp (·.2) (·.1)))) fun _ => ?_
    refine execParallelMove_eq (fun m' hm' _ hmd => ?_) fun hnoX => ?_
    · rcases exitMem m' hm' with hphi | h'
      · rw [hlocs.phi_inj m' hphi m hm hmd (hmd ▸ hd)]
      · exact absurd hmd (notPhi m hm m' h')
    · cases hr : m.isRedundant
      · exact absurd rfl (hnoX m (eC.exit.subset (eA.exit.subset (hx ▸ hm))) hr)
      · rw [Move.src_eq_dest_of_isRedundant hr hs hd]

/-- Edge resolution over the whole block order. Take a graph without critical
edges, a block `S` that is not a catch entry, and a predecessor `P`, and execute
`P`'s goto move and then `S`'s entry move. If every live value of `S` sat in its
location at `P`'s exit, it now sits in its location at `S`'s start, unless that
location is its spill slot. Every phi destination on the edge receives what its
source held. -/
theorem resolveControlFlow_edge_dataflow {α : Type} (hwf : GraphWF inp phiMoves) {res : Moves}
    (hres : resolveControlFlow inp phiMoves = some res) {S P : Nat} (hS : S ∈ inp.order.drop 1)
    (hcatch : (inp.blocks S).isCatch = false) (hP : P ∈ (inp.blocks S).preds)
    (hlocs : EntryLocs inp phiMoves S P) (σ : Location → α) (val : Nat → α)
    (hlive : ∀ v ∈ (inp.blocks S).liveIn, ∃ l, srcLoc inp v P = some l ∧ σ l = val v) :
    (∀ v ∈ (inp.blocks S).liveIn, ∀ l, dstLoc inp S v = some l → l ≠ inp.spillSlot v →
        runEdge inp res S P σ l = val v) ∧
      ∀ m ∈ phiMoves P, m.src ≠ .invalid → m.dest ≠ .invalid → runEdge inp res S P σ m.dest = σ m.src := by
  obtain ⟨pre, post, hsplit⟩ := List.append_of_mem hS
  have hnd := hwf.order_nodup.sublist (List.drop_sublist 1 _)
  rw [hsplit, List.nodup_append, List.nodup_cons] at hnd
  have hpre : S ∉ pre := fun h => hnd.2.2 h (List.mem_cons_self S post)
  unfold resolveControlFlow at hres
  rw [hsplit, List.foldlM_append] at hres
  simp only [List.foldlM_cons, bind, Option.bind_eq_some] at hres
  obtain ⟨mv₀, h₀, mvS, hS', hres⟩ := hres
  have hwrite := fun X hX hg => hwf.eq_of_isGoto (X := X) hP hX (hwf.movesOnGoto_eq P ▸ hg)
  obtain ⟨hx₀, he₀⟩ := foldlM_resolveBlock_frame hwrite pre _ _ hpre h₀
  obtain ⟨hx₁, he₁⟩ := foldlM_resolveBlock_frame hwrite post _ _ hnd.2.1.1 hres
  have hrun : runEdge inp res S P σ = runEdge inp mvS S P σ := by
    unfold runEdge edgeExitMoves exitMovesOf
    rw [hx₁, he₁]
  rw [hrun]
  exact resolveBlock_edge_dataflow hwf hcatch hP hlocs hx₀ he₀ hS' σ val hlive

end Edge

/-- A diamond. B1 branches to B2 and B3, and both jump to the join B4. Value
`v0`, defined in B1, sits in register 1 until B4 and in register 2 from there.
B2's goto carries the phi move `r1 ← fp[-2]` and B3's `r1 ← r3`, so the move
`r2 ← r1` that B4 would like to sink is blocked and goes onto both gotos. -/
def diamond : ResolveInput where
  blocks b := [⟨0, 2, false, [], [], .other [1]⟩, ⟨2, 6, false, [], [0], .other [2, 3]⟩,
    ⟨6, 10, false, [0], [1], .goto 4⟩, ⟨10, 14, false, [0], [1], .goto 4⟩,
    ⟨14, 20, false, [0], [2, 3], .other []⟩].getD b ⟨0, 0, false, [], [], .other []⟩
  order := [0, 1, 2, 3, 4]
  chain v := if v = 0 then [⟨2, 14, .register 1⟩, ⟨14, 20, .register 2⟩] else []
  spillSlot _ := .stackSlot (-1) .fp
  exceptionLoc := .register 0
  stackTraceLoc := .register 5

/-- The phi moves on the gotos of the diamond. -/
def diamondPhis (b : Nat) : List Move :=
  if b = 2 then [⟨.register 1, .stackSlot (-2) .fp⟩]
  else if b = 3 then [⟨.register 1, .register 3⟩] else []

/-- A machine state on B2's exit: `v0` (value 7) in register 1, the phi input
(value 9) in `fp[-2]`. -/
def diamondState (l : Location) : Nat :=
  if l = .register 1 then 7 else if l = .stackSlot (-2) .fp then 9 else 0

theorem diamond_preds : ∀ X Q, Q ∈ (diamond.blocks X).preds →
    (X, Q) ∈ [(1, 0), (2, 1), (3, 1), (4, 2), (4, 3)] := by
  intro X Q hQ
  by_cases hX : X < 5
  · have : ∀ X < 5, ∀ Q ∈ (diamond.blocks X).preds,
        (X, Q) ∈ [(1, 0), (2, 1), (3, 1), (4, 2), (4, 3)] := by decide
    exact this X hX Q hQ
  · rw [show diamond.blocks X = ⟨0, 0, false, [], [], .other []⟩ from
      List.getD_eq_default _ _ (by simp; omega)] at hQ
    simp at hQ

/-- A fact about every edge of the diamond holds of every predecessor edge. -/
theorem diamond_edges {P : Nat → Nat → Prop}
    (h : ∀ e ∈ [((1 : Nat), (0 : Nat)), (2, 1), (3, 1), (4, 2), (4, 3)], P e.1 e.2) :
    ∀ X Q, Q ∈ (diamond.blocks X).preds → P X Q :=
  fun X Q hQ => h (X, Q) (diamond_preds X Q hQ)

theorem diamond_wf : GraphWF diamond diamondPhis where
  order_nodup := by decide
  pred_succ := diamond_edges (by decide)
  no_critical := diamond_edges (by decide)
  join_pred := fun X Q hQ hj => Or.inl (diamond_edges (P := fun X Q =>
    1 < (diamond.blocks X).preds.length → (diamond.blocks Q).exit.isGoto = true) (by decide) X Q hQ hj)
  phi_goto := fun Q hQ => by
    by_cases h₂ : Q = 2
    · subst h₂; rfl
    by_cases h₃ : Q = 3
    · subst h₃; rfl
    simp [diamondPhis, h₂, h₃] at hQ
  entry_exit := fun Q hQ => by
    have h0 : (0 : Nat) = Q := by simpa [ResolveInput.isGraphEntry, diamond] using hQ
    subst h0
    rfl

/-- The edge theorem on the diamond, along `B2 → B4`: register 2 receives `v0`
and register 1 the phi input. -/
theorem diamond_edge_dataflow :
    ∃ res, resolveControlFlow diamond diamondPhis = some res ∧
      runEdge diamond res 4 2 diamondState (.register 2) = 7 ∧
      runEdge diamond res 4 2 diamondState (.register 1) = 9 := by
  obtain ⟨res, hres⟩ : ∃ res, resolveControlFlow diamond diamondPhis = some res := ⟨_, rfl⟩
  have hlocs : EntryLocs diamond diamondPhis 4 2 :=
    ⟨by decide, fun v hv w hw _ _ _ => by simp_all [diamond], by decide, by decide⟩
  have h := resolveControlFlow_edge_dataflow diamond_wf hres (S := 4) (P := 2) (by decide) rfl
    (by decide) hlocs diamondState (fun _ => 7)
    (fun v hv => by
      obtain rfl : v = 0 := by simpa [diamond] using hv
      exact ⟨.register 1, rfl, rfl⟩)
  exact ⟨res, hres, h.1 0 (by decide) (.register 2) rfl (by decide),
    (h.2 ⟨.register 1, .stackSlot (-2) .fp⟩ (by decide) (by decide) (by decide)).trans (by decide)⟩

example : (resolveControlFlow diamond diamondPhis).map (fun r => (r.exit 2, r.exit 3, r.entry 4)) =
    some ([⟨.register 1, .stackSlot (-2) .fp⟩, ⟨.register 2, .register 1⟩],
      [⟨.register 1, .register 3⟩, ⟨.register 2, .register 1⟩], []) := by
  decide

end LinearScan
