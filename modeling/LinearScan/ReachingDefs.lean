import Mathlib.Algebra.Order.BigOperators.Group.Finset
import Mathlib.Logic.Relation

/-!
# Reaching definitions of phis

`ReachingDefs` (linearscan.cc 2348–2412) answers, for a phi, which virtual
registers can flow into it through chains of phis. The allocator asks it when
it hints a register for a loop phi (`AllocCtx.reachingDefs`). A phi's set starts
as the virtual registers of its inputs (`AddPhi`). `Compute` then collects every
phi the queried one depends on, transitively, and adds each input phi's set to
its user's until a round changes nothing. Sets are cached in the phis
(`phi->reaching_defs()`), so a later query may find some phis already done.

The main result is `reachingDefs_get_closure`:

> for every sequence of `Get` calls, each call terminates and returns exactly
> the virtual registers of the inputs of the phis reachable from the queried
> phi through phi inputs, itself included.

The proof carries `CacheExact` across calls: every cached set is already the
exact closure. Within a call, the sets of the newly added phis stay inside the
closure and above their initial sets (`PropInv`); each round that reports a
change grows the total size of the cached sets, which the closure bounds; and
at the fixpoint the cache is closed under phi-input edges, so it holds the
whole closure (`closure_subset_of_closed`).

Mirroring notes vs the C++ source:
- Phis are numbered `0 … numPhis - 1`. An input is its definition's two
  virtual registers and, when the definition is a phi, that phi's number
  (`AsPhi()`).
- A `BitVector` is a `Finset Nat`; `AddAll` returns whether the target grew.
- `phis_` is a list. The two loops of `Compute` run on fuel: `none` means the
  fuel ran out. `Get` asserts `phis_` is empty on entry, and `Compute` clears it
  on exit, so the state between calls is the cache alone.
-/

namespace LinearScan

/-- A phi input as `ReachingDefs` reads it: the definition's `vreg(0)` and
`vreg(1)`, and the definition as a phi, when it is one. -/
structure PhiInput where
  vreg0 : Nat
  vreg1 : Nat
  phi : Option Nat
  deriving DecidableEq, Repr

/-- The phis of a flow graph: their inputs and whether they have a pair
representation. Every phi input names a phi of the graph. -/
structure PhiGraph where
  numPhis : Nat
  inputs : Nat → List PhiInput
  isPair : Nat → Bool
  input_lt : ∀ p < numPhis, ∀ i ∈ inputs p, i.phi.all (· < numPhis) = true

/-- `phi->reaching_defs()` for every phi: null until `AddPhi` sets it. -/
def DefsCache := Nat → Option (Finset Nat)

/-- The cache with one phi's set replaced. -/
def DefsCache.set (cache : DefsCache) (p : Nat) (s : Finset Nat) : DefsCache :=
  fun q => if q = p then some s else cache q

@[simp] theorem DefsCache.set_apply (cache : DefsCache) (p : Nat) (s : Finset Nat) (q : Nat) :
    cache.set p s q = if q = p then some s else cache q := rfl

/-- `BitVector::AddAll`: the union, and whether the target grew. -/
def addAll (dst src : Finset Nat) : Finset Nat × Bool := (dst ∪ src, !decide (src ⊆ dst))

/-- The body of the fixpoint loop for one input of `p`. -/
def absorbInput (p : Nat) (acc : DefsCache × Bool) (i : PhiInput) : DefsCache × Bool :=
  match i.phi with
  | some q =>
    let r := addAll ((acc.1 p).getD ∅) ((acc.1 q).getD ∅)
    (acc.1.set p r.1, acc.2 || r.2)
  | none => acc

namespace PhiGraph
variable (G : PhiGraph)

/-- The initial set of `AddPhi`: every input's `vreg(0)`, and its `vreg(1)`
for a pair phi. -/
def initialDefs (p : Nat) : Finset Nat :=
  (G.inputs p).foldl
    (fun s i => if G.isPair p then insert i.vreg1 (insert i.vreg0 s) else insert i.vreg0 s) ∅

/-- `depends_on_phi`: some input is a phi. -/
def dependsOnPhi (p : Nat) : Bool := (G.inputs p).any (·.phi.isSome)

/-- `AddPhi(phi)` on `phis_` and the cache: a phi seen for the first time gets
its initial set, and goes on `phis_` when it depends on a phi. -/
def addPhi (s : List Nat × DefsCache) (p : Nat) : List Nat × DefsCache :=
  match s.2 p with
  | some _ => s
  | none => (if G.dependsOnPhi p then s.1 ++ [p] else s.1, s.2.set p (G.initialDefs p))

/-- `AddPhi` for every input of `p` that is a phi. -/
def addInputPhis (p : Nat) (s : List Nat × DefsCache) : List Nat × DefsCache :=
  (G.inputs p).foldl (fun s i => match i.phi with
    | some q => G.addPhi s q
    | none => s) s

/-- The first loop of `Compute`, from index `i` of the growing `phis_`. -/
def collectPhis : Nat → Nat → List Nat × DefsCache → Option (List Nat × DefsCache)
  | 0, _, _ => none
  | fuel + 1, i, s =>
    if h : i < s.1.length then collectPhis fuel (i + 1) (G.addInputPhis (s.1.get ⟨i, h⟩) s)
    else some s

/-- One round of the `do … while (changed)` loop over `phis_`. -/
def propagateRound (wl : List Nat) (cache : DefsCache) : DefsCache × Bool :=
  wl.foldl (fun acc p => (G.inputs p).foldl (absorbInput p) acc) (cache, false)

/-- The fixpoint loop of `Compute`: rounds until one changes nothing. -/
def propagate : Nat → List Nat → DefsCache → Option DefsCache
  | 0, _, _ => none
  | fuel + 1, wl, cache =>
    let r := G.propagateRound wl cache
    if r.2 then propagate fuel wl r.1 else some r.1

/-- `ReachingDefs::Get(phi)`: a cached set as it is; otherwise `AddPhi`, then
`Compute`, both loops on `fuel`. -/
def getReachingDefs (fuel : Nat) (cache : DefsCache) (p : Nat) : Option (Finset Nat × DefsCache) :=
  match cache p with
  | some s => some (s, cache)
  | none => do
    let s ← G.collectPhis fuel 0 (G.addPhi ([], cache) p)
    let cache ← G.propagate fuel s.1 s.2
    pure ((cache p).getD ∅, cache)

/-- A sequence of `Get` calls, each answer with the cache it leaves. -/
def getAll (fuel : Nat) : DefsCache → List Nat → Option (List (Finset Nat) × DefsCache)
  | cache, [] => some ([], cache)
  | cache, p :: ps => do
    let r ← G.getReachingDefs fuel cache p
    let rest ← getAll fuel r.2 ps
    pure (r.1 :: rest.1, rest.2)

/-! ## What `Get` should return -/

/-- `q` is an input of `p`. -/
def Edge (p q : Nat) : Prop := ∃ i ∈ G.inputs p, i.phi = some q

/-- `r` is reachable from `p` through phi inputs, `p` included. -/
def Reaches : Nat → Nat → Prop := Relation.ReflTransGen G.Edge

/-- `v` is a virtual register of an input of a phi reachable from `p`. -/
def InClosure (p v : Nat) : Prop := ∃ r, G.Reaches p r ∧ v ∈ G.initialDefs r

/-- Every cached set belongs to a phi of the graph and is its exact closure. -/
def CacheExact (cache : DefsCache) : Prop :=
  ∀ p s, cache p = some s → p < G.numPhis ∧ ∀ v, v ∈ s ↔ G.InClosure p v

/-- Every virtual register of an input of a phi of the graph. -/
def allDefs : Finset Nat := (Finset.range G.numPhis).biUnion G.initialDefs

/-- Enough fuel for both loops of `Compute`: `phis_` never lists more than
`numPhis` phis, and each round that changes a set adds one of at most
`numPhis * allDefs.card` bits. -/
def fuelBound : Nat := G.numPhis * (G.allDefs.card + 1) + 1

/-! ## The closure -/

variable {G}

theorem Edge.lt {p q : Nat} (h : G.Edge p q) (hp : p < G.numPhis) : q < G.numPhis := by
  obtain ⟨i, hi, hq⟩ := h
  simpa [hq] using G.input_lt p hp i hi

theorem Reaches.lt {p r : Nat} (h : G.Reaches p r) (hp : p < G.numPhis) : r < G.numPhis := by
  induction h with
  | refl => exact hp
  | tail _ he ih => exact he.lt ih

theorem inClosure_of_initialDefs {p v : Nat} (h : v ∈ G.initialDefs p) : G.InClosure p v :=
  ⟨p, .refl, h⟩

/-- What an input phi reaches, its user reaches. -/
theorem InClosure.of_edge {p q v : Nat} (he : G.Edge p q) (h : G.InClosure q v) : G.InClosure p v :=
  let ⟨r, hr, hv⟩ := h
  ⟨r, .head he hr, hv⟩

theorem InClosure.mem_allDefs {p v : Nat} (h : G.InClosure p v) (hp : p < G.numPhis) :
    v ∈ G.allDefs :=
  let ⟨r, hr, hv⟩ := h
  Finset.mem_biUnion.2 ⟨r, Finset.mem_range.2 (hr.lt hp), hv⟩

/-- Sets that hold their phis' initial sets, and their input phis' sets, hold
the closure: for every phi of `N`, whose input phis are in `N` or already hold
their closure. -/
theorem inClosure_mem_of_closed (S : Nat → Finset Nat) (N : Nat → Prop)
    (hinit : ∀ r, N r → G.initialDefs r ⊆ S r)
    (hedge : ∀ r, N r → ∀ q, G.Edge r q → S q ⊆ S r)
    (hstep : ∀ r, N r → ∀ q, G.Edge r q → N q ∨ ∀ v, G.InClosure q v → v ∈ S q)
    {p v : Nat} (hp : N p) (h : G.InClosure p v) : v ∈ S p := by
  obtain ⟨r, hr, hv⟩ := h
  induction hr using Relation.ReflTransGen.head_induction_on with
  | refl => exact hinit _ hp hv
  | head he hrest ih =>
    refine hedge _ hp _ he ?_
    rcases hstep _ hp _ he with hq | hq
    · exact ih hq
    · exact hq _ ⟨_, hrest, hv⟩

/-! ## Collecting the phis -/

/-- `phis_` only grows at its end and a set, once there, stays. -/
def Extends (s s' : List Nat × DefsCache) : Prop :=
  (∃ l, s'.1 = s.1 ++ l) ∧ ∀ r, (s.2 r).isSome → (s'.2 r).isSome

theorem Extends.refl (s : List Nat × DefsCache) : Extends s s := ⟨⟨[], by simp⟩, fun _ h => h⟩

theorem Extends.trans {s s' s'' : List Nat × DefsCache} (h : Extends s s') (h' : Extends s' s'') :
    Extends s s'' :=
  let ⟨⟨l, hl⟩, hc⟩ := h
  let ⟨⟨l', hl'⟩, hc'⟩ := h'
  ⟨⟨l ++ l', by rw [hl', hl, List.append_assoc]⟩, fun r hr => hc' r (hc r hr)⟩

variable (G) in
/-- What `AddPhi` keeps, against the cache `c₀` before the call: old sets
untouched, new ones initial and of phis of the graph, `phis_` listing new phis
once each, and every new phi with a phi input listed. -/
structure CollectInv (c₀ : DefsCache) (s : List Nat × DefsCache) : Prop where
  old : ∀ p, (c₀ p).isSome → s.2 p = c₀ p
  new : ∀ p t, c₀ p = none → s.2 p = some t → p < G.numPhis ∧ t = G.initialDefs p
  wl_new : ∀ p ∈ s.1, c₀ p = none ∧ (s.2 p).isSome
  nodup : s.1.Nodup
  listed : ∀ p, c₀ p = none → (s.2 p).isSome → G.dependsOnPhi p = true → p ∈ s.1

namespace CollectInv
variable {c₀ : DefsCache} {s : List Nat × DefsCache} (h : G.CollectInv c₀ s)
include h

theorem wl_lt {p : Nat} (hp : p ∈ s.1) : p < G.numPhis := by
  obtain ⟨h₀, hs⟩ := h.wl_new p hp
  obtain ⟨t, ht⟩ := Option.isSome_iff_exists.1 hs
  exact (h.new p t h₀ ht).1

/-- `phis_` lists each phi of the graph at most once. -/
theorem length_le : s.1.length ≤ G.numPhis := by
  rw [← List.toFinset_card_of_nodup h.nodup, ← Finset.card_range G.numPhis]
  exact Finset.card_le_card fun p hp =>
    Finset.mem_range.2 (h.wl_lt (List.mem_toFinset.1 hp))

/-- `AddPhi(q)` for a phi of the graph. -/
theorem addPhi {q : Nat} (hq : q < G.numPhis) :
    G.CollectInv c₀ (G.addPhi s q) ∧ ((G.addPhi s q).2 q).isSome ∧ Extends s (G.addPhi s q) := by
  unfold PhiGraph.addPhi
  cases hs : s.2 q with
  | some t => exact ⟨h, by simp [hs], Extends.refl s⟩
  | none =>
    have h₀ : c₀ q = none := by
      cases hc : c₀ q
      · rfl
      · rw [h.old q (by simp [hc]), hc] at hs; cases hs
    have hq' : q ∉ s.1 := fun hm => by simpa [hs] using (h.wl_new q hm).2
    refine ⟨⟨fun p hp => ?_, fun p t hp ht => ?_, fun p hp => ?_, ?_, fun p hp hc hd => ?_⟩,
      by simp, ⟨⟨if G.dependsOnPhi q then [q] else [], by split_ifs <;> simp⟩, fun r hr => ?_⟩⟩
    · have : p ≠ q := fun e => by rw [e, h₀] at hp; cases hp
      simpa [this] using h.old p hp
    · by_cases e : p = q
      · subst e; simp at ht; exact ⟨hq, ht.symm⟩
      · simp only [DefsCache.set_apply, e, if_false] at ht
        exact h.new p t hp ht
    · have hp' : p ∈ s.1 ∨ p = q := by split_ifs at hp <;> simp_all
      rcases hp' with hp' | rfl
      · have := h.wl_new p hp'
        have : p ≠ q := fun e => hq' (e ▸ hp')
        simp_all
      · simp [h₀]
    · split_ifs
      · exact h.nodup.append (List.nodup_singleton q) (by simpa using hq')
      · exact h.nodup
    · by_cases e : p = q
      · subst e; simp [hd]
      · simp only [DefsCache.set_apply, e, if_false] at hc
        have := h.listed p hp hc hd
        split_ifs <;> simp [this]
    · by_cases e : r = q
      · simp [e]
      · simpa [e] using hr

end CollectInv

/-- `AddPhi` for every phi input of a phi of the graph: afterwards each of them
has a set. -/
theorem CollectInv.addInputPhis {c₀ : DefsCache} {p : Nat} (hp : p < G.numPhis) :
    ∀ (l : List PhiInput) (s : List Nat × DefsCache), G.CollectInv c₀ s → (∀ i ∈ l, i ∈ G.inputs p) →
    let s' := l.foldl (fun s i => match i.phi with
      | some q => G.addPhi s q
      | none => s) s
    G.CollectInv c₀ s' ∧ Extends s s' ∧ ∀ i ∈ l, ∀ q, i.phi = some q → (s'.2 q).isSome
  | [], s, h, _ => ⟨h, Extends.refl s, by simp⟩
  | i :: l, s, h, hl => by
    have hstep : G.CollectInv c₀ (match i.phi with | some q => G.addPhi s q | none => s) ∧
        Extends s (match i.phi with | some q => G.addPhi s q | none => s) ∧
        ∀ q, i.phi = some q → ((match i.phi with | some q => G.addPhi s q | none => s).2 q).isSome := by
      cases hi : i.phi with
      | none => exact ⟨h, Extends.refl s, by simp⟩
      | some q =>
        have hq : q < G.numPhis := Edge.lt ⟨i, hl i (List.mem_cons_self _ _), hi⟩ hp
        obtain ⟨h₁, h₂, h₃⟩ := h.addPhi hq
        exact ⟨h₁, h₃, fun q' e => by cases e; exact h₂⟩
    obtain ⟨h₁, h₂, h₃⟩ := hstep
    obtain ⟨h₄, h₅, h₆⟩ := CollectInv.addInputPhis hp l _ h₁ fun j hj => hl j (List.mem_cons_of_mem _ hj)
    refine ⟨h₄, h₂.trans h₅, fun j hj q hq => ?_⟩
    rcases List.mem_cons.1 hj with rfl | hj
    · exact h₅.2 q (h₃ q hq)
    · exact h₆ j hj q hq

/-- The first loop of `Compute` ends, with enough fuel, once it has added the
input phis of every phi on `phis_`. -/
theorem CollectInv.collectPhis {c₀ : DefsCache} :
    ∀ (fuel i : Nat) (s : List Nat × DefsCache), G.CollectInv c₀ s → i ≤ s.1.length →
      G.numPhis < fuel + i → (∀ p ∈ s.1.take i, ∀ q, G.Edge p q → (s.2 q).isSome) →
      ∃ s', G.collectPhis fuel i s = some s' ∧ G.CollectInv c₀ s' ∧ Extends s s' ∧
        ∀ p ∈ s'.1, ∀ q, G.Edge p q → (s'.2 q).isSome
  | 0, i, s, h, hi, hf, _ => absurd (hi.trans h.length_le) (by omega)
  | fuel + 1, i, s, h, hi, hf, hdone => by
    unfold PhiGraph.collectPhis
    split_ifs with hlt
    · set p := s.1.get ⟨i, hlt⟩
      have hp : p < G.numPhis := h.wl_lt (List.get_mem _ _ _)
      obtain ⟨h₁, h₂, h₃⟩ : G.CollectInv c₀ (G.addInputPhis p s) ∧ Extends s (G.addInputPhis p s) ∧
          ∀ j ∈ G.inputs p, ∀ q, j.phi = some q → ((G.addInputPhis p s).2 q).isSome :=
        CollectInv.addInputPhis hp (G.inputs p) s h fun _ hj => hj
      obtain ⟨⟨l, hl⟩, hc⟩ := h₂
      have htake : (G.addInputPhis p s).1.take (i + 1) = s.1.take i ++ [p] := by
        rw [hl, List.take_append_of_le_length (by omega), List.take_succ,
          List.getElem?_eq_getElem hlt]
        rfl
      obtain ⟨s', hs', h₄, h₅, h₆⟩ := CollectInv.collectPhis fuel (i + 1) _ h₁
        (by rw [hl, List.length_append]; omega)
        (by omega) (by
          rw [htake]
          intro r hr q he
          rcases List.mem_append.1 hr with hr | hr
          · exact hc q (hdone r hr q he)
          · obtain ⟨j, hj, hjq⟩ := he
            rw [List.mem_singleton.1 hr] at hj
            exact h₃ j hj q hjq)
      exact ⟨s', hs', h₄, Extends.trans ⟨⟨l, hl⟩, hc⟩ h₅, h₆⟩
    · refine ⟨s, rfl, h, Extends.refl s, ?_⟩
      rwa [List.take_of_length_le (by omega)] at hdone

/-! ## The fixpoint loop -/

variable (G) in
/-- What the fixpoint loop keeps, against the cache `c₀` before the call: old
sets untouched; each new set holds its phi's initial set and stays inside its
closure; `phis_` lists new phis; and, as the first loop left it, every new phi
with a phi input is listed and every input phi of a listed phi has a set. -/
structure PropInv (c₀ : DefsCache) (wl : List Nat) (cache : DefsCache) : Prop where
  old : ∀ p, (c₀ p).isSome → cache p = c₀ p
  new : ∀ p t, c₀ p = none → cache p = some t →
    p < G.numPhis ∧ G.initialDefs p ⊆ t ∧ ∀ v ∈ t, G.InClosure p v
  wl_new : ∀ p ∈ wl, c₀ p = none ∧ (cache p).isSome
  listed : ∀ p, c₀ p = none → (cache p).isSome → G.dependsOnPhi p = true → p ∈ wl
  closed : ∀ p ∈ wl, ∀ q, G.Edge p q → (cache q).isSome

/-- Where the first loop ends, the fixpoint loop starts. -/
theorem CollectInv.propInv {c₀ : DefsCache} {s : List Nat × DefsCache} (h : G.CollectInv c₀ s)
    (hclosed : ∀ p ∈ s.1, ∀ q, G.Edge p q → (s.2 q).isSome) : G.PropInv c₀ s.1 s.2 where
  old := h.old
  new p t hp ht := by
    obtain ⟨hlt, rfl⟩ := h.new p t hp ht
    exact ⟨hlt, subset_rfl, fun v hv => inClosure_of_initialDefs hv⟩
  wl_new := h.wl_new
  listed := h.listed
  closed := hclosed

/-- A phi has a phi input exactly when it depends on a phi. -/
theorem dependsOnPhi_of_edge {p q : Nat} (he : G.Edge p q) : G.dependsOnPhi p = true := by
  obtain ⟨i, hi, hq⟩ := he
  exact List.any_eq_true.2 ⟨i, hi, by simp [hq]⟩

/-- Every cached set stays inside its phi's closure. -/
theorem PropInv.sound {c₀ : DefsCache} {wl : List Nat} {c : DefsCache} (hI : G.PropInv c₀ wl c)
    (hc₀ : G.CacheExact c₀) {q v : Nat} (hv : v ∈ (c q).getD ∅) : G.InClosure q v := by
  cases hcq : c q with
  | none => simp [hcq] at hv
  | some t =>
    rw [hcq, Option.getD_some] at hv
    cases hc : c₀ q with
    | none => exact (hI.new q t hc hcq).2.2 v hv
    | some t₀ =>
      rw [hI.old q (by simp [hc]), hc] at hcq
      cases hcq
      exact ((hc₀ q t hc).2 v).1 hv

variable (G) in
/-- A step of a round: sets only grow, the phis with a set stay the same,
`changed` is `false` after the step only if it was before and nothing changed,
and `true` only if it was before or a set of a phi of the graph grew. -/
def RoundStep (acc acc' : DefsCache × Bool) : Prop :=
  (∀ r, (acc.1 r).getD ∅ ⊆ (acc'.1 r).getD ∅) ∧ (∀ r, (acc'.1 r).isSome = (acc.1 r).isSome) ∧
  (acc'.2 = false → acc.2 = false ∧ acc'.1 = acc.1) ∧
  (acc'.2 = true → acc.2 = true ∨ ∃ r < G.numPhis, ((acc.1 r).getD ∅).card < ((acc'.1 r).getD ∅).card)

theorem RoundStep.refl (acc : DefsCache × Bool) : G.RoundStep acc acc :=
  ⟨fun _ => subset_rfl, fun _ => rfl, fun h => ⟨h, rfl⟩, fun h => .inl h⟩

theorem RoundStep.trans {acc acc' acc'' : DefsCache × Bool} (h : G.RoundStep acc acc')
    (h' : G.RoundStep acc' acc'') : G.RoundStep acc acc'' := by
  refine ⟨fun r => (h.1 r).trans (h'.1 r), fun r => (h'.2.1 r).trans (h.2.1 r), fun hf => ?_,
    fun ht => ?_⟩
  · obtain ⟨hf', he'⟩ := h'.2.2.1 hf
    obtain ⟨hf'', he''⟩ := h.2.2.1 hf'
    exact ⟨hf'', he'.trans he''⟩
  · rcases h'.2.2.2 ht with ht' | ⟨r, hr, hlt⟩
    · rcases h.2.2.2 ht' with ht'' | ⟨r, hr, hlt'⟩
      · exact .inl ht''
      · exact .inr ⟨r, hr, hlt'.trans_le (Finset.card_le_card (h'.1 r))⟩
    · exact .inr ⟨r, hr, (Finset.card_le_card (h.1 r)).trans_lt hlt⟩

section Round
variable {c₀ : DefsCache} {wl : List Nat} (hc₀ : G.CacheExact c₀)
include hc₀

/-- `phi->reaching_defs()->AddAll(input_phi->reaching_defs())` for one input
of a listed phi. -/
theorem PropInv.absorbInput {p : Nat} (hp : p ∈ wl) {i : PhiInput} (hi : i ∈ G.inputs p)
    {acc : DefsCache × Bool} (hI : G.PropInv c₀ wl acc.1) :
    G.PropInv c₀ wl (absorbInput p acc i).1 ∧ G.RoundStep acc (absorbInput p acc i) ∧
      ((absorbInput p acc i).2 = false →
        ∀ q, i.phi = some q → (acc.1 q).getD ∅ ⊆ (acc.1 p).getD ∅) := by
  obtain ⟨hp₀, hps⟩ := hI.wl_new p hp
  obtain ⟨dst, hdst⟩ := Option.isSome_iff_exists.1 hps
  obtain ⟨hplt, hinit, hsound⟩ := hI.new p dst hp₀ hdst
  unfold LinearScan.absorbInput
  cases hq : i.phi with
  | none => exact ⟨hI, RoundStep.refl acc, by simp⟩
  | some q =>
    simp only [addAll, hdst, Option.getD_some]
    by_cases hsub : (acc.1 q).getD ∅ ⊆ dst
    · have hset : acc.1.set p (dst ∪ (acc.1 q).getD ∅) = acc.1 := by
        funext r
        by_cases e : r = p
        · subst e; simp [hdst, Finset.union_eq_left.2 hsub]
        · simp [e]
      simp only [hsub, decide_True, Bool.not_true, Bool.or_false, hset, Prod.mk.eta]
      exact ⟨hI, RoundStep.refl acc, fun _ q' e => by cases e; exact hsub⟩
    · have he : G.Edge p q := ⟨i, hi, hq⟩
      simp only [hsub, decide_False, Bool.not_false, Bool.or_true]
      refine ⟨⟨fun r hr => ?_, fun r t hr ht => ?_, fun r hr => ?_, fun r hr hrs hd => ?_,
        fun r hr q' he' => ?_⟩, ⟨fun r => ?_, fun r => ?_, by simp, fun _ => .inr ⟨p, hplt, ?_⟩⟩,
        by simp⟩
      · have : r ≠ p := fun e => by rw [e, hp₀] at hr; cases hr
        simpa [this] using hI.old r hr
      · by_cases e : r = p
        · subst e
          simp only [DefsCache.set_apply, if_true, Option.some.injEq] at ht
          subst ht
          refine ⟨hplt, hinit.trans Finset.subset_union_left, fun v hv => ?_⟩
          rcases Finset.mem_union.1 hv with hv | hv
          · exact hsound v hv
          · exact (hI.sound hc₀ hv).of_edge he
        · simp only [DefsCache.set_apply, e, if_false] at ht
          exact hI.new r t hr ht
      · refine ⟨(hI.wl_new r hr).1, ?_⟩
        by_cases e : r = p <;> simp [e, (hI.wl_new r hr).2]
      · by_cases e : r = p
        · subst e; exact hp
        · exact hI.listed r hr (by simpa [e] using hrs) hd
      · by_cases e : q' = p
        · simp [e]
        · simpa [e] using hI.closed r hr q' he'
      · by_cases e : r = p
        · subst e; simp [hdst]
        · simp [e]
      · by_cases e : r = p
        · subst e; simp [hdst]
        · simp [e]
      · simp only [DefsCache.set_apply, if_true, hdst, Option.getD_some]
        exact Finset.card_lt_card (Finset.ssubset_iff_subset_ne.2 ⟨Finset.subset_union_left,
          fun h => hsub (h ▸ Finset.subset_union_right)⟩)

/-- The inputs of one listed phi; if `changed` stays `false`, each input
phi's set was already inside the phi's. -/
theorem PropInv.absorbInputs {p : Nat} (hp : p ∈ wl) :
    ∀ (l : List PhiInput) (acc : DefsCache × Bool), G.PropInv c₀ wl acc.1 →
      (∀ i ∈ l, i ∈ G.inputs p) →
      G.PropInv c₀ wl (l.foldl (LinearScan.absorbInput p) acc).1 ∧ G.RoundStep acc (l.foldl (LinearScan.absorbInput p) acc) ∧
        ((l.foldl (LinearScan.absorbInput p) acc).2 = false →
          ∀ i ∈ l, ∀ q, i.phi = some q → (acc.1 q).getD ∅ ⊆ (acc.1 p).getD ∅)
  | [], acc, hI, _ => ⟨hI, RoundStep.refl acc, by simp⟩
  | i :: l, acc, hI, hl => by
    obtain ⟨h₁, h₂, h₃⟩ := hI.absorbInput hc₀ hp (hl i (List.mem_cons_self _ _))
    obtain ⟨h₄, h₅, h₆⟩ := h₁.absorbInputs hp l _ fun j hj => hl j (List.mem_cons_of_mem _ hj)
    refine ⟨h₄, h₂.trans h₅, fun hf j hj q hq => ?_⟩
    obtain ⟨hf', he'⟩ := h₅.2.2.1 hf
    obtain ⟨-, he⟩ := h₂.2.2.1 hf'
    rcases List.mem_cons.1 hj with rfl | hj
    · exact h₃ hf' q hq
    · rw [← he]
      exact h₆ hf j hj q hq

/-- A stretch of the round over listed phis; if `changed` stays `false`, the
cache is closed under their phi-input edges. -/
theorem PropInv.absorbPhis :
    ∀ (ps : List Nat) (acc : DefsCache × Bool), G.PropInv c₀ wl acc.1 → (∀ p ∈ ps, p ∈ wl) →
      let acc' := ps.foldl (fun acc p => (G.inputs p).foldl (LinearScan.absorbInput p) acc) acc
      G.PropInv c₀ wl acc'.1 ∧ G.RoundStep acc acc' ∧
        (acc'.2 = false → ∀ p ∈ ps, ∀ q, G.Edge p q → (acc.1 q).getD ∅ ⊆ (acc.1 p).getD ∅)
  | [], acc, hI, _ => ⟨hI, RoundStep.refl acc, by simp⟩
  | p :: ps, acc, hI, hps => by
    obtain ⟨h₁, h₂, h₃⟩ :=
      hI.absorbInputs hc₀ (hps p (List.mem_cons_self _ _)) (G.inputs p) acc fun _ hi => hi
    obtain ⟨h₄, h₅, h₆⟩ := h₁.absorbPhis ps _ fun r hr => hps r (List.mem_cons_of_mem _ hr)
    refine ⟨h₄, h₂.trans h₅, fun hf r hr q ⟨i, hi, hq⟩ => ?_⟩
    obtain ⟨hf', he'⟩ := h₅.2.2.1 hf
    obtain ⟨-, he⟩ := h₂.2.2.1 hf'
    rcases List.mem_cons.1 hr with rfl | hr
    · exact h₃ hf' i hi q hq
    · rw [← he]
      exact h₆ hf r hr q ⟨i, hi, hq⟩

/-- One round: it keeps the invariant; it reports no change only when the
cache is unchanged and closed under the edges of `phis_`, and a change only
when a set of a phi of the graph grew. -/
theorem PropInv.propagateRound {c : DefsCache} (hI : G.PropInv c₀ wl c) :
    G.PropInv c₀ wl (G.propagateRound wl c).1 ∧ G.RoundStep (c, false) (G.propagateRound wl c) ∧
      ((G.propagateRound wl c).2 = false → ∀ p ∈ wl, ∀ q, G.Edge p q → (c q).getD ∅ ⊆ (c p).getD ∅) :=
  hI.absorbPhis hc₀ wl (c, false) fun _ hp => hp

end Round

variable (G) in
/-- The total size of the sets of the phis of the graph. -/
def defsSize (c : DefsCache) : Nat :=
  ∑ r ∈ Finset.range G.numPhis, ((c r).getD ∅).card

/-- A round that reports a change grows the total size. -/
theorem RoundStep.defsSize_lt {c c' : DefsCache} (h : G.RoundStep (c, false) (c', true)) :
    G.defsSize c < G.defsSize c' := by
  obtain ⟨r, hr, hlt⟩ := (h.2.2.2 rfl).resolve_left Bool.false_ne_true
  exact Finset.sum_lt_sum (fun r _ => Finset.card_le_card (h.1 r)) ⟨r, Finset.mem_range.2 hr, hlt⟩

/-- The closure caps the total size. -/
theorem PropInv.defsSize_le {c₀ : DefsCache} {wl : List Nat} {c : DefsCache}
    (hI : G.PropInv c₀ wl c) (hc₀ : G.CacheExact c₀) :
    G.defsSize c ≤ G.numPhis * G.allDefs.card := by
  have := Finset.sum_le_card_nsmul (Finset.range G.numPhis) (fun r => ((c r).getD ∅).card)
    G.allDefs.card fun r hr => Finset.card_le_card fun v hv =>
      (hI.sound hc₀ hv).mem_allDefs (Finset.mem_range.1 hr)
  simpa [defsSize] using this

/-- The fixpoint loop ends, with enough fuel, at a cache closed under the
phi-input edges of `phis_`. -/
theorem PropInv.propagate {c₀ : DefsCache} {wl : List Nat} (hc₀ : G.CacheExact c₀) :
    ∀ (fuel : Nat) (c : DefsCache), G.PropInv c₀ wl c →
      G.numPhis * G.allDefs.card < fuel + G.defsSize c →
      ∃ c', G.propagate fuel wl c = some c' ∧ G.PropInv c₀ wl c' ∧
        (∀ r, (c' r).isSome = (c r).isSome) ∧
        ∀ p ∈ wl, ∀ q, G.Edge p q → (c' q).getD ∅ ⊆ (c' p).getD ∅
  | 0, c, hI, hf => absurd (hI.defsSize_le hc₀) (by omega)
  | fuel + 1, c, hI, hf => by
    obtain ⟨h₁, h₂, h₃⟩ := hI.propagateRound hc₀
    unfold PhiGraph.propagate
    cases hch : (G.propagateRound wl c).2 with
    | true =>
      have hlt := RoundStep.defsSize_lt (show G.RoundStep (c, false) ((G.propagateRound wl c).1, true) from
        hch ▸ h₂)
      obtain ⟨c', hc', h₄, h₅, h₆⟩ := h₁.propagate hc₀ fuel _ (by omega)
      exact ⟨c', by simpa [hch] using hc', h₄, fun r => (h₅ r).trans (h₂.2.1 r), h₆⟩
    | false =>
      obtain ⟨-, he⟩ := h₂.2.2.1 hch
      refine ⟨(G.propagateRound wl c).1, by simp [hch], h₁, h₂.2.1, ?_⟩
      rw [he]
      exact h₃ hch

/-! ## `Get` -/

/-- After the fixpoint loop every set is exact: a new set holds the closure,
since the cache is closed under the edges of the new phis. -/
theorem PropInv.cacheExact {c₀ : DefsCache} {wl : List Nat} {c : DefsCache} (hI : G.PropInv c₀ wl c)
    (hc₀ : G.CacheExact c₀) (hfix : ∀ p ∈ wl, ∀ q, G.Edge p q → (c q).getD ∅ ⊆ (c p).getD ∅) :
    G.CacheExact c := by
  intro r t hrt
  cases hr : c₀ r with
  | some t₀ =>
    rw [hI.old r (by simp [hr]), hr] at hrt
    cases hrt
    exact hc₀ r t hr
  | none =>
    obtain ⟨hlt, -, hsound⟩ := hI.new r t hr hrt
    refine ⟨hlt, fun v => ⟨hsound v, fun hv => ?_⟩⟩
    have hmem := G.inClosure_mem_of_closed (fun r => (c r).getD ∅)
      (fun r => c₀ r = none ∧ (c r).isSome)
      (fun r ⟨h₀, hs⟩ => by
        obtain ⟨t, ht⟩ := Option.isSome_iff_exists.1 hs
        simpa [ht] using (hI.new r t h₀ ht).2.1)
      (fun r ⟨h₀, hs⟩ q he => hfix r (hI.listed r h₀ hs (dependsOnPhi_of_edge he)) q he)
      (fun r ⟨h₀, hs⟩ q he => by
        have hq := hI.closed r (hI.listed r h₀ hs (dependsOnPhi_of_edge he)) q he
        cases hq₀ : c₀ q with
        | none => exact .inl ⟨hq₀, hq⟩
        | some t₀ =>
          refine .inr fun v hv => ?_
          show v ∈ (c q).getD ∅
          rw [hI.old q (by simp [hq₀]), hq₀, Option.getD_some]
          exact ((hc₀ q t₀ hq₀).2 v).2 hv)
      ⟨hr, by simp [hrt]⟩ hv
    simpa [hrt] using hmem

/-- One `Get` call from an exact cache with enough fuel: it ends, returns the
phi's closure, and leaves an exact cache. -/
theorem CacheExact.getReachingDefs {c₀ : DefsCache} (hc₀ : G.CacheExact c₀) {fuel p : Nat}
    (hfuel : G.fuelBound ≤ fuel) (hp : p < G.numPhis) :
    ∃ S c', G.getReachingDefs fuel c₀ p = some (S, c') ∧ (∀ v, v ∈ S ↔ G.InClosure p v) ∧
      G.CacheExact c' := by
  unfold PhiGraph.getReachingDefs
  cases hcp : c₀ p with
  | some S => exact ⟨S, c₀, rfl, (hc₀ p S hcp).2, hc₀⟩
  | none =>
    have hb : G.numPhis * G.allDefs.card + G.numPhis + 1 ≤ fuel := by
      simpa [PhiGraph.fuelBound, Nat.mul_succ] using hfuel
    have hstart : G.CollectInv c₀ ([], c₀) :=
      ⟨fun _ _ => rfl, fun q t hq ht => by simp [hq] at ht, by simp, List.nodup_nil,
        fun q hq hs => by simp [hq] at hs⟩
    obtain ⟨h₀, hps₀, -⟩ := hstart.addPhi hp
    obtain ⟨s, hs, hI, hext, hclosed⟩ :=
      h₀.collectPhis fuel 0 _ (Nat.zero_le _) (by omega) (by simp)
    obtain ⟨c', hc', hP, hsome, hfix⟩ := (hI.propInv hclosed).propagate hc₀ fuel s.2 (by omega)
    have hexact := hP.cacheExact hc₀ hfix
    obtain ⟨t, ht⟩ := Option.isSome_iff_exists.1 ((hsome p).trans (hext.2 p hps₀))
    refine ⟨t, c', by simp [hs, hc', ht], (hexact p t ht).2, hexact⟩

/-- `ReachingDefs::Get` computes the least fixpoint: for every sequence of
calls from a cache whose sets are exact (the constructor's, with every set
null, among them), each call ends, given fuel for the bound `fuelBound`, and
returns exactly the virtual registers of the inputs of the phis reachable from
the queried phi through phi inputs, whatever earlier calls cached. -/
theorem reachingDefs_get_closure (G : PhiGraph) {fuel : Nat} (hfuel : G.fuelBound ≤ fuel) :
    ∀ (ps : List Nat) (cache : DefsCache), G.CacheExact cache → (∀ p ∈ ps, p < G.numPhis) →
      ∃ answers cache', G.getAll fuel cache ps = some (answers, cache') ∧ G.CacheExact cache' ∧
        List.Forall₂ (fun p S => ∀ v, v ∈ S ↔ G.InClosure p v) ps answers
  | [], cache, hc, _ => ⟨[], cache, rfl, hc, .nil⟩
  | p :: ps, cache, hc, hps => by
    obtain ⟨S, c₁, h₁, hS, hc₁⟩ := hc.getReachingDefs hfuel (hps p (List.mem_cons_self _ _))
    obtain ⟨answers, c₂, h₂, hc₂, hall⟩ :=
      reachingDefs_get_closure G hfuel ps c₁ hc₁ fun q hq => hps q (List.mem_cons_of_mem _ hq)
    exact ⟨S :: answers, c₂, by simp [PhiGraph.getAll, h₁, h₂], hc₂, .cons hS hall⟩

end PhiGraph

/-- Two loop phis feeding each other: phi `0` (vreg `20`) takes `5` and phi `1`;
phi `1` (vreg `21`) takes phi `0` and `7`. -/
def twoPhiCycle : PhiGraph where
  numPhis := 2
  inputs p := if p = 0 then [⟨5, 0, none⟩, ⟨21, 0, some 1⟩]
    else if p = 1 then [⟨20, 0, some 0⟩, ⟨7, 0, none⟩] else []
  isPair _ := false
  input_lt := by decide

/-- Querying phi `1`, then the phi `0` it cached on the way, gives both the
same closure `{5, 7, 20, 21}`. -/
theorem reachingDefs_get_closure_cycle :
    ((twoPhiCycle.getAll twoPhiCycle.fuelBound (fun _ => none) [1, 0]).map Prod.fst).getD [] =
      [{5, 7, 20, 21}, {5, 7, 20, 21}] ∧
    ∀ v, twoPhiCycle.InClosure 1 v ↔ v ∈ ({5, 7, 20, 21} : Finset Nat) := by
  have hmap : ((twoPhiCycle.getAll twoPhiCycle.fuelBound (fun _ => none) [1, 0]).map Prod.fst).getD [] =
      [{5, 7, 20, 21}, {5, 7, 20, 21}] := by decide
  refine ⟨hmap, fun v => ?_⟩
  obtain ⟨answers, cache', h, -, hall⟩ := PhiGraph.reachingDefs_get_closure twoPhiCycle le_rfl [1, 0]
    (fun _ => none) (fun _ _ h => by cases h) (by decide)
  rw [h, Option.map_some', Option.getD_some] at hmap
  subst hmap
  obtain _ | ⟨h₁, -⟩ := hall
  exact (h₁ v).symm

end LinearScan
