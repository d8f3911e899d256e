import LinearScan.SplitAt

/-!
# The finger's caches against fresh scans

`AllocationFinger` (linearscan.cc 1857–1935) caches, per range, where its last
queries stopped: the first pending use interval, and the first register and
register-beneficial uses. A query scans on from its cache instead of from the
head of the list. This module runs every sequence of finger operations on one
range (`fingerTrace`) and compares each cached answer with a fresh scan of the
range's current lists (`freshAnswer`).

Main result (`allocatorRun_cached_eq_fresh`):

> on a range with uses in position order, every answer of every run of finger
> operations the allocator performs (`AllocatorRun`, read off the call sites)
> equals the fresh scan of the range as it stands.

The caches are right only from their last argument on. `FirstInterferingUse(a)`
shares the register-use cache with `FirstRegisterUse` and moves it to
`FirstRegisterUse(a + 1)` when `a` is an instruction's end, so a later
`FirstRegisterUse(a)` would start past a use at `a`. The general theorem
(`fingerTrace_cached_eq_fresh`) holds for every admissible run: each cache
queried with non-decreasing arguments (`FirstInterferingUse(a)` counting as its
`FirstRegisterUse` argument), `Advance` with non-decreasing positions, and every
split after the range's start and after the start of the pending interval. The
allocator's runs are admissible up to their last splits, after which the finger
takes no query.

Each cache is valid from a floor (`UseCacheValid`, `PendingValid`): no use the
query accepts lies before the cache at or after the floor. A query keeps its
cache valid from its own argument, `UpdateAfterSplit` keeps the head's caches
valid (a cache it clears pointed past every use the head keeps), and
`Initialize` makes them valid from any floor. The floors live in a ghost record,
`FingerGhost`.

Mirroring notes vs the C++ source:
- An operation is one call on the range; a split keeps the head, which keeps
  the range's finger, and names the sibling `newId`.
- A split at or before the start of the pending interval leaves the C++ pointer
  in the sibling's list (the model's index then points past the head's list);
  such splits are outside the admissible runs.
- The fresh scans read the whole current lists: `freshUse` is the first use at
  or after the argument that the query accepts, and the fresh pending interval
  is the first interval ending after the position.
-/

namespace LinearScan

open Finger

/-- An operation the allocator performs on one range's finger. -/
inductive FingerOp
  | reset
  | advance (start : Nat)
  | firstRegisterUse (after : Nat)
  | firstRegisterBeneficialUse (after : Nat)
  | firstInterferingUse (after : Nat)
  | splitAt (pos : Nat)
  deriving DecidableEq, Repr

/-- A query's answer: a use with its index, or the pending interval's index. -/
inductive FingerAnswer
  | use (u : Option (Nat × UsePosition))
  | pending (k : Option Nat)
  deriving DecidableEq, Repr

/-- The position `FirstInterferingUse(after)` hands to `FirstRegisterUse`. -/
def interferingFrom (after : Nat) : Nat :=
  if isInstructionEndPosition after then after + 1 else after

theorem interferingFrom_mono {a b : Nat} (h : a ≤ b) : interferingFrom a ≤ interferingFrom b := by
  unfold interferingFrom isInstructionEndPosition
  split_ifs with h₁ h₂ h₂ <;> simp only [beq_iff_eq] at h₁ h₂ <;> omega

theorem le_interferingFrom (a : Nat) : a ≤ interferingFrom a := by
  unfold interferingFrom; split_ifs <;> omega

theorem firstInterferingUse_eq (f : Finger) (uses : List UsePosition) (slots : Nat → Location)
    (after : Nat) :
    f.firstInterferingUse uses slots after = f.firstRegisterUse uses slots (interferingFrom after) :=
  rfl

/-- One operation on the range: the range after it, and a query's answer. -/
def fingerStep (slots : Nat → Location) (newId : Nat) (r : LiveRange) :
    FingerOp → LiveRange × Option FingerAnswer
  | .reset => ({ r with finger := Finger.reset r }, none)
  | .advance s =>
    let p := r.finger.advance r.intervals s
    ({ r with finger := p.1 }, some (.pending p.1.pending))
  | .firstRegisterUse a =>
    let p := r.finger.firstRegisterUse r.uses slots a
    ({ r with finger := p.1 }, some (.use p.2))
  | .firstRegisterBeneficialUse a =>
    let p := r.finger.firstRegisterBeneficialUse r.uses slots a
    ({ r with finger := p.1 }, some (.use p.2))
  | .firstInterferingUse a =>
    let p := r.finger.firstInterferingUse r.uses slots a
    ({ r with finger := p.1 }, some (.use p.2))
  | .splitAt p => (if r.start = p then r else (r.splitParts p newId).1, none)

/-- The first use at or after `after` that `test` accepts, from the head of
the list. -/
def freshUse (test : UsePosition → Bool) (uses : List UsePosition) (after : Nat) :
    Option (Nat × UsePosition) :=
  uses.enum.find? fun p => after ≤ p.2.pos && test p.2

/-- The first interval ending after `start`, from the head of the list. -/
def freshPending (ivs : List UseInterval) (start : Nat) : Option Nat :=
  ivs.findIdx? fun iv => start < iv.stop

/-- What a fresh scan of the range as it stands answers to a query. -/
def freshAnswer (slots : Nat → Location) (r : LiveRange) : FingerOp → Option FingerAnswer
  | .advance s => some (.pending (freshPending r.intervals s))
  | .firstRegisterUse a => some (.use (freshUse (isRegisterUse slots) r.uses a))
  | .firstRegisterBeneficialUse a => some (.use (freshUse (isRegisterBeneficialUse slots) r.uses a))
  | .firstInterferingUse a =>
    some (.use (freshUse (isRegisterUse slots) r.uses (interferingFrom a)))
  | _ => none

/-- Every query of a run, the cached answer with the fresh one. -/
def fingerTrace (slots : Nat → Location) (newId : Nat) :
    LiveRange → List FingerOp → List (FingerAnswer × FingerAnswer)
  | _, [] => []
  | r, op :: ops =>
    let rest := fingerTrace slots newId (fingerStep slots newId r op).1 ops
    match (fingerStep slots newId r op).2, freshAnswer slots r op with
    | some a, some b => (a, b) :: rest
    | _, _ => rest

/-! ## Admissible runs -/

/-- The floor of each cache: the last argument it was queried with since
`Initialize`, the register-use cache counting `FirstInterferingUse`'s. -/
structure FingerGhost where
  registerFrom : Nat
  beneficialFrom : Nat
  advancedTo : Nat
  deriving DecidableEq, Repr

/-- The floors after an operation. -/
def FingerGhost.next (g : FingerGhost) : FingerOp → FingerGhost
  | .reset => ⟨0, 0, 0⟩
  | .advance s => { g with advancedTo := s }
  | .firstRegisterUse a => { g with registerFrom := a }
  | .firstRegisterBeneficialUse a => { g with beneficialFrom := a }
  | .firstInterferingUse a => { g with registerFrom := interferingFrom a }
  | .splitAt _ => g

/-- An operation keeps its cache's argument at or above the floor; a split lies
after the range's start and after the start of the pending interval. -/
def FingerOp.admissible (r : LiveRange) (g : FingerGhost) : FingerOp → Bool
  | .reset => true
  | .advance s => g.advancedTo ≤ s
  | .firstRegisterUse a => g.registerFrom ≤ a
  | .firstRegisterBeneficialUse a => g.beneficialFrom ≤ a
  | .firstInterferingUse a => g.registerFrom ≤ interferingFrom a
  | .splitAt p => r.start < p && match r.finger.pending with
    | some k => (r.intervals.get? k).all (·.start < p)
    | none => true

/-- Every operation of the run is admissible where it happens. -/
def admissibleRun (slots : Nat → Location) (newId : Nat) :
    LiveRange → FingerGhost → List FingerOp → Bool
  | _, _, [] => true
  | r, g, op :: ops =>
    op.admissible r g && admissibleRun slots newId (fingerStep slots newId r op).1 (g.next op) ops

/-- Why `FirstInterferingUse` counts in the floor: with uses at `5` and `6`,
both requiring a register, `FirstInterferingUse(5)` asks for uses from `6` on,
since `5` is an instruction's end, and leaves the register-use cache at the use
at `6`; a `FirstRegisterUse(5)` after it starts there and misses the use at
`5`. The run is not admissible. -/
example :
    let r : LiveRange := { LiveRange.make 0 .tagged with
      intervals := [⟨4, 8⟩], uses := [⟨5, 0, none⟩, ⟨6, 1, none⟩] }
    let ops := [FingerOp.reset, .firstInterferingUse 5, .firstRegisterUse 5]
    admissibleRun (fun _ => .unallocated .requiresRegister) 1 r ⟨0, 0, 0⟩ ops = false ∧
      fingerTrace (fun _ => .unallocated .requiresRegister) 1 r ops =
        [(.use (some (1, ⟨6, 1, none⟩)), .use (some (1, ⟨6, 1, none⟩))),
         (.use (some (1, ⟨6, 1, none⟩)), .use (some (0, ⟨5, 0, none⟩)))] := by
  decide

/-! ## Valid caches -/

/-- The indexed uses before a use cache: all of them for `nullptr`. -/
def cachedPrefix (c : Option Nat) (E : List (Nat × UsePosition)) : List (Nat × UsePosition) :=
  match c with
  | none => E
  | some k => E.take k

/-- A use cache is valid from `last` on: every use before it that the query
accepts lies before `last`. -/
def UseCacheValid (test : UsePosition → Bool) (uses : List UsePosition) (c : Option Nat)
    (last : Nat) : Prop :=
  ∀ x ∈ cachedPrefix c uses.enum, test x.2 = true → x.2.pos < last

/-- The pending interval is valid from `last` on: an interval of the range
after only intervals that end by `last`; `nullptr` when they all do. -/
def PendingValid (ivs : List UseInterval) (c : Option Nat) (last : Nat) : Prop :=
  match c with
  | none => ∀ iv ∈ ivs, iv.stop ≤ last
  | some k => k < ivs.length ∧ ∀ iv ∈ ivs.take k, iv.stop ≤ last

/-- The finger's caches are valid from the ghost floors, on a range with uses
in position order. -/
structure FingerInv (slots : Nat → Location) (r : LiveRange) (g : FingerGhost) : Prop where
  sorted : r.uses.Pairwise fun a b => a.pos ≤ b.pos
  registerUse : UseCacheValid (isRegisterUse slots) r.uses r.finger.registerUse g.registerFrom
  beneficialUse :
    UseCacheValid (isRegisterBeneficialUse slots) r.uses r.finger.registerBeneficialUse g.beneficialFrom
  pending : PendingValid r.intervals r.finger.pending g.advancedTo

/-! ## Scans from a cache -/

theorem enumFrom_drop {α : Type} : ∀ (l : List α) (n k : Nat),
    (l.enumFrom n).drop k = (l.drop k).enumFrom (n + k)
  | [], _, _ => by simp
  | _ :: _, _, 0 => rfl
  | _ :: l, n, k + 1 => by
    rw [List.enumFrom_cons, List.drop_succ_cons, List.drop_succ_cons, enumFrom_drop l (n + 1) k]
    congr 1
    omega

/-- The uses a cached scan reads are the indexed uses from the cache on. -/
theorem usesFrom_eq_drop (uses : List UsePosition) (k : Nat) : usesFrom uses k = uses.enum.drop k := by
  simp only [usesFrom, List.enum, enumFrom_drop, Nat.zero_add]
  rw [← List.map_fst_add_enum_eq_enumFrom (uses.drop k) k]
  rfl

theorem enum_sorted {uses : List UsePosition} (h : uses.Pairwise fun a b => a.pos ≤ b.pos) :
    uses.enum.Pairwise fun x y => x.2.pos ≤ y.2.pos := by
  rw [← List.enum_map_snd uses] at h
  exact (List.pairwise_map (f := Prod.snd)).1 h

section UseCache
variable {test : UsePosition → Bool} {uses : List UsePosition}

theorem UseCacheValid.mono {c : Option Nat} {last a : Nat} (hv : UseCacheValid test uses c last)
    (ha : last ≤ a) : UseCacheValid test uses c a :=
  fun x hx ht => (hv x hx ht).trans_le ha

/-- From a valid cache, the scan on from the cache finds what a fresh scan
finds: the uses it skips are before the argument or not accepted. -/
theorem cachedScan_eq_freshUse (hs : uses.Pairwise fun a b => a.pos ≤ b.pos) {c : Option Nat}
    {last a : Nat} (hv : UseCacheValid test uses c last) (ha : last ≤ a) :
    (firstUseAfter uses c a).find? (test ·.2) = freshUse test uses a := by
  cases c with
  | none =>
    refine (List.find?_eq_none.2 fun x hx h => ?_).symm
    simp only [Bool.and_eq_true, decide_eq_true_eq] at h
    have := hv x hx h.2
    omega
  | some k =>
    have hsorted := (enum_sorted hs).sublist (List.drop_sublist k uses.enum)
    have hdrop := (@takeWhile_eq_filter _ (fun x : Nat × UsePosition => decide (x.2.pos < a)) _
      (fun x y hxy hy => by simp only [decide_eq_true_eq] at hy ⊢; omega) _ hsorted).2
    have hpre : (uses.enum.take k).find? (fun x => decide (a ≤ x.2.pos) && test x.2) = none :=
      List.find?_eq_none.2 fun x hx h => by
        simp only [Bool.and_eq_true, decide_eq_true_eq] at h
        have := hv x hx h.2
        omega
    rw [firstUseAfter, usesFrom_eq_drop, hdrop, List.find?_filter, freshUse]
    conv_rhs => rw [← List.take_append_drop k uses.enum, List.find?_append, hpre, Option.none_or]
    congr 1
    funext x
    simp only [← decide_not, Nat.not_lt, Bool.decide_and, decide_eq_true_eq, Bool.decide_eq_true]

/-- A fresh scan leaves a valid cache where it stops. -/
theorem useCacheValid_freshUse {a : Nat} {p : Nat × UsePosition} (h : freshUse test uses a = some p) :
    UseCacheValid test uses (some p.1) a := by
  obtain ⟨-, as, bs, he, has⟩ := List.find?_eq_some.1 h
  have hidx : p.1 = as.length := by
    have hlt : as.length < uses.enum.length := by rw [he]; simp
    have := List.getElem_enum uses as.length hlt
    rw [List.getElem_of_eq he (by simpa using hlt),
      List.getElem_append_right (Nat.le_refl _)] at this
    simp only [Nat.sub_self, List.getElem_cons_zero] at this
    exact congrArg Prod.fst this
  intro x hx ht
  rw [cachedPrefix, hidx, he, List.take_left] at hx
  have := has x hx
  simp only [ht, Bool.and_true, Bool.not_eq_true', decide_eq_false_iff_not, Nat.not_le] at this
  exact this

/-- A query from a valid cache answers as a fresh scan, and leaves its cache
valid from its argument. -/
theorem cachedQuery_spec (hs : uses.Pairwise fun a b => a.pos ≤ b.pos) {c : Option Nat}
    {last a : Nat} (hv : UseCacheValid test uses c last) (ha : last ≤ a) :
    (firstUseAfter uses c a).find? (test ·.2) = freshUse test uses a ∧
      UseCacheValid test uses (match (firstUseAfter uses c a).find? (test ·.2) with
        | some p => some p.1
        | none => c) a := by
  rw [cachedScan_eq_freshUse hs hv ha]
  refine ⟨rfl, ?_⟩
  cases h : freshUse test uses a with
  | none => exact hv.mono ha
  | some p => exact useCacheValid_freshUse h

/-- `FirstRegisterUse` from a valid cache answers as a fresh scan, keeps its
cache valid from its argument, and leaves the other caches alone. -/
theorem firstRegisterUse_spec {f : Finger} {slots : Nat → Location}
    (hs : uses.Pairwise fun a b => a.pos ≤ b.pos) {last a : Nat}
    (hv : UseCacheValid (isRegisterUse slots) uses f.registerUse last) (ha : last ≤ a) :
    (f.firstRegisterUse uses slots a).2 = freshUse (isRegisterUse slots) uses a ∧
      UseCacheValid (isRegisterUse slots) uses (f.firstRegisterUse uses slots a).1.registerUse a ∧
      (f.firstRegisterUse uses slots a).1.registerBeneficialUse = f.registerBeneficialUse ∧
      (f.firstRegisterUse uses slots a).1.pending = f.pending := by
  obtain ⟨h₁, h₂⟩ := cachedQuery_spec hs hv ha
  unfold Finger.firstRegisterUse
  split <;> rename_i heq <;> rw [heq] at h₁ h₂ <;> exact ⟨h₁, h₂, rfl, rfl⟩

/-- `FirstRegisterBeneficialUse`, as `firstRegisterUse_spec`. -/
theorem firstRegisterBeneficialUse_spec {f : Finger} {slots : Nat → Location}
    (hs : uses.Pairwise fun a b => a.pos ≤ b.pos) {last a : Nat}
    (hv : UseCacheValid (isRegisterBeneficialUse slots) uses f.registerBeneficialUse last)
    (ha : last ≤ a) :
    (f.firstRegisterBeneficialUse uses slots a).2 = freshUse (isRegisterBeneficialUse slots) uses a ∧
      UseCacheValid (isRegisterBeneficialUse slots) uses
        (f.firstRegisterBeneficialUse uses slots a).1.registerBeneficialUse a ∧
      (f.firstRegisterBeneficialUse uses slots a).1.registerUse = f.registerUse ∧
      (f.firstRegisterBeneficialUse uses slots a).1.pending = f.pending := by
  obtain ⟨h₁, h₂⟩ := cachedQuery_spec hs hv ha
  unfold Finger.firstRegisterBeneficialUse
  split <;> rename_i heq <;> rw [heq] at h₁ h₂ <;> exact ⟨h₁, h₂, rfl, rfl⟩

end UseCache

/-! ## The pending interval -/

section Pending
variable {ivs : List UseInterval} {start : Nat}

/-- The walk of `Advance` from interval `k` finds the first interval from `k` on
that ends after `start`. -/
theorem advanceFrom_eq_findIdx :
    ∀ n k, ivs.length ≤ k + n →
      Finger.advanceFrom ivs start k n = ((ivs.drop k).findIdx? (start < ·.stop)).map (· + k)
  | 0, k, hk => by
    rw [List.drop_eq_nil_of_le (by omega)]
    simp only [Finger.advanceFrom, List.findIdx?_nil, Option.map_none']
    rw [if_neg (by omega)]
  | n + 1, k, hk => by
    unfold Finger.advanceFrom
    rw [List.get?_eq_getElem?]
    by_cases hw : k < ivs.length
    · rw [List.getElem?_eq_getElem hw, List.drop_eq_getElem_cons hw, List.findIdx?_cons]
      dsimp only
      by_cases hstop : ivs[k].stop ≤ start
      · rw [if_pos hstop, if_neg (by simp only [decide_eq_true_eq]; omega),
          advanceFrom_eq_findIdx n (k + 1) (by omega), Nat.zero_add, List.findIdx?_succ,
          Option.map_map]
        congr 1
        funext i
        simp only [Function.comp, Nat.add_right_comm, Nat.add_assoc]
      · rw [if_neg hstop, if_pos (by simp only [decide_eq_true_eq]; omega)]
        simp
    · rw [List.getElem?_eq_none (by omega), List.drop_eq_nil_of_le (by omega)]
      rfl

/-- A fresh scan leaves a valid pending interval at the position. -/
theorem pendingValid_freshPending : PendingValid ivs (freshPending ivs start) start := by
  unfold freshPending
  cases h : ivs.findIdx? (start < ·.stop) with
  | none =>
    intro iv hiv
    have := List.findIdx?_eq_none_iff.1 h iv hiv
    simp only [decide_eq_false_iff_not, Nat.not_lt] at this
    exact this
  | some k =>
    obtain ⟨hk, -, hbefore⟩ := List.findIdx?_eq_some_iff_getElem.1 h
    refine ⟨hk, fun iv hiv => ?_⟩
    obtain ⟨i, hi, rfl⟩ := List.getElem_of_mem hiv
    simp only [List.length_take] at hi
    have := hbefore i (by omega)
    simp only [List.getElem_take, decide_eq_true_eq] at this ⊢
    omega

/-- From a valid pending interval, `Advance` finds what a fresh scan finds. -/
theorem advance_eq_freshPending {f : Finger} {last : Nat} (hv : PendingValid ivs f.pending last)
    (hs : last ≤ start) : (f.advance ivs start).1.pending = freshPending ivs start := by
  unfold Finger.advance freshPending
  dsimp only
  cases hp : f.pending with
  | none =>
    rw [hp] at hv
    exact (List.findIdx?_eq_none_iff.2 fun iv hiv => by
      have := hv iv hiv
      simp only [decide_eq_false_iff_not, Nat.not_lt]
      omega).symm
  | some k =>
    rw [hp] at hv
    obtain ⟨hk, hbefore⟩ := hv
    have hpre : (ivs.take k).findIdx? (start < ·.stop) = none :=
      List.findIdx?_eq_none_iff.2 fun iv hiv => by
        have := hbefore iv hiv
        simp only [decide_eq_false_iff_not, Nat.not_lt]
        omega
    dsimp only
    rw [advanceFrom_eq_findIdx ivs.length k (by omega)]
    conv_rhs => rw [← List.take_append_drop k ivs, List.findIdx?_append, hpre, Option.none_or,
      List.length_take, min_eq_left hk.le]

end Pending

/-! ## What a split keeps valid -/

/-- The test `UpdateAfterSplit` applies to each use cache. -/
def keepAfterSplit (uses : List UsePosition) (firstPos : Nat) : Option Nat → Option Nat
  | some k => if ((uses.get? k).map (·.pos)).getD 0 ≥ firstPos then none else some k
  | none => none

theorem updateAfterSplit_registerUse (f : Finger) (uses : List UsePosition) (firstPos : Nat) :
    (f.updateAfterSplit uses firstPos).registerUse = keepAfterSplit uses firstPos f.registerUse := by
  cases h : f.registerUse <;> simp [Finger.updateAfterSplit, keepAfterSplit, h]

theorem updateAfterSplit_registerBeneficialUse (f : Finger) (uses : List UsePosition)
    (firstPos : Nat) :
    (f.updateAfterSplit uses firstPos).registerBeneficialUse =
      keepAfterSplit uses firstPos f.registerBeneficialUse := by
  cases h : f.registerBeneficialUse <;> simp [Finger.updateAfterSplit, keepAfterSplit, h]

/-- The head's finger: the one `SplitAt` starts from, its use caches trimmed at
the sibling's first use. -/
theorem splitParts_head_finger (r : LiveRange) (p n : Nat) :
    (r.splitParts p n).1.finger = match (r.splitParts p n).2.uses with
      | [] => r.splitFinger
      | u :: _ => r.splitFinger.updateAfterSplit r.uses u.pos :=
  rfl

/-- Everything the head keeps lies before the sibling's first use. -/
theorem splitListOfPositions_lt_first {α : Type} (posOf : α → Nat) (l : List α) (splitPos : Nat)
    (b : Bool) {u : α} {rest : List α} (h : (splitListOfPositions posOf l splitPos b).2 = u :: rest) :
    ∀ x ∈ (splitListOfPositions posOf l splitPos b).1, posOf x < posOf u := by
  simp only [splitListOfPositions, List.span_eq_take_drop] at h ⊢
  intro x hx
  have hx' := List.mem_takeWhile_imp hx
  have hu := List.head?_dropWhile_not
    (fun x => if b then decide (posOf x < splitPos) else decide (posOf x ≤ splitPos)) l
  rw [h] at hu
  cases b <;> simp only [List.head?_cons, Bool.false_eq_true, ↓reduceIte, decide_eq_true_eq,
    decide_eq_false_iff_not, Nat.not_lt, Nat.not_le] at hx' hu <;> omega

theorem enum_eq_take_of_append {α : Type} {head tail l : List α} (h : head ++ tail = l) :
    head.enum = l.enum.take head.length := by
  rw [← h, List.enum_append, List.take_left' (by simp)]

section KeepValid
variable {test : UsePosition → Bool} {uses head : List UsePosition} {c : Option Nat} {last : Nat}

/-- A cache valid on a list is valid on each of its prefixes. -/
theorem UseCacheValid.of_prefix {tail : List UsePosition} (hv : UseCacheValid test uses c last)
    (happ : head ++ tail = uses) : UseCacheValid test head c last := by
  intro x hx
  apply hv x
  rw [enum_eq_take_of_append happ] at hx
  cases c with
  | none => exact List.take_subset _ _ hx
  | some k =>
    rw [cachedPrefix, List.take_take] at hx
    exact List.take_subset_take_left _ (min_le_left _ _) hx

/-- `UpdateAfterSplit`'s test keeps a cache valid on the head: a cache it
clears points past every use the head keeps. -/
theorem UseCacheValid.keepAfterSplit {u : UsePosition} {rest : List UsePosition}
    (hv : UseCacheValid test uses c last) (happ : head ++ u :: rest = uses)
    (hsep : ∀ x ∈ head, x.pos < u.pos) :
    UseCacheValid test head (keepAfterSplit uses u.pos c) last := by
  cases c with
  | none => exact hv.of_prefix happ
  | some k =>
    simp only [LinearScan.keepAfterSplit]
    split_ifs with hge
    · have hk : head.length ≤ k := by
        by_contra hk
        have hkh : k < head.length := by omega
        rw [← happ, List.get?_eq_getElem?, List.getElem?_append_left hkh,
          List.getElem?_eq_getElem hkh] at hge
        have := hsep _ (List.getElem_mem hkh)
        simp only [Option.map_some', Option.getD_some] at hge
        omega
      intro x hx ht
      rw [cachedPrefix, enum_eq_take_of_append happ] at hx
      exact hv x (List.take_subset_take_left _ hk hx) ht
    · exact hv.of_prefix happ

end KeepValid

/-- The walk of `SplitAt` never goes back. -/
theorem le_splitIndexFrom (ivs : List UseInterval) (splitPos : Nat) :
    ∀ n w, w ≤ splitIndexFrom ivs splitPos w n
  | 0, _ => le_rfl
  | n + 1, w => by
    unfold splitIndexFrom
    split
    · split_ifs
      · exact (Nat.le_succ w).trans (le_splitIndexFrom ivs splitPos n (w + 1))
      · exact le_rfl
    · exact le_rfl

theorem splitParts_head_pending (r : LiveRange) (p n : Nat) :
    (r.splitParts p n).1.finger.pending = r.splitFinger.pending := by
  rw [splitParts_head_finger]
  split <;> rfl

/-- A pending interval that starts before the split stays valid in the head:
the walk starts at it, so the head keeps every interval before it, and keeps
it too, cut or whole. -/
theorem pendingValid_splitParts {r : LiveRange} {p k last : Nat} (n : Nat)
    (hsf : r.splitFinger.pending = some k) (hk : k < r.intervals.length)
    (hs : r.intervals[k].start < p) (hbefore : ∀ iv ∈ r.intervals.take k, iv.stop ≤ last) :
    PendingValid (r.splitParts p n).1.intervals (some k) last := by
  have hw : r.splitWalkStart p = k := by
    simp [LiveRange.splitWalkStart, hsf, List.get?_eq_getElem?, hk, Nat.not_le.2 hs]
  have hge : k ≤ r.splitIndex p := hw ▸ le_splitIndexFrom _ _ _ _
  have e : splitIndexFrom r.intervals p (r.splitWalkStart p) r.intervals.length =
      r.splitIndex p := rfl
  simp only [LiveRange.splitParts, e]
  split_ifs with hc
  · refine ⟨by simp; omega, ?_⟩
    rw [List.take_append_of_le_length (by simp; omega), List.take_take, min_eq_left hge]
    exact hbefore
  · have hlt : k < r.splitIndex p := by
      refine lt_of_le_of_ne hge fun heq => hc ?_
      have hafter := splitIndex_after p (heq ▸ hk)
      simp only [← heq, List.getD_eq_getElem?_getD, List.getElem?_eq_getElem hk,
        Option.getD_some, UseInterval.contains] at hafter ⊢
      simp [hs.ne, hs.le, hafter]
    refine ⟨by simp; omega, ?_⟩
    rw [List.take_take, min_eq_left hge]
    exact hbefore

/-- `Initialize`'s use caches are valid from any floor. -/
theorem useCacheValid_reset (test : UsePosition → Bool) (uses : List UsePosition) (last : Nat) :
    UseCacheValid test uses (if uses = [] then none else some 0) last := by
  split_ifs with h
  · subst h
    intro x hx
    simp [cachedPrefix] at hx
  · intro x hx
    simp [cachedPrefix] at hx

/-! ## The invariant along a run -/

section Step
variable {slots : Nat → Location} {r : LiveRange} {g : FingerGhost}

/-- `Initialize` makes every cache valid, on a range with uses in order. -/
theorem FingerInv.reset (hs : r.uses.Pairwise fun a b => a.pos ≤ b.pos) (g : FingerGhost) :
    FingerInv slots { r with finger := Finger.reset r } g := by
  refine ⟨hs, useCacheValid_reset _ _ _, useCacheValid_reset _ _ _, ?_⟩
  show PendingValid r.intervals (if r.intervals = [] then none else some 0) g.advancedTo
  split_ifs with h
  · simp [PendingValid, h]
  · exact ⟨List.length_pos.2 h, by simp⟩

/-- The cache a split starts from is valid where the range's was. -/
theorem useCacheValid_splitFinger {test : UsePosition → Bool}
    {proj : Finger → Option Nat} {last : Nat}
    (hreset : proj (Finger.reset r) = if r.uses = [] then none else some 0)
    (hv : UseCacheValid test r.uses (proj r.finger) last) :
    UseCacheValid test r.uses (proj r.splitFinger) last := by
  unfold LiveRange.splitFinger
  split
  · rw [hreset]
    exact useCacheValid_reset _ _ _
  · exact hv

/-- An admissible split keeps the invariant on the head. -/
theorem FingerInv.splitParts (hI : FingerInv slots r g) {p : Nat}
    (hadm : (FingerOp.splitAt p).admissible r g = true) (n : Nat) :
    FingerInv slots (r.splitParts p n).1 g := by
  have happ := splitParts_uses r p n
  have hcache : ∀ {test : UsePosition → Bool} {proj : Finger → Option Nat} {last : Nat},
      (∀ f uses pos, proj (f.updateAfterSplit uses pos) = keepAfterSplit uses pos (proj f)) →
      UseCacheValid test r.uses (proj r.splitFinger) last →
      UseCacheValid test (r.splitParts p n).1.uses (proj (r.splitParts p n).1.finger) last := by
    intro test proj last hproj hv
    rw [splitParts_head_finger]
    cases ht : (r.splitParts p n).2.uses with
    | nil =>
      rw [ht, List.append_nil] at happ
      rw [happ]
      exact hv
    | cons u rest =>
      rw [ht] at happ
      rw [hproj]
      exact hv.keepAfterSplit happ (splitListOfPositions_lt_first _ _ _ _ ht)
  simp only [FingerOp.admissible, Bool.and_eq_true, decide_eq_true_eq] at hadm
  obtain ⟨hstart, hpend⟩ := hadm
  refine ⟨hI.sorted.sublist (happ ▸ List.sublist_append_left _ _),
    hcache updateAfterSplit_registerUse (useCacheValid_splitFinger rfl hI.registerUse),
    hcache updateAfterSplit_registerBeneficialUse (useCacheValid_splitFinger rfl hI.beneficialUse), ?_⟩
  have hpv := hI.pending
  rw [splitParts_head_pending]
  cases hp : r.finger.pending with
  | none =>
    by_cases hi : r.intervals = []
    · have hsf : r.splitFinger.pending = none := by
        simp [LiveRange.splitFinger, hp, Finger.reset, hi]
      rw [hsf]
      intro iv hiv
      simp [LiveRange.splitParts, hi, UseInterval.contains] at hiv
    · have hsf : r.splitFinger.pending = some 0 := by
        simp [LiveRange.splitFinger, hp, Finger.reset, hi]
      have h0 : 0 < r.intervals.length := List.length_pos.2 hi
      rw [hsf]
      refine pendingValid_splitParts n hsf h0 ?_ (by simp)
      obtain ⟨iv, ivs, hivs⟩ := List.exists_cons_of_ne_nil hi
      simp only [LiveRange.start, hivs, List.head?_cons, Option.map_some', Option.getD_some] at hstart
      simp [hivs, hstart]
  | some k =>
    have hsf : r.splitFinger.pending = some k := by simp [LiveRange.splitFinger, hp]
    rw [hp] at hpv hpend
    obtain ⟨hk, hbefore⟩ := hpv
    rw [hsf]
    refine pendingValid_splitParts n hsf hk ?_ hbefore
    simpa [List.get?_eq_getElem?, hk] using hpend

/-- One admissible operation keeps the invariant, and a query answers as a
fresh scan. -/
theorem FingerInv.step (hI : FingerInv slots r g) (newId : Nat) {op : FingerOp}
    (hadm : op.admissible r g = true) :
    FingerInv slots (fingerStep slots newId r op).1 (g.next op) ∧
      ∀ a b, (fingerStep slots newId r op).2 = some a → freshAnswer slots r op = some b → a = b := by
  cases op with
  | reset => exact ⟨FingerInv.reset hI.sorted _, by simp [fingerStep]⟩
  | advance s =>
    simp only [FingerOp.admissible, decide_eq_true_eq] at hadm
    have he := advance_eq_freshPending hI.pending hadm
    refine ⟨⟨hI.sorted, hI.registerUse, hI.beneficialUse, ?_⟩, ?_⟩
    · show PendingValid r.intervals (r.finger.advance r.intervals s).1.pending s
      rw [he]
      exact pendingValid_freshPending
    · simp [fingerStep, freshAnswer, he]
  | firstRegisterUse a =>
    simp only [FingerOp.admissible, decide_eq_true_eq] at hadm
    obtain ⟨h₁, h₂, h₃, h₄⟩ := firstRegisterUse_spec hI.sorted hI.registerUse hadm
    refine ⟨⟨hI.sorted, h₂, h₃ ▸ hI.beneficialUse, h₄ ▸ hI.pending⟩, ?_⟩
    simp [fingerStep, freshAnswer, h₁]
  | firstRegisterBeneficialUse a =>
    simp only [FingerOp.admissible, decide_eq_true_eq] at hadm
    obtain ⟨h₁, h₂, h₃, h₄⟩ := firstRegisterBeneficialUse_spec hI.sorted hI.beneficialUse hadm
    refine ⟨⟨hI.sorted, h₃ ▸ hI.registerUse, h₂, h₄ ▸ hI.pending⟩, ?_⟩
    simp [fingerStep, freshAnswer, h₁]
  | firstInterferingUse a =>
    simp only [FingerOp.admissible, decide_eq_true_eq] at hadm
    obtain ⟨h₁, h₂, h₃, h₄⟩ := firstRegisterUse_spec hI.sorted hI.registerUse hadm
    refine ⟨⟨hI.sorted, h₂, h₃ ▸ hI.beneficialUse, h₄ ▸ hI.pending⟩, ?_⟩
    simp [fingerStep, freshAnswer, firstInterferingUse_eq, h₁]
  | splitAt p =>
    have hne : r.start ≠ p := by
      simp only [FingerOp.admissible, Bool.and_eq_true, decide_eq_true_eq] at hadm
      exact hadm.1.ne
    refine ⟨?_, by simp [fingerStep]⟩
    simp only [fingerStep, hne, ↓reduceIte]
    exact hI.splitParts hadm newId

/-- Along an admissible run from a valid finger, every cached answer is the
fresh one. -/
theorem FingerInv.trace (newId : Nat) :
    ∀ (ops : List FingerOp) {r : LiveRange} {g : FingerGhost}, FingerInv slots r g →
      admissibleRun slots newId r g ops = true → ∀ x ∈ fingerTrace slots newId r ops, x.1 = x.2
  | [], _, _, _, _ => by simp [fingerTrace]
  | op :: ops, r, g, hI, hadm => by
    simp only [admissibleRun, Bool.and_eq_true] at hadm
    obtain ⟨hstep, hans⟩ := hI.step newId hadm.1
    have ih := FingerInv.trace newId ops hstep hadm.2
    intro x hx
    simp only [fingerTrace] at hx
    split at hx
    · next a b ha hb =>
      rcases List.mem_cons.1 hx with rfl | hx
      · exact hans a b ha hb
      · exact ih x hx
    · exact ih x hx

end Step

/-- On a range with uses in position order, from `Initialize` on, every
cached answer of an admissible run is the fresh scan's. -/
theorem fingerTrace_cached_eq_fresh (slots : Nat → Location) (newId : Nat) (r : LiveRange)
    (ops : List FingerOp) (hs : r.uses.Pairwise fun a b => a.pos ≤ b.pos)
    (hadm : admissibleRun slots newId r ⟨0, 0, 0⟩ (.reset :: ops) = true) :
    ∀ x ∈ fingerTrace slots newId r (.reset :: ops), x.1 = x.2 := by
  simp only [admissibleRun, Bool.and_eq_true] at hadm
  intro x hx
  exact (FingerInv.reset hs _).trace newId ops hadm.2 x
    (by simpa [fingerTrace, fingerStep, freshAnswer] using hx)

/-! ## The runs the allocator performs

The allocator touches a range's finger at these places: `Initialize` when the
range is queued (`AddToSortedListOfRanges`, 2937), when a blocking range joins
its register (`PrepareForAllocation`, 3013) and for an initial definition
(`ProcessInitialDefinition`, 865); `FirstRegisterBeneficialUse` of the block's
start right after the last (867); `FirstRegisterUse(Start())` on the range in
hand (`AllocateAnyRegister`, 2624); `Advance(start)` on an occupant
(`AdvanceActiveIntervals`, 2859) and `FirstInterferingUse(start)` on an
occupant that may be a value's (`UpdateFreeUntil`, 2691, and
`EvictIntersection`, 2766), `start` being the popped range's start; and
`SplitAt` (`SplitBetween`, `SpillBetween`, `SpillAfter`, and
`AllocateFreeRegister`'s own split at 2556). The other reads of the finger
(`first_pending_use_interval()`, `FirstHint()`) move no cache.

The loop pops ranges in order of start, so an occupant sees non-decreasing
positions from its own start on. A split of the range in hand lies after its
start: `AllocateFreeRegister` splits at a `free_until` past it, and
`SplitBetween(range, Start(), to)` picks a position in `(Start(), to]`. After
an eviction's or an initial definition's splits the finger takes no query:
the head leaves its register, is spilled or has its uses converted, and a tail
is queued afresh.
-/

/-- The operations of an occupant, `Advance` and `FirstInterferingUse`, at
non-decreasing positions from `lo` on. -/
def occupantOps : Nat → List FingerOp → Bool
  | _, [] => true
  | lo, .advance p :: ops => decide (lo ≤ p) && occupantOps p ops
  | lo, .firstInterferingUse p :: ops => decide (lo ≤ p) && occupantOps p ops
  | _, _ :: _ => false

/-- What `AllocateFreeRegister` and `AllocateAnyRegister` do to the finger of
the range in hand, popped at its start `a`: nothing, a split after `a`,
`FirstRegisterUse(a)`, or `FirstRegisterUse(a)` and then a split after `a`. -/
inductive InHand (a : Nat) : List FingerOp → Prop
  | idle : InHand a []
  | split {p : Nat} : a < p → InHand a [.splitAt p]
  | registerUse : InHand a [.firstRegisterUse a]
  | registerUseSplit {p : Nat} : a < p → InHand a [.firstRegisterUse a, .splitAt p]

/-- The operations the allocator performs on the finger of a range that starts
at `a`, from one `Initialize` to the next: an initial definition's
`FirstRegisterBeneficialUse` and split; a blocking range's occupancy; or a
queued range's time in hand, its occupancy, and the splits of its eviction. -/
inductive AllocatorRun (a : Nat) : List FingerOp → Prop
  | initialDefinition (b : Nat) (splits : List Nat) :
      AllocatorRun a (.reset :: .firstRegisterBeneficialUse b :: splits.map .splitAt)
  | blocking {occupied : List FingerOp} :
      occupantOps 0 occupied = true → AllocatorRun a (.reset :: occupied)
  | queued {hand occupied : List FingerOp} (splits : List Nat) :
      InHand a hand → occupantOps a occupied = true →
      AllocatorRun a (.reset :: (hand ++ occupied ++ splits.map .splitAt))

theorem firstRegisterUse_pending (f : Finger) (uses : List UsePosition) (slots : Nat → Location)
    (a : Nat) : (f.firstRegisterUse uses slots a).1.pending = f.pending := by
  unfold Finger.firstRegisterUse
  split <;> rfl

section Runs
variable {slots : Nat → Location} {newId : Nat}

/-- The range after a run of operations. -/
def fingerRun (slots : Nat → Location) (newId : Nat) (r : LiveRange) (ops : List FingerOp) :
    LiveRange :=
  ops.foldl (fun r op => (fingerStep slots newId r op).1) r

theorem fingerTrace_append (l₁ l₂ : List FingerOp) : ∀ r : LiveRange,
    fingerTrace slots newId r (l₁ ++ l₂) =
      fingerTrace slots newId r l₁ ++ fingerTrace slots newId (fingerRun slots newId r l₁) l₂ := by
  induction l₁ with
  | nil => intro r; rfl
  | cons op l₁ ih =>
    intro r
    rw [List.cons_append, fingerTrace, fingerTrace, ih]
    split <;> rfl

theorem admissibleRun_append (l₁ l₂ : List FingerOp) : ∀ (r : LiveRange) (g : FingerGhost),
    admissibleRun slots newId r g (l₁ ++ l₂) = (admissibleRun slots newId r g l₁ &&
      admissibleRun slots newId (fingerRun slots newId r l₁) (l₁.foldl FingerGhost.next g) l₂) := by
  induction l₁ with
  | nil => intro r g; rfl
  | cons op l₁ ih =>
    intro r g
    rw [List.cons_append, admissibleRun, admissibleRun, ih, Bool.and_assoc]
    rfl

/-- Splits answer no query. -/
theorem fingerTrace_splits (ps : List Nat) : ∀ r : LiveRange,
    fingerTrace slots newId r (ps.map .splitAt) = [] := by
  induction ps with
  | nil => intro r; rfl
  | cons p ps ih => intro r; simp [fingerTrace, fingerStep, freshAnswer, ih]

/-- An occupant's operations are admissible from floors at or below `lo`. -/
theorem admissibleRun_occupantOps : ∀ (ops : List FingerOp) (lo : Nat) (r : LiveRange)
    (g : FingerGhost), g.advancedTo ≤ lo → g.registerFrom ≤ interferingFrom lo →
    occupantOps lo ops = true → admissibleRun slots newId r g ops = true
  | [], _, _, _, _, _, _ => rfl
  | .advance p :: ops, lo, r, g, ha, hr, h => by
    simp only [occupantOps, Bool.and_eq_true, decide_eq_true_eq] at h
    simp only [admissibleRun, FingerOp.admissible, Bool.and_eq_true, decide_eq_true_eq]
    exact ⟨by omega, admissibleRun_occupantOps ops p _ _ le_rfl
      (hr.trans (interferingFrom_mono h.1)) h.2⟩
  | .firstInterferingUse p :: ops, lo, r, g, ha, hr, h => by
    simp only [occupantOps, Bool.and_eq_true, decide_eq_true_eq] at h
    simp only [admissibleRun, FingerOp.admissible, Bool.and_eq_true, decide_eq_true_eq]
    exact ⟨hr.trans (interferingFrom_mono h.1),
      admissibleRun_occupantOps ops p _ _ (ha.trans h.1) le_rfl h.2⟩
  | .reset :: _, _, _, _, _, _, h
  | .firstRegisterUse _ :: _, _, _, _, _, _, h
  | .firstRegisterBeneficialUse _ :: _, _, _, _, _, _, h
  | .splitAt _ :: _, _, _, _, _, _, h => by simp [occupantOps] at h

/-- A split after the start is admissible while the pending interval is the
first one. -/
theorem admissible_splitAt_reset {r : LiveRange} {f : Finger} (g : FingerGhost) {p : Nat}
    (hf : f.pending = (Finger.reset r).pending) (hp : r.start < p) :
    FingerOp.admissible { r with finger := f } g (.splitAt p) = true := by
  simp only [FingerOp.admissible, Bool.and_eq_true, decide_eq_true_eq, hf, Finger.reset]
  refine ⟨hp, ?_⟩
  cases h : r.intervals with
  | nil => simp
  | cons iv ivs => simpa [LiveRange.start, h] using hp

/-- The time in hand is admissible after `Initialize`, and leaves the floors
at most at the range's start. -/
theorem admissibleRun_inHand (slots : Nat → Location) (newId : Nat) {r : LiveRange}
    {hand : List FingerOp} (h : InHand r.start hand) :
    admissibleRun slots newId { r with finger := Finger.reset r } ⟨0, 0, 0⟩ hand = true ∧
      (hand.foldl FingerGhost.next ⟨0, 0, 0⟩).advancedTo = 0 ∧
      (hand.foldl FingerGhost.next ⟨0, 0, 0⟩).registerFrom ≤ r.start := by
  cases h with
  | idle => exact ⟨rfl, rfl, Nat.zero_le _⟩
  | split hp =>
    refine ⟨?_, rfl, Nat.zero_le _⟩
    simp only [admissibleRun, admissible_splitAt_reset _ rfl hp, Bool.true_and]
  | registerUse =>
    exact ⟨by simp [admissibleRun, FingerOp.admissible], rfl, le_rfl⟩
  | registerUseSplit hp =>
    refine ⟨?_, rfl, le_rfl⟩
    have hf := firstRegisterUse_pending (Finger.reset r) r.uses slots r.start
    simp only [admissibleRun, fingerStep, admissible_splitAt_reset _ hf hp, Bool.and_true]
    simp [FingerOp.admissible]

end Runs

/-- Cached finger queries agree with fresh scans on every run the allocator
performs. On a range with uses in position order, every answer of
`Advance`, `FirstRegisterUse`, `FirstRegisterBeneficialUse` and
`FirstInterferingUse` along an `AllocatorRun` is the fresh scan of the range as
it stands. -/
theorem allocatorRun_cached_eq_fresh (slots : Nat → Location) (newId : Nat) (r : LiveRange)
    (ops : List FingerOp) (hs : r.uses.Pairwise fun a b => a.pos ≤ b.pos)
    (hrun : AllocatorRun r.start ops) : ∀ x ∈ fingerTrace slots newId r ops, x.1 = x.2 := by
  cases hrun with
  | initialDefinition b splits =>
    rw [show FingerOp.reset :: .firstRegisterBeneficialUse b :: splits.map .splitAt =
        [.reset, .firstRegisterBeneficialUse b] ++ splits.map .splitAt from rfl,
      fingerTrace_append, fingerTrace_splits, List.append_nil]
    exact fingerTrace_cached_eq_fresh slots newId r _ hs
      (by simp [admissibleRun, FingerOp.admissible, FingerGhost.next])
  | blocking hocc =>
    refine fingerTrace_cached_eq_fresh slots newId r _ hs ?_
    simp only [admissibleRun, FingerOp.admissible, Bool.true_and]
    exact admissibleRun_occupantOps _ 0 _ _ le_rfl (Nat.zero_le _) hocc
  | @queued hand occupied splits hhand hocc =>
    rw [← List.cons_append, fingerTrace_append, fingerTrace_splits, List.append_nil]
    refine fingerTrace_cached_eq_fresh slots newId r _ hs ?_
    obtain ⟨h₁, h₂, h₃⟩ := admissibleRun_inHand slots newId hhand
    have h₄ : admissibleRun slots newId (fingerRun slots newId { r with finger := Finger.reset r } hand)
        (hand.foldl FingerGhost.next ⟨0, 0, 0⟩) occupied = true :=
      admissibleRun_occupantOps occupied r.start _ _ (by rw [h₂]; exact Nat.zero_le _)
        (h₃.trans (le_interferingFrom _)) hocc
    simp only [admissibleRun, FingerOp.admissible, Bool.true_and]
    rw [admissibleRun_append]
    exact Bool.and_eq_true_iff.2 ⟨h₁, h₄⟩

/-- A range popped at `4` asks for its first register use and is split at `9`;
as an occupant it advances to `6` and to `8` with interference queries, and is
evicted by a split at `7`. -/
theorem allocatorRun_cached_eq_fresh_evicted :
    let r : LiveRange := { LiveRange.make 0 .tagged with
      intervals := [⟨4, 8⟩, ⟨10, 14⟩], uses := [⟨5, 0, none⟩, ⟨6, 1, none⟩, ⟨11, 0, none⟩] }
    let ops := FingerOp.reset :: ([.firstRegisterUse 4, .splitAt 9] ++
      [.advance 6, .firstInterferingUse 6, .firstInterferingUse 6, .advance 8, .firstInterferingUse 8] ++
      [7].map .splitAt)
    (r.uses.Pairwise fun a b => a.pos ≤ b.pos) ∧ AllocatorRun r.start ops ∧
      ∀ x ∈ fingerTrace (fun _ => .unallocated .requiresRegister) 1 r ops, x.1 = x.2 :=
  ⟨by decide, .queued [7] (.registerUseSplit (by decide)) rfl,
    allocatorRun_cached_eq_fresh _ _ _ _ (by decide) (.queued [7] (.registerUseSplit (by decide)) rfl)⟩

end LinearScan
