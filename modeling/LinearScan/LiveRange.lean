import LinearScan.Location

/-!
# Live ranges: intervals, uses, safepoints, the finger and `SplitAt`

`LiveRange` (linearscan.h 520–656) is the allocator's central entity. It holds
three ascending lists: the use intervals `[start, end)` in which the value must
be kept somewhere, the use positions whose location slots the allocator fills,
and the safepoints the value crosses. This module holds those lists and the
operations of linearscan.cc that edit them:

* the prepend-only construction primitives `AddUse`, `AddHintedUse`,
  `AddUseInterval`, `DefineAt` and `AddSafepoint` (lines 309–439);
* the `AllocationFinger`, a cache of four positions in the lists, with its
  queries `FirstHint`, `FirstRegisterUse`, `FirstRegisterBeneficialUse` and
  `FirstInterferingUse` (lines 1857–1942);
* `UseInterval::Intersect` and `FirstIntersection` (lines 1944–1966);
* `SplitAt`, which cuts a range at a position and hands everything at or after
  it to a new sibling (lines 1968–2049).

The split lemmas at the end are the structural half of sibling tiling. The two
parts of a split hold exactly the uses and safepoints of the range before it, in
order, the head keeping those at or before the split position, and together
they cover exactly the positions the range covered.

Mirroring notes vs the C++ source:
- Linked lists are Lean lists, in the same order. A use's `location_slot()` and
  `hint_` point into `Location` storage shared with the instructions. They are
  indices into a slot store (`Nat → Location`), which the finger queries read.
- The finger's four pointers are indices into the range's own lists, and
  `none` is `nullptr`. After `SplitAt` the head's interval pointer can index past
  its shortened list, where the C++ pointer reaches into the sibling's nodes.
  The code never reads it again before the head leaves the allocator's working
  sets. `SplitAt` restarts its walk from the first interval when it finds the
  pointer out of range.
- `UseInterval::end()` is `stop`, since `end` is a Lean keyword. The range's
  `End()` is `stop` too.
- `kIllegalPosition` results are `none`. Positions are naturals.
- `has_only_any_uses_in_loops_` is a predicate on loop ids. `MarkHasOnly...`
  sets it below `kMaxLoops` only.
-/

namespace LinearScan

/-- `UseInterval`: the half-open interval `[start, stop)`. -/
structure UseInterval where
  start : Nat
  stop : Nat
  deriving DecidableEq, Repr

namespace UseInterval

/-- `UseInterval::Contains`. -/
def contains (i : UseInterval) (pos : Nat) : Bool := i.start ≤ pos && pos < i.stop

/-- `UseInterval::Intersect`: the smallest position both intervals cover. -/
def intersect (a b : UseInterval) : Option Nat :=
  if a.start ≤ b.start then (if b.start < a.stop then some b.start else none)
  else if a.start < b.stop then some a.start else none

end UseInterval

/-- `UsePosition`: a position, the location slot the allocator fills, and an
optional hint slot. -/
structure UsePosition where
  pos : Nat
  slot : Nat
  hint : Option Nat
  deriving DecidableEq, Repr

/-- `SafepointPosition`: the end position of a safepoint instruction and the
index of its location summary. -/
structure SafepointPosition where
  pos : Nat
  locs : Nat
  deriving DecidableEq, Repr

/-- `AllocationFinger`: the first pending use interval and the first register,
register-beneficial and hinted uses, as indices. -/
structure Finger where
  pending : Option Nat
  registerUse : Option Nat
  registerBeneficialUse : Option Nat
  hintedUse : Option Nat
  deriving DecidableEq, Repr

/-- The finger of a freshly built range (all pointers `nullptr`). -/
def Finger.empty : Finger := ⟨none, none, none, none⟩

/-- `LiveRange`. `vreg` is negative for `kNoVirtualRegister` (blocking ranges)
and `kTempVirtualRegister` (temporaries). -/
structure LiveRange where
  vreg : Int
  representation : Representation
  assigned : Location
  spillSlot : Location
  uses : List UsePosition
  intervals : List UseInterval
  safepoints : List SafepointPosition
  nextSibling : Option Nat
  finger : Finger
  isLoopPhi : Bool
  onlyAnyUsesInLoop : Nat → Bool
  requiresStack : Bool

/-- `kMaxLoops`: the loops `has_only_any_uses_in_loops_` can record. -/
def kMaxLoops : Nat := 64

/-- `kNoVirtualRegister`, the vreg of register-blocking ranges. -/
def kNoVirtualRegister : Int := -1

/-- `kTempVirtualRegister`, the vreg of temporaries. -/
def kTempVirtualRegister : Int := -2

namespace LiveRange

/-- The public constructor `LiveRange(vreg, rep)`. -/
def make (vreg : Int) (rep : Representation) : LiveRange :=
  ⟨vreg, rep, .invalid, .invalid, [], [], [], none, Finger.empty, false, fun _ => false, false⟩

/-- `Start()`: the start of the first interval. -/
def start (r : LiveRange) : Nat := (r.intervals.head?.map (·.start)).getD 0

/-- `End()`: the end of the last interval. -/
def stop (r : LiveRange) : Nat := (r.intervals.getLast?.map (·.stop)).getD 0

/-- `CanCover`. -/
def canCover (r : LiveRange) (pos : Nat) : Bool := r.start ≤ pos && pos < r.stop

/-- `Contains`: some interval holds `pos`. -/
def contains (r : LiveRange) (pos : Nat) : Bool :=
  r.canCover pos && r.intervals.any (·.contains pos)

/-! ## Construction primitives -/

/-- Where `AddUse(pos, slot)` puts the use in a nonempty list whose head is
before `pos`: after the uses before `pos`, unless a use with the same slot is
already recorded at `pos` (the index of that use is returned instead). -/
def addUseIndex (uses : List UsePosition) (pos slot : Nat) : Option Nat × Nat :=
  let k := (uses.takeWhile (·.pos < pos)).length
  match ((uses.drop k).takeWhile (·.pos = pos)).findIdx? (·.slot = slot) with
  | some j => (some (k + j), k + j)
  | none => (none, k)

/-- `AddUse`: the uses after it and the index of the use at `pos` with `slot`. -/
def addUse (r : LiveRange) (pos slot : Nat) : LiveRange × Nat :=
  match r.uses with
  | [] => ({ r with uses := [⟨pos, slot, none⟩] }, 0)
  | u :: us =>
    if u.pos = pos && u.slot = slot then (r, 0)
    else if u.pos < pos then
      match addUseIndex (u :: us) pos slot with
      | (some j, _) => (r, j)
      | (none, k) => ({ r with uses := (u :: us).take k ++ ⟨pos, slot, none⟩ :: (u :: us).drop k }, k)
    else ({ r with uses := ⟨pos, slot, none⟩ :: u :: us }, 0)

/-- `AddHintedUse`: `AddUse`, then `set_hint` on the use it returns. -/
def addHintedUse (r : LiveRange) (pos slot hint : Nat) : LiveRange :=
  let p := addUse r pos slot
  { p.1 with uses := p.1.uses.modify (fun u => { u with hint := some hint }) p.2 }

/-- `AddUseInterval(start, end)`: intervals are prepended in decreasing order;
one touching the first interval is merged into it. -/
def addUseInterval (r : LiveRange) (s e : Nat) : LiveRange :=
  match r.intervals with
  | [] => { r with intervals := [⟨s, e⟩] }
  | i :: is =>
    if i.start < s then r
    else if s = i.start then
      if e ≤ i.stop then r else { r with intervals := ⟨s, e⟩ :: is }
    else if e = i.start then { r with intervals := ⟨s, i.stop⟩ :: is }
    else if e = i.stop then { r with intervals := ⟨s, i.stop⟩ :: is }
    else { r with intervals := ⟨s, e⟩ :: i :: is }

/-- `DefineAt(pos)`: shrink the first interval to start at the definition, or
create `[pos, pos + 1)` for a value without uses. -/
def defineAt (r : LiveRange) (pos : Nat) : LiveRange :=
  match r.intervals with
  | [] => { r with intervals := [⟨pos, pos + 1⟩] }
  | i :: is => { r with intervals := ⟨pos, i.stop⟩ :: is }

/-- `AddSafepoint(pos, locs)`: recorded at the instruction's end position,
except an always-calling, non-callee-safe safepoint of a constant. -/
def addSafepoint (r : LiveRange) (pos locs : Nat) (alwaysCalls calleeSafeCall : Bool) :
    LiveRange :=
  if r.spillSlot.isConstant && alwaysCalls && !calleeSafeCall then r
  else { r with safepoints := r.safepoints ++ [⟨toInstructionEnd pos, locs⟩] }

/-- `MarkHasOnlyUnconstrainedUsesInLoop`. -/
def markHasOnlyUnconstrainedUsesInLoop (r : LiveRange) (loopId : Nat) : LiveRange :=
  if loopId < kMaxLoops then
    { r with onlyAnyUsesInLoop := fun l => l = loopId || r.onlyAnyUsesInLoop l }
  else r

/-- `HasOnlyUnconstrainedUsesInLoop`. -/
def hasOnlyUnconstrainedUsesInLoop (r : LiveRange) (loopId : Nat) : Bool :=
  loopId < kMaxLoops && r.onlyAnyUsesInLoop loopId

end LiveRange

/-! ## The finger -/

namespace Finger

/-- `AllocationFinger::Initialize` (`initialize` is a Lean keyword): every
pointer at the head of its list. -/
def reset (r : LiveRange) : Finger :=
  let first := if r.uses = [] then none else some 0
  ⟨if r.intervals = [] then none else some 0, first, first, first⟩

/-- The walk of `Advance`: from interval `k`, skip the intervals that end at
or before `start`; `none` past the last one. -/
def advanceFrom (ivs : List UseInterval) (start : Nat) : Nat → Nat → Option Nat
  | k, 0 => if k < ivs.length then some k else none
  | k, n + 1 =>
    match ivs.get? k with
    | none => none
    | some iv => if iv.stop ≤ start then advanceFrom ivs start (k + 1) n else some k

/-- `AllocationFinger::Advance(start)`: the new pending interval, and whether
the range has no interval left (it can be retired). -/
def advance (f : Finger) (ivs : List UseInterval) (start : Nat) : Finger × Bool :=
  let p := match f.pending with
    | none => none
    | some k => advanceFrom ivs start k ivs.length
  ({ f with pending := p }, p.isNone)

/-- The uses from index `k` on, with their indices. -/
def usesFrom (uses : List UsePosition) (k : Nat) : List (Nat × UsePosition) :=
  ((uses.drop k).enum).map fun p => (p.1 + k, p.2)

/-- `FirstUseAfter` from the cached index: the first use at or after `after`. -/
def firstUseAfter (uses : List UsePosition) (cache : Option Nat) (after : Nat) :
    List (Nat × UsePosition) :=
  match cache with
  | none => []
  | some k => (usesFrom uses k).dropWhile (·.2.pos < after)

/-- `FirstHint`: the hint of the first hinted use from the cached index whose
hint slot holds an allocated location; `NoLocation` if none. -/
def firstHint (f : Finger) (uses : List UsePosition) (slots : Nat → Location) : Location :=
  let hinted := (firstUseAfter uses f.hintedUse 0).findSome? fun p =>
    p.2.hint.bind fun h => if (slots h).isUnallocated then none else some (slots h)
  hinted.getD .invalid

/-- The slot of a use requires a register: `FirstRegisterUse`'s test. -/
def isRegisterUse (slots : Nat → Location) (u : UsePosition) : Bool :=
  (slots u.slot).requiresRegisterPolicy

/-- Modelled from `locations.h` (not in the repository): `IsRegisterBeneficial`
is `!Equals(Any())`, so every unallocated policy but `Any` qualifies. -/
def isRegisterBeneficialUse (slots : Nat → Location) (u : UsePosition) : Bool :=
  (slots u.slot).isUnallocated && slots u.slot != .unallocated .any

/-- `FirstRegisterUse(after)`: the first use at or after `after`, from the
cache, whose slot requires a register; the cache moves to it. -/
def firstRegisterUse (f : Finger) (uses : List UsePosition) (slots : Nat → Location)
    (after : Nat) : Finger × Option (Nat × UsePosition) :=
  match (firstUseAfter uses f.registerUse after).find? (isRegisterUse slots ·.2) with
  | some p => ({ f with registerUse := some p.1 }, some p)
  | none => (f, none)

/-- `FirstRegisterBeneficialUse(after)`. -/
def firstRegisterBeneficialUse (f : Finger) (uses : List UsePosition)
    (slots : Nat → Location) (after : Nat) : Finger × Option (Nat × UsePosition) :=
  match (firstUseAfter uses f.registerBeneficialUse after).find?
      (isRegisterBeneficialUse slots ·.2) with
  | some p => ({ f with registerBeneficialUse := some p.1 }, some p)
  | none => (f, none)

/-- `FirstInterferingUse(after)`: a use at an instruction's end position does
not interfere. -/
def firstInterferingUse (f : Finger) (uses : List UsePosition) (slots : Nat → Location)
    (after : Nat) : Finger × Option (Nat × UsePosition) :=
  firstRegisterUse f uses slots (if isInstructionEndPosition after then after + 1 else after)

/-- `UpdateAfterSplit`: drop the use caches that point at or past the first use
handed to the sibling. -/
def updateAfterSplit (f : Finger) (uses : List UsePosition) (firstPos : Nat) : Finger :=
  let keep := fun (c : Option Nat) =>
    match c with
    | some k => if ((uses.get? k).map (·.pos)).getD 0 ≥ firstPos then none else some k
    | none => none
  { f with registerUse := keep f.registerUse,
           registerBeneficialUse := keep f.registerBeneficialUse }

end Finger

/-- The pending intervals of a range: from the finger's interval on. -/
def LiveRange.pendingIntervals (r : LiveRange) : List UseInterval :=
  match r.finger.pending with
  | none => []
  | some k => r.intervals.drop k

/-- `FirstIntersection(a, u)`: the first position two sorted interval lists
both cover, or `kMaxPosition`. The bound `n` is the walk's length. -/
def firstIntersectionAux : Nat → List UseInterval → List UseInterval → Nat
  | 0, _, _ => kMaxPosition
  | _, [], _ => kMaxPosition
  | _, _, [] => kMaxPosition
  | n + 1, a :: as, u :: us =>
    match a.intersect u with
    | some p => p
    | none =>
      if a.start < u.start then firstIntersectionAux n as (u :: us)
      else firstIntersectionAux n (a :: as) us

/-- `FirstIntersection`. -/
def firstIntersection (as us : List UseInterval) : Nat :=
  firstIntersectionAux (as.length + us.length) as us

/-! ## The order of intervals -/

/-- The positions a list of intervals covers. -/
def intervalsCover (ivs : List UseInterval) (pos : Nat) : Bool := ivs.any (·.contains pos)

/-- Non-empty intervals, each ending by the next one's start: the order
`AddUseInterval` builds and `SplitAt` keeps. -/
def IntervalsAscending (ivs : List UseInterval) : Prop :=
  (∀ iv ∈ ivs, iv.start < iv.stop) ∧ ivs.Pairwise (fun a b => a.stop ≤ b.start)

instance (ivs : List UseInterval) : Decidable (IntervalsAscending ivs) :=
  inferInstanceAs (Decidable (_ ∧ _))

@[simp] theorem intervalsCover_nil (pos : Nat) : intervalsCover [] pos = false := rfl

@[simp] theorem intervalsCover_cons (iv : UseInterval) (ivs : List UseInterval) (pos : Nat) :
    intervalsCover (iv :: ivs) pos = (iv.contains pos || intervalsCover ivs pos) := rfl

@[simp] theorem intervalsCover_append (l l' : List UseInterval) (pos : Nat) :
    intervalsCover (l ++ l') pos = (intervalsCover l pos || intervalsCover l' pos) := List.any_append

/-- Intervals that all end by `b` cover only positions before `b`. -/
theorem lt_of_intervalsCover {l : List UseInterval} {b pos : Nat} (h : ∀ x ∈ l, x.stop ≤ b)
    (hc : intervalsCover l pos = true) : pos < b := by
  obtain ⟨x, hx, hpos⟩ := List.any_eq_true.1 hc
  simp only [UseInterval.contains, Bool.and_eq_true, decide_eq_true_eq] at hpos
  exact hpos.2.trans_le (h x hx)

/-- Intervals that all start after `b` cover only positions after `b`. -/
theorem gt_of_intervalsCover {l : List UseInterval} {b pos : Nat} (h : ∀ x ∈ l, b < x.start)
    (hc : intervalsCover l pos = true) : b < pos := by
  obtain ⟨x, hx, hpos⟩ := List.any_eq_true.1 hc
  simp only [UseInterval.contains, Bool.and_eq_true, decide_eq_true_eq] at hpos
  exact (h x hx).trans_le hpos.1

namespace IntervalsAscending
variable {iv : UseInterval} {ivs : List UseInterval}

theorem of_cons (h : IntervalsAscending (iv :: ivs)) : IntervalsAscending ivs :=
  ⟨fun x hx => h.1 x (List.mem_cons_of_mem _ hx), (List.pairwise_cons.1 h.2).2⟩

/-- Everything a list covers lies at or after its first interval's start. -/
theorem start_le (h : IntervalsAscending (iv :: ivs)) {pos : Nat}
    (hc : intervalsCover (iv :: ivs) pos = true) : iv.start ≤ pos := by
  obtain ⟨x, hx, hpos⟩ := List.any_eq_true.1 hc
  simp only [UseInterval.contains, Bool.and_eq_true, decide_eq_true_eq] at hpos
  rcases List.mem_cons.1 hx with rfl | hx
  · exact hpos.1
  · have h₁ := (List.pairwise_cons.1 h.2).1 x hx
    have h₂ := h.1 iv (List.mem_cons_self _ _)
    omega

end IntervalsAscending

/-! ## Splitting -/

/-- `SplitListOfPositions`: the positions before the split (at or before it,
unless the split is at the start of an interval) and the rest. -/
def splitListOfPositions {α : Type} (posOf : α → Nat) (l : List α) (splitPos : Nat)
    (splitAtStart : Bool) : List α × List α :=
  l.span fun x => if splitAtStart then posOf x < splitPos else posOf x ≤ splitPos

/-- The interval walk of `SplitAt` from index `k`: the first interval that ends
after the split position. -/
def splitIndexFrom (ivs : List UseInterval) (splitPos : Nat) : Nat → Nat → Nat
  | k, 0 => k
  | k, n + 1 =>
    match ivs.get? k with
    | some iv => if iv.stop ≤ splitPos then splitIndexFrom ivs splitPos (k + 1) n else k
    | none => k

/-- The head's finger before `SplitAt`'s walk: initialized when its interval
pointer is `nullptr`. -/
def LiveRange.splitFinger (r : LiveRange) : Finger :=
  match r.finger.pending with
  | none => Finger.reset r
  | some _ => r.finger

/-- Where `SplitAt` starts its walk: the finger's interval, or the first one
when the split is at or before it (the "corner case" of lines 1979–1981). -/
def LiveRange.splitWalkStart (r : LiveRange) (splitPos : Nat) : Nat :=
  match r.splitFinger.pending with
  | some k =>
    match r.intervals.get? k with
    | some iv => if splitPos ≤ iv.start then 0 else k
    | none => 0
  | none => 0

/-- `SplitAt(pos)` on the lists of a range with a later start: the head,
which keeps the range's identity and points to the sibling `newId`, and the
sibling. -/
def LiveRange.splitParts (r : LiveRange) (splitPos newId : Nat) : LiveRange × LiveRange :=
  let k := splitIndexFrom r.intervals splitPos (r.splitWalkStart splitPos) r.intervals.length
  let iv := r.intervals.getD k ⟨0, 0⟩
  let splitAtStart := iv.start == splitPos
  let (headIvs, tailIvs) :=
    if !splitAtStart && iv.contains splitPos then
      (r.intervals.take k ++ [⟨iv.start, splitPos⟩], ⟨splitPos, iv.stop⟩ :: r.intervals.drop (k + 1))
    else (r.intervals.take k, r.intervals.drop k)
  let (headUses, tailUses) := splitListOfPositions (·.pos) r.uses splitPos splitAtStart
  let (headSps, tailSps) := splitListOfPositions (·.pos) r.safepoints splitPos splitAtStart
  let finger := r.splitFinger
  let finger := match tailUses with
    | [] => finger
    | u :: _ => finger.updateAfterSplit r.uses u.pos
  let tail : LiveRange :=
    ⟨r.vreg, r.representation, .invalid, .invalid, tailUses, tailIvs, tailSps, r.nextSibling,
      Finger.empty, false, fun _ => false, false⟩
  ({ r with uses := headUses, intervals := headIvs, safepoints := headSps,
            nextSibling := some newId, finger := finger }, tail)

/-! ## What a split keeps -/

section Split
variable {α : Type} (posOf : α → Nat) (l : List α) (splitPos : Nat) (splitAtStart : Bool)

/-- `SplitListOfPositions` cuts the list and loses nothing. -/
theorem splitListOfPositions_append :
    (splitListOfPositions posOf l splitPos splitAtStart).1 ++
      (splitListOfPositions posOf l splitPos splitAtStart).2 = l := by
  simp [splitListOfPositions, List.span_eq_take_drop]

/-- Everything the head keeps is at or before the split position. -/
theorem splitListOfPositions_fst_le :
    ∀ x ∈ (splitListOfPositions posOf l splitPos splitAtStart).1, posOf x ≤ splitPos := by
  intro x hx
  simp only [splitListOfPositions, List.span_eq_take_drop] at hx
  have := List.mem_takeWhile_imp hx
  split_ifs at this <;> simp at this <;> omega

end Split

section SplitParts
variable (r : LiveRange) (splitPos newId : Nat)

/-- The two parts of a split hold the range's uses, in order. -/
theorem splitParts_uses :
    (r.splitParts splitPos newId).1.uses ++ (r.splitParts splitPos newId).2.uses = r.uses :=
  splitListOfPositions_append _ _ _ _

/-- The two parts of a split hold the range's safepoints, in order. -/
theorem splitParts_safepoints :
    (r.splitParts splitPos newId).1.safepoints ++ (r.splitParts splitPos newId).2.safepoints =
      r.safepoints :=
  splitListOfPositions_append _ _ _ _

/-- An interval cut at a position it holds covers what its two pieces cover. -/
theorem UseInterval.contains_cut {iv : UseInterval} (h : iv.contains splitPos = true) (p : Nat) :
    iv.contains p = ((⟨iv.start, splitPos⟩ : UseInterval).contains p ||
      (⟨splitPos, iv.stop⟩ : UseInterval).contains p) := by
  simp only [UseInterval.contains, Bool.and_eq_true, decide_eq_true_eq] at h ⊢
  by_cases h1 : iv.start ≤ p <;> by_cases h2 : p < splitPos <;> simp [h1, h2] <;> omega

/-- A split loses no position of the range's cover: a position lies in an
interval of the range exactly when it lies in an interval of one of the parts. -/
theorem splitParts_cover (p : Nat) :
    r.intervals.any (·.contains p) =
      ((r.splitParts splitPos newId).1.intervals ++ (r.splitParts splitPos newId).2.intervals).any
        (·.contains p) := by
  simp only [LiveRange.splitParts]
  set k := splitIndexFrom r.intervals splitPos (r.splitWalkStart splitPos) r.intervals.length
  set iv := r.intervals.getD k ⟨0, 0⟩
  split_ifs with h
  · simp only [Bool.and_eq_true, Bool.not_eq_true'] at h
    have hk : k < r.intervals.length := by
      by_contra hk
      have : iv = ⟨0, 0⟩ := by
        simp only [iv, List.getD_eq_getElem?_getD, List.getElem?_eq_none (Nat.le_of_not_lt hk),
          Option.getD_none]
      simp [this, UseInterval.contains] at h
    have hiv : r.intervals = r.intervals.take k ++ iv :: r.intervals.drop (k + 1) := by
      have hget : iv = r.intervals[k] := by simp [iv, hk]
      rw [hget, ← List.drop_eq_getElem_cons hk, List.take_append_drop]
    conv_lhs => rw [hiv]
    simp only [List.any_append, List.any_cons, List.any_nil, Bool.or_false,
      UseInterval.contains_cut splitPos h.2 p, Bool.or_assoc]
  · simp

end SplitParts

end LinearScan
