import LinearScan.SpillSlots
import LinearScan.LiveRange

/-!
# The allocator's state and its range operations

`FlowGraphAllocator` keeps every live range it creates in one heap. Ranges are
named by their address: the worklist `unallocated_`, the per-register lists
`registers_[reg]`, `live_ranges_[vreg]` (a virtual register's first range) and
each range's `next_sibling()` all point into that heap. The model keeps the
heap as `AllocState.ranges`, indexed by range ids. Ids are handed out by
`fresh`, so a split sibling is the range `fresh` before the split.

This module holds the operations that the allocation loop (`AllocateLoop.lean`)
composes:
* `SplitAt`, `SplitBetween`, `SpillBetween` and `SpillAfter`, which cut a range
  and queue or spill its tail (linearscan.cc 1968–2157);
* `Spill`, `AllocateSpillSlotFor` on a range, `MarkAsObjectAtSafepoints` and
  `ConvertAllUses`, which fix a range's location and write it into every use
  slot and safepoint (lines 2159–2292, 2805–2849);
* `AddToSortedListOfRanges`, the worklist insertion (lines 2930–2955).

Mirroring notes vs the C++ source:
- What the allocator reads of the flow graph and of the target enters as
  `AllocCtx`: the register file of the pass, the positions of block entries,
  the loop nest with `extra_loop_info_`, reaching definitions of loop phis, the
  static part of each safepoint's `LocationSummary` and the catch entries. Only
  the mutable part of a location summary, its live registers and stack bitmap,
  is state (`LocsState`).
- `GetLiveRange` during allocation only reads `live_ranges_`. Every range the
  loop meets has a parent there, so `liveRanges` is a total function on vregs.
  For the negative vregs of temporaries the C++ read is out of bounds. The loop
  never spills a temporary, since each temporary has a register use.
- `FrameSlotForVariableIndex` and `VariableIndexForFrameSlot` are not part of
  the repository. For the non-positive variable indices of spill slots they are
  `first_local_from_fp + index` and its inverse (`FrameLayout`), so the stack
  index `MarkAsObjectAtSafepoints` sets is the spill table's own index.
- Walks over sibling chains use the number of ranges as their bound. A chain
  never revisits a range.
-/

namespace LinearScan

/-- The static part of a safepoint instruction's `LocationSummary`. -/
structure SafepointInfo where
  alwaysCalls : Bool
  canCall : Bool
  calleeSafeCall : Bool
  deriving DecidableEq, Repr

/-- The mutable part of a safepoint's `LocationSummary`: the registers live
across its slow path (`live_registers()`) and its stack bitmap (`SetStackBit`). -/
structure LocsState where
  liveRegisters : List (Location × Representation)
  stackBits : List Nat
  deriving DecidableEq, Repr

/-- A loop as the allocator sees it: `loop_info()` with its header's position
and outer loop, and `extra_loop_info_`. -/
structure LoopInfo where
  headerStart : Nat
  outer : Option Nat
  start : Nat
  stop : Nat
  backedgeInterference : Nat → Bool
  /-- The phis of the header: their virtual registers (two for a pair). -/
  headerPhis : List (List Nat)

/-- A catch entry as the fix-up after allocation reads it: its position and
its live-in virtual registers. -/
structure CatchEntry where
  startPos : Nat
  liveIn : List Nat

/-- Modelled from the spec: what the allocation loop reads of the flow graph,
the target and the pass (`PrepareForAllocation`). -/
structure AllocCtx where
  numberOfRegisters : Nat
  /-- `kRegisterAllocationBias`. -/
  bias : Nat
  registerKind : RegisterKind
  blocked : Nat → Bool
  intrinsicMode : Bool
  fixedSlotCount : Nat
  cpuSpillSlotCount : Nat
  layout : FrameLayout
  /-- `IsBlockEntry(pos)`. -/
  isBlockEntry : Nat → Bool
  /-- `GetLifetimePosition(BlockEntryAt(pos))`. -/
  blockStart : Nat → Nat
  /-- `BlockEntryAt(pos)->loop_info()`. -/
  loopAt : Nat → Option Nat
  loops : Nat → LoopInfo
  numLoops : Nat
  /-- `reaching_defs_.Get(phi)->Contains(vreg)`, for a phi by its first vreg. -/
  reachingDefs : Nat → Nat → Bool
  safepointInfo : Nat → SafepointInfo
  catchEntries : List CatchEntry
  exceptionLoc : Location
  stackTraceLoc : Location

/-- The allocator's state. -/
structure AllocState where
  ranges : Nat → LiveRange
  fresh : Nat
  slots : Nat → Location
  liveRanges : Int → Nat
  unallocated : List Nat
  registers : Nat → List Nat
  spillTable : SpillTable
  spilled : List Nat
  locs : Nat → LocsState

namespace Location

/-- `register_code()`. -/
def code : Location → Nat
  | register r | fpuRegister r => r
  | _ => 0

/-- `kind() == register_kind_`. -/
def hasKind (l : Location) (k : RegisterKind) : Bool :=
  match l, k with
  | register _, .register | fpuRegister _, .fpuRegister => true
  | _, _ => false

end Location

/-- The stack index `MarkAsObjectAtSafepoints` sets for a spill slot: the
variable index of an `FPREG`-based slot, negated. -/
def stackIndexOf (layout : FrameLayout) (l : Location) : Nat :=
  match l with
  | .stackSlot i .fp | .doubleStackSlot i .fp | .quadStackSlot i .fp =>
    (layout.firstLocalFromFp - i).toNat
  | .stackSlot i _ | .doubleStackSlot i _ | .quadStackSlot i _ => i.toNat
  | _ => 0

section Ops
variable (c : AllocCtx)

/-- The context `AllocateSpillSlotFor` reads. -/
def AllocCtx.spillCtx : SpillCtx := ⟨c.registerKind, c.fixedSlotCount, c.cpuSpillSlotCount, c.layout⟩

namespace AllocState

variable (s : AllocState)

/-- Replace range `id`. -/
def setRange (id : Nat) (r : LiveRange) : AllocState :=
  { s with ranges := fun j => if j = id then r else s.ranges j }

/-- Write `loc` into slot `k` (`*slot = loc`). -/
def setSlot (k : Nat) (loc : Location) : AllocState :=
  { s with slots := fun j => if j = k then loc else s.slots j }

/-- Update the location summary of safepoint `k`. -/
def setLocs (k : Nat) (l : LocsState) : AllocState :=
  { s with locs := fun j => if j = k then l else s.locs j }

/-- `safepoint->locs()->SetStackBit(bit)` on location summary `k`. -/
def setStackBit (bit k : Nat) : AllocState :=
  s.setLocs k { s.locs k with stackBits := (s.locs k).stackBits ++ [bit] }

/-- `live_registers()->Add(loc, rep)` on location summary `k`. -/
def addLiveRegister (k : Nat) (x : Location × Representation) : AllocState :=
  s.setLocs k { s.locs k with liveRegisters := (s.locs k).liveRegisters ++ [x] }

/-- The parent of a range: `GetLiveRange(range->vreg())`. -/
def parentOf (id : Nat) : Nat := s.liveRanges (s.ranges id).vreg

/-- The sibling chain from range `id`, at most `n` ranges. -/
def chainFrom : Nat → Nat → List Nat
  | _, 0 => []
  | id, n + 1 => id :: match (s.ranges id).nextSibling with
    | some next => chainFrom next n
    | none => []

/-- The sibling chain from range `id`. -/
def chain (id : Nat) : List Nat := s.chainFrom id s.fresh

end AllocState

open AllocState

/-- `SplitAt(pos)`: the state after the split and the id of the tail (the
range itself when it starts at `pos`). -/
def splitAt (s : AllocState) (id pos : Nat) : AllocState × Nat :=
  let r := s.ranges id
  if r.start = pos then (s, id)
  else
    let p := r.splitParts pos s.fresh
    ({ (s.setRange id p.1).setRange s.fresh p.2 with fresh := s.fresh + 1 }, s.fresh)

/-- The loop `SplitBetween` starts climbing from: the loop of `to`'s block, or
else the first loop whose `extra_loop_info_` extent holds `to`. -/
def AllocCtx.loopAround (toPos : Nat) : Option Nat :=
  match c.loopAt toPos with
  | some l => some l
  | none => (List.range c.numLoops).find? fun i => (c.loops i).start < toPos && toPos < (c.loops i).stop

/-- The `while` loop of `SplitBetween`: move back to the header of each
enclosing loop whose header comes after `from`. -/
def climbLoopHeaders (fromPos : Nat) : Nat → Option Nat → Nat → Nat
  | 0, _, pos => pos
  | _, none, pos => pos
  | n + 1, some l, pos =>
    if fromPos < (c.loops l).headerStart then
      climbLoopHeaders fromPos n (c.loops l).outer (c.loops l).headerStart
    else pos

/-- The position `SplitBetween(range, from, to)` splits at: the start of `to`'s
block, or of the outermost loop header after `from` around it, when `[from, to)`
crosses blocks; else the end of the instruction before `to`. -/
def splitBetweenPos (fromPos toPos : Nat) : Nat :=
  let blockPos := c.blockStart toPos
  if fromPos < blockPos then climbLoopHeaders c fromPos (c.numLoops + 1) (c.loopAround toPos) blockPos
  else toInstructionStart toPos - 1

/-- `SplitBetween(range, from, to)`: `SplitAt` at `splitBetweenPos`. -/
def splitBetween (s : AllocState) (id fromPos toPos : Nat) : AllocState × Nat :=
  splitAt s id (splitBetweenPos c fromPos toPos)

/-- `AllocateSpillSlotFor(range)`: a slot reserved from the range's start to the
end of its last sibling; the range joins `spilled_`. -/
def allocateSpillSlotForRange (s : AllocState) (id : Nat) : AllocState :=
  let r := s.ranges id
  let last := ((s.chain id).getLast?.map fun j => (s.ranges j).stop).getD r.stop
  let p := allocateSpillSlotFor c.spillCtx s.spillTable r.start last r.representation
  { s.setRange id { r with spillSlot := p.1 } with spillTable := p.2, spilled := s.spilled ++ [id] }

/-- `MarkAsObjectAtSafepoints(range)`: set the spill slot's bit in the stack
bitmap of every safepoint of every sibling from `id` on. -/
def markAsObjectAtSafepoints (s : AllocState) (id : Nat) : AllocState :=
  let bit := stackIndexOf c.layout (s.ranges id).spillSlot
  (s.chain id).foldl (fun s j =>
    (s.ranges j).safepoints.foldl (fun s sp =>
      s.setStackBit bit sp.locs) s) s

/-- `ConvertAllUses(range)`: write the assigned location into every use slot,
and record a machine register at every safepoint with a slow path. -/
def convertAllUses (s : AllocState) (id : Nat) : AllocState :=
  let r := s.ranges id
  if r.vreg = kNoVirtualRegister then s
  else
    let s := r.uses.foldl (fun s u => s.setSlot u.slot r.assigned) s
    if r.assigned.isMachineRegister then
      r.safepoints.foldl (fun s sp =>
        if (c.safepointInfo sp.locs).alwaysCalls then s
        else s.addLiveRegister sp.locs (r.assigned, r.representation)) s
    else s

/-- `Spill(range)`: give the parent a spill slot if it has none (marking it
at every safepoint for a tagged range), move the range there and convert its
uses. -/
def spill (s : AllocState) (id : Nat) : AllocState :=
  let parent := s.parentOf id
  let s :=
    if (s.ranges parent).spillSlot = .invalid then
      let s := allocateSpillSlotForRange c s parent
      if (s.ranges id).representation = .tagged then markAsObjectAtSafepoints c s parent else s
    else s
  let s := s.setRange id { s.ranges id with assigned := (s.ranges parent).spillSlot }
  convertAllUses c s id

/-- The insertion index of `AddToSortedListOfRanges`: after the last queued
range that does not start before the new one (`ShouldBeAllocatedBefore`). -/
def sortedInsertIndex (s : AllocState) (list : List Nat) (start : Nat) : Nat :=
  match ((List.range list.length).reverse.find? fun i =>
      start ≤ (s.ranges (list.getD i 0)).start) with
  | some i => i + 1
  | none => 0

/-- `AddToSortedListOfRanges` on `unallocated_` (`AddToUnallocated`): reset
the finger and insert, keeping starts non-increasing towards the end. -/
def addToUnallocated (s : AllocState) (id : Nat) : AllocState :=
  let r := s.ranges id
  let s := s.setRange id { r with finger := Finger.reset r }
  let i := sortedInsertIndex s s.unallocated r.start
  { s with unallocated := s.unallocated.insertIdx i id }

/-- `SpillBetween(range, from, to)`: spill the part of the range from `from` to
before `to`, queue the rest. -/
def spillBetween (s : AllocState) (id fromPos toPos : Nat) : AllocState :=
  let (s, tail) := splitAt s id fromPos
  if (s.ranges tail).start < toPos then
    let (s, tailTail) := splitBetween c s tail (s.ranges tail).start toPos
    addToUnallocated (spill c s tail) tailTail
  else addToUnallocated s tail

/-- `RangeHasOnlyUnconstrainedUsesInLoop`, read on the parent. -/
def rangeHasOnlyUnconstrainedUsesInLoop (s : AllocState) (id loopId : Nat) : Bool :=
  decide (0 ≤ (s.ranges id).vreg) && (s.ranges (s.parentOf id)).hasOnlyUnconstrainedUsesInLoop loopId

/-- `SpillAfter(range, from)`: spill everything from `from` on, moved back to
the loop header when the range has only unconstrained uses in the loop. -/
def spillAfter (s : AllocState) (id fromPos : Nat) : AllocState :=
  let fromPos := match c.loopAt fromPos with
    | some l =>
      if (s.ranges id).start ≤ (c.loops l).headerStart && rangeHasOnlyUnconstrainedUsesInLoop s id l
      then (c.loops l).headerStart else fromPos
    | none => fromPos
  let (s, tail) := splitAt s id fromPos
  spill c s tail

end Ops

/-! ## What the operations touch -/

/-- A projection that every step keeps is kept by the fold. -/
theorem foldl_keep {α β γ : Type} (g : β → γ) {f : β → α → β} (h : ∀ b a, g (f b a) = g b)
    (l : List α) (b : β) : g (l.foldl f b) = g b :=
  List.foldlRecOn (motive := fun t => g t = g b) l f b rfl fun t ht a _ => (h t a).trans ht

/-- Along a fold that keeps `I`, a property `Q a` that the step at `a`
establishes and every later step keeps holds at the end, for every `a` folded. -/
theorem foldl_inv {α β : Type} (I : β → Prop) (Q : α → β → Prop) {f : β → α → β}
    (hI : ∀ b a, I b → I (f b a)) (hQ : ∀ b a, I b → Q a (f b a))
    (hkeep : ∀ b a a', I b → Q a' b → Q a' (f b a)) (l : List α) (b : β) (hb : I b) :
    ∀ a ∈ l, Q a (l.foldl f b) := by
  intro a ha
  obtain ⟨l₁, l₂, rfl⟩ := List.append_of_mem ha
  have h₁ : I (l₁.foldl f b) := List.foldlRecOn l₁ f b hb fun t ht _ _ => hI t _ ht
  rw [List.foldl_append, List.foldl_cons]
  exact (List.foldlRecOn (motive := fun t => I t ∧ Q a t) l₂ f _ ⟨hI _ _ h₁, hQ _ _ h₁⟩
    fun t ht _ _ => ⟨hI t _ ht.1, hkeep t _ a ht.1 ht.2⟩).2

namespace AllocState

variable (s : AllocState)

@[simp] theorem setRange_ranges (id : Nat) (r : LiveRange) (j : Nat) :
    (s.setRange id r).ranges j = if j = id then r else s.ranges j := rfl
@[simp] theorem setRange_slots (id : Nat) (r : LiveRange) : (s.setRange id r).slots = s.slots := rfl
@[simp] theorem setRange_locs (id : Nat) (r : LiveRange) : (s.setRange id r).locs = s.locs := rfl
@[simp] theorem setLocs_ranges (k : Nat) (l : LocsState) : (s.setLocs k l).ranges = s.ranges := rfl
@[simp] theorem setLocs_slots (k : Nat) (l : LocsState) : (s.setLocs k l).slots = s.slots := rfl
@[simp] theorem setLocs_locs (k : Nat) (l : LocsState) (j : Nat) :
    (s.setLocs k l).locs j = if j = k then l else s.locs j := rfl
@[simp] theorem setSlot_ranges (k : Nat) (l : Location) : (s.setSlot k l).ranges = s.ranges := rfl
@[simp] theorem setSlot_locs (k : Nat) (l : Location) : (s.setSlot k l).locs = s.locs := rfl
@[simp] theorem setSlot_slots (k : Nat) (l : Location) (j : Nat) :
    (s.setSlot k l).slots j = if j = k then l else s.slots j := rfl

/-- A set stack bit stays set. -/
theorem setStackBit_mono {bit k k' x : Nat} (h : x ∈ (s.locs k').stackBits) :
    x ∈ ((s.setStackBit bit k).locs k').stackBits := by
  by_cases hk : k' = k <;> simp [setStackBit, hk, h]
  subst hk; exact Or.inl h

theorem mem_setStackBit (bit k : Nat) : bit ∈ ((s.setStackBit bit k).locs k).stackBits := by
  simp [setStackBit]

/-- A recorded live register stays recorded. -/
theorem addLiveRegister_mono {k k' : Nat} {x y : Location × Representation}
    (h : y ∈ (s.locs k').liveRegisters) : y ∈ ((s.addLiveRegister k x).locs k').liveRegisters := by
  by_cases hk : k' = k <;> simp [addLiveRegister, hk, h]
  subst hk; exact Or.inl h

theorem mem_addLiveRegister (k : Nat) (x : Location × Representation) :
    x ∈ ((s.addLiveRegister k x).locs k).liveRegisters := by
  simp [addLiveRegister]

end AllocState

open AllocState

section Touch
variable (c : AllocCtx) (s : AllocState) (id : Nat)

theorem allocateSpillSlotForRange_slots : (allocateSpillSlotForRange c s id).slots = s.slots := rfl

theorem allocateSpillSlotForRange_locs : (allocateSpillSlotForRange c s id).locs = s.locs := rfl

theorem allocateSpillSlotForRange_ranges_ne {j : Nat} (h : j ≠ id) :
    (allocateSpillSlotForRange c s id).ranges j = s.ranges j := by
  simp [allocateSpillSlotForRange, h]

/-- `AllocateSpillSlotFor` changes only the range's spill slot. -/
theorem allocateSpillSlotForRange_self :
    (allocateSpillSlotForRange c s id).ranges id =
      { s.ranges id with spillSlot := ((allocateSpillSlotForRange c s id).ranges id).spillSlot } := by
  simp [allocateSpillSlotForRange]

/-- The slot `AllocateSpillSlotFor` gives a range is a stack slot. -/
theorem allocateSpillSlotForRange_hasStackIndex :
    ((allocateSpillSlotForRange c s id).ranges id).spillSlot.hasStackIndex = true := by
  simp only [allocateSpillSlotForRange, AllocState.setRange_ranges, if_pos rfl]
  exact allocateSpillSlotFor_hasStackIndex _ _ _ _ _

theorem markAsObjectAtSafepoints_ranges : (markAsObjectAtSafepoints c s id).ranges = s.ranges := by
  simp only [markAsObjectAtSafepoints]
  exact foldl_keep AllocState.ranges (fun _ _ => foldl_keep AllocState.ranges (fun _ _ => by rfl) _ _) _ _

theorem markAsObjectAtSafepoints_slots : (markAsObjectAtSafepoints c s id).slots = s.slots := by
  simp only [markAsObjectAtSafepoints]
  exact foldl_keep AllocState.slots (fun _ _ => foldl_keep AllocState.slots (fun _ _ => by rfl) _ _) _ _

/-- `MarkAsObjectAtSafepoints` sets the spill slot's bit at every safepoint of
every sibling from the range on. -/
theorem markAsObjectAtSafepoints_mem {j : Nat} (hj : j ∈ s.chain id) {sp : SafepointPosition}
    (hsp : sp ∈ (s.ranges j).safepoints) :
    stackIndexOf c.layout (s.ranges id).spillSlot ∈
      ((markAsObjectAtSafepoints c s id).locs sp.locs).stackBits := by
  set bit := stackIndexOf c.layout (s.ranges id).spillSlot
  let markOne := fun (t : AllocState) (j : Nat) =>
    (t.ranges j).safepoints.foldl (fun t (sp : SafepointPosition) => t.setStackBit bit sp.locs) t
  have keep : ∀ t j k x, x ∈ (t.locs k).stackBits → x ∈ ((markOne t j).locs k).stackBits :=
    fun t j k x h => List.foldlRecOn _ _ t h fun t' ht' _ _ => t'.setStackBit_mono ht'
  have hranges : ∀ t j, (markOne t j).ranges = t.ranges := fun t j =>
    foldl_keep (f := fun (t : AllocState) (sp : SafepointPosition) => t.setStackBit bit sp.locs)
      AllocState.ranges (fun _ _ => rfl) _ _
  exact foldl_inv (fun t => t.ranges = s.ranges)
    (fun j t => ∀ sp ∈ (s.ranges j).safepoints, bit ∈ (t.locs sp.locs).stackBits)
    (f := markOne) (fun t j ht => (hranges t j).trans ht)
    (fun t j ht => by
      rw [← ht]
      exact foldl_inv (fun _ => True)
        (fun (sp : SafepointPosition) (t : AllocState) => bit ∈ (t.locs sp.locs).stackBits)
        (fun _ _ _ => trivial) (fun t sp _ => t.mem_setStackBit bit sp.locs)
        (fun t _ _ _ h => t.setStackBit_mono h) _ t trivial)
    (fun t j j' _ h sp hsp => keep t j _ _ (h sp hsp)) (s.chain id) s rfl j hj sp hsp

@[simp] theorem AllocState.addLiveRegister_stackBits (t : AllocState) (k j : Nat)
    (x : Location × Representation) :
    ((t.addLiveRegister k x).locs j).stackBits = (t.locs j).stackBits := by
  by_cases h : j = k <;> simp [AllocState.addLiveRegister, h]

/-- The use walk of `ConvertAllUses` writes slots only. -/
theorem foldl_setSlot_locs (l : List UsePosition) (loc : Location) :
    (l.foldl (fun t u => t.setSlot u.slot loc) s).locs = s.locs :=
  foldl_keep AllocState.locs (fun _ _ => by rfl) _ _

/-- `ConvertAllUses` sets no stack bit. -/
theorem convertAllUses_stackBits (k : Nat) :
    ((convertAllUses c s id).locs k).stackBits = (s.locs k).stackBits := by
  simp only [convertAllUses]
  split_ifs
  · rfl
  · exact (foldl_keep (fun t : AllocState => (t.locs k).stackBits)
      (fun _ _ => by dsimp only; split_ifs <;> simp) _ _).trans (by rw [foldl_setSlot_locs])
  · rw [foldl_setSlot_locs]

/-- `ConvertAllUses` of a range in a machine register records the register at
every safepoint of the range that has a slow path. -/
theorem convertAllUses_liveRegisters (hv : (s.ranges id).vreg ≠ kNoVirtualRegister)
    (hreg : (s.ranges id).assigned.isMachineRegister = true) {sp : SafepointPosition}
    (hsp : sp ∈ (s.ranges id).safepoints) (hslow : (c.safepointInfo sp.locs).alwaysCalls = false) :
    ((s.ranges id).assigned, (s.ranges id).representation) ∈
      ((convertAllUses c s id).locs sp.locs).liveRegisters := by
  simp only [convertAllUses, if_neg hv, hreg, if_true]
  set x := ((s.ranges id).assigned, (s.ranges id).representation)
  refine foldl_inv (fun _ => True)
    (fun (sp : SafepointPosition) (t : AllocState) =>
      (c.safepointInfo sp.locs).alwaysCalls = false → x ∈ (t.locs sp.locs).liveRegisters)
    (fun _ _ _ => trivial) (fun t sp' _ h => ?_) (fun t sp' _ _ h h' => ?_) _ _ trivial sp hsp hslow
  · simp only [h, Bool.false_eq_true, if_false]
    exact t.mem_addLiveRegister _ _
  · split_ifs
    · exact h h'
    · exact t.addLiveRegister_mono (h h')

/-- `Spill` of a range whose representation is not `kTagged` sets no stack bit:
its slot is allocated, but never marked at a safepoint. -/
theorem spill_stackBits_of_ne_tagged (h : (s.ranges id).representation ≠ .tagged) (k : Nat) :
    ((spill c s id).locs k).stackBits = (s.locs k).stackBits := by
  have hrep : ((allocateSpillSlotForRange c s (s.parentOf id)).ranges id).representation =
      (s.ranges id).representation := by
    by_cases hp : s.parentOf id = id
    · rw [hp, allocateSpillSlotForRange_self]
    · rw [allocateSpillSlotForRange_ranges_ne c s _ (Ne.symm hp)]
  simp only [spill]
  split_ifs with h1 h2
  · exact absurd (hrep ▸ h2) h
  · rw [convertAllUses_stackBits, AllocState.setRange_locs, allocateSpillSlotForRange_locs]
  · rw [convertAllUses_stackBits, AllocState.setRange_locs]

/-- The stack map of a range's first spill: at a safepoint of its parent whose
bitmap does not yet hold the new slot, the slot's bit is set exactly when the
range is `kTagged`. A pair of tagged values (`kPairOfTagged`) is left unmarked. -/
theorem spill_marks_iff_tagged (hslot : (s.ranges (s.parentOf id)).spillSlot = .invalid) (hfresh : 0 < s.fresh)
    {sp : SafepointPosition} (hsp : sp ∈ (s.ranges (s.parentOf id)).safepoints)
    (hnew : stackIndexOf c.layout ((allocateSpillSlotForRange c s (s.parentOf id)).ranges (s.parentOf id)).spillSlot ∉
      (s.locs sp.locs).stackBits) :
    stackIndexOf c.layout ((allocateSpillSlotForRange c s (s.parentOf id)).ranges (s.parentOf id)).spillSlot ∈
        ((spill c s id).locs sp.locs).stackBits ↔ (s.ranges id).representation = .tagged := by
  set p := s.parentOf id
  set t := allocateSpillSlotForRange c s p
  refine ⟨fun hin => by_contra fun hne => hnew (spill_stackBits_of_ne_tagged c s id hne _ ▸ hin), fun htag => ?_⟩
  have hrep : (t.ranges id).representation = .tagged := by
    by_cases hp : p = id
    · rw [← hp, allocateSpillSlotForRange_self]; exact hp ▸ htag
    · rw [allocateSpillSlotForRange_ranges_ne c s _ (Ne.symm hp)]; exact htag
  have hchain : p ∈ t.chain p := by
    obtain ⟨n, hn⟩ : ∃ n, t.fresh = n + 1 := ⟨s.fresh - 1, by show s.fresh = _; omega⟩
    simp [AllocState.chain, hn, AllocState.chainFrom]
  have hsp' : sp ∈ (t.ranges p).safepoints := by rw [allocateSpillSlotForRange_self]; exact hsp
  simp only [spill, if_pos hslot, if_pos hrep]
  rw [convertAllUses_stackBits, AllocState.setRange_locs]
  exact markAsObjectAtSafepoints_mem c t p hchain hsp'

end Touch

end LinearScan
