import LinearScan.AllocateLoop

/-!
# Live-range construction: `BuildLiveRanges`

`BuildLiveRanges` (linearscan.cc 600–744) walks the blocks after the graph
entry in reverse order. In each block it extends the values live out of it over
the whole block, records the phi inputs the block passes on at its goto
(`ConnectOutgoingPhiMoves`, lines 927–1000), walks the instructions backwards,
marks a loop header's values whose uses in the loop are unconstrained, and then
handles the block's entry: a join defines its phis (`ConnectIncomingPhiMoves`,
lines 1002–1062), a catch entry is a safepoint and defines its initial
definitions, a function or OSR entry defines its initial definitions. The
graph entry's initial definitions come last. For every instruction,
`ProcessOneInstruction` (lines 1432–1755) reads its `LocationSummary` and edits
the live ranges:

* every value of the deoptimization environment, and every input of a
  materialization it names, must survive to the instruction's end, anywhere
  (`ProcessEnvironmentUses`, `ProcessMaterializationUses`, lines 1064–1213);
* an input is a fixed register (a move into it before the instruction, the
  register blocked around it), a writable register (a move into a fresh
  temporary), or an unallocated use at the instruction's end, flagged when it
  requires the stack (`ProcessOneInput`, lines 1215–1282); a `MoveArgument`
  passed in a register is a fixed register input;
* a temp is a blocked register or a one-position temporary range;
* an instruction that always calls blocks every register at its start, and one
  that can call is recorded as a safepoint;
* the output is a fixed register connected by a move, the first input's
  register, or an unallocated register (`ProcessOneOutput`, lines 1284–1400).
  Its range then gets its safepoints and is queued for its register class.

An initial definition (`ProcessInitialDefinition`, lines 827–893) is a
parameter or a constant. A parameter in a register keeps that register at the
entry and hands the rest of its range to the allocator; any other one keeps its
location up to its first register-beneficial use, from where the allocator
takes over.

`prepareForAllocation` hands a class's queue and blocking ranges to the
allocation loop (`PrepareForAllocation`, lines 2988–3018).

Mirroring notes vs the C++ source:
- The builder's state is the allocator's state plus what only construction
  touches. `cpu_regs_` and `fpu_regs_` are one function of the register class,
  as are `unallocated_cpu_` and `unallocated_fpu_`.
- `live_ranges_[vreg]` is created on first `GetLiveRange`. The model starts from
  a state where every virtual register has its range, as created (`LiveRange.make`).
- A move's two location slots are fresh slots. `moves` records each move's
  position and slots, where `AddMoveAt` would place it in a `ParallelMove`. The
  location slots of phi moves, environments and materializations are given with
  the blocks and instructions that hold them.
- A block's `instrs` are the instructions the walk visits: a final `Goto` is
  not among them (`ConnectOutgoingPhiMoves` starts the walk before it), and
  `gotoMoves` holds its position and the inputs its parallel move passes to the
  successor's phis. A block entry's lifetime position is its start.
- An environment is the values of its chain, innermost first; the value of the
  synthetic `:suspend_state` variable is marked as such. A materialization is an
  index into the function's table of `MaterializeObject` inputs, and `locations()`
  being set is membership in `materialized`. Each nested call marks a
  materialization not marked before, so one more level than the table has
  entries never runs out.
- The hint of a phi input's use is `assigned_location_slot()` of the phi's
  range; it is given as a slot of the store with the phi input.
- Not modelled: a first input that is a pair under `kSameAsFirstInput`, native
  leaf calls, the interference sets, and the two output policies that ask
  whether an input dies at the instruction (`kSameAsFirstOrSecondInput`,
  `kMayBeSameAsFirstInput`).
- `HasCallOnSlowPath()` is `can_call() && !always_calls()` (from `locations.h`,
  not in the repository).
-/
namespace LinearScan

open AllocState

/-- A value of a deoptimization environment, as `ProcessEnvironmentUses` reads
it, with the location slot the environment gives it (`locations[i]`, or the
slots of a pair's two halves). -/
inductive EnvValue where
  | constant (c : Nat) (slot : Nat)
  | moveArgument (slot : Nat)
  /-- A `MaterializeObject`, by its index in the function's table. -/
  | materialization (m : Nat) (slot : Nat)
  /-- A value: the virtual register and the slot of each half. -/
  | value (halves : List (Nat × Nat))
  /-- The synthetic `:suspend_state` variable: its value's virtual register,
  unless it is a constant, and the variable's frame slot. -/
  | suspendState (vreg : Option Nat) (slot : Nat) (frameSlot : Int)
  deriving DecidableEq, Repr

/-- An input of a `MaterializeObject`, as `ProcessMaterializationUses` reads it. -/
inductive MatInput where
  | constant (c : Nat) (slot : Nat)
  | value (halves : List (Nat × Nat))
  | materialization (m : Nat) (slot : Nat)
  deriving DecidableEq, Repr

/-- An instruction as `ProcessOneInstruction` reads it: its lifetime position,
its inputs, its temp slots, its output, its location summary, the register
class of its result (`RegisterKindForResult`), its environment and the
`MoveArgument`s it passes in registers. An input, output or register argument
is its halves, each a virtual register and a location slot: one half, or two
for a pair. -/
structure RangeInstr where
  pos : Nat
  inputs : List (List (Nat × Nat))
  temps : List Nat
  outs : List (Int × Nat)
  locs : Nat
  resultKind : RegisterKind
  isConstant : Bool
  mayThrow : Bool
  env : List EnvValue
  moveArgs : List (List (Nat × Nat))
  deriving DecidableEq, Repr

/-- One phi's input from the block that ends in the goto, as
`ConnectOutgoingPhiMoves` reads it: a constant, written into the source of each
half's move, or a value, whose halves are each a virtual register, the source
slot of its move and the slot of the phi half's assigned location. -/
inductive OutgoingPhiInput where
  | constant (c : Nat) (srcSlots : List Nat)
  | value (halves : List (Nat × Nat × Nat))
  deriving DecidableEq, Repr

/-- A phi, as `ConnectIncomingPhiMoves` reads it: the virtual register of each
half, for each predecessor the destination slot of each half's move, and the
register class of its result. -/
structure PhiDef where
  vregs : List Nat
  dests : List (List Nat)
  resultKind : RegisterKind
  deriving DecidableEq, Repr

/-- Where a parameter arrives (`param->location()`): one location, or a pair. -/
inductive ParamLocation where
  | single (l : Location)
  | pair (l₀ l₁ : Location)
  deriving DecidableEq, Repr

/-- The location of one half (`AsPairLocation()->At(second ? 1 : 0)`). -/
def ParamLocation.half : ParamLocation → Bool → Location
  | .single l, _ => l
  | .pair l₀ l₁, second => if second then l₁ else l₀

/-- What an initial definition defines. A parameter carries its location,
whether it is the synthetic `:suspend_state` parameter of an OSR entry
(`IsSuspendStateParameter`), and whether it is an exception or stack-trace
parameter of its catch entry (`IsLiveAfterCatchEntry`); a constant carries its
value. -/
inductive InitialValue where
  | parameter (loc : ParamLocation) (isSuspendState liveAfterCatchEntry : Bool)
  | constant (c : Nat)
  deriving DecidableEq, Repr

/-- An initial definition of a block entry: `vreg(0)`, `vreg(1)` for a pair,
what it defines, and the register class of its result. -/
structure InitialDef where
  vreg : Nat
  pairVreg : Option Nat
  value : InitialValue
  resultKind : RegisterKind
  deriving DecidableEq, Repr

/-- What the walk does at a block's entry after its instructions: a join
defines its phis, a catch entry (with its location summary) is a safepoint and
defines its initial definitions, a function or OSR entry defines its initial
definitions. -/
inductive BlockKind where
  | join (phis : List PhiDef)
  | catchEntry (locs : Nat) (defs : List InitialDef)
  | entry (defs : List InitialDef)
  | other
  deriving DecidableEq, Repr

/-- A block as `BuildLiveRanges` reads it. `catchLiveIn` is the live-in set of
the catch block of the try the block is in; `gotoMoves` the position of a final
goto with a parallel move and the phi inputs it passes on; `loopHeader` the
loop a header opens and the values live into it. -/
structure RangeBlock where
  startPos : Nat
  endPos : Nat
  liveOut : List Nat
  instrs : List RangeInstr
  insideLoop : Bool
  catchLiveIn : Option (List Nat)
  kind : BlockKind
  gotoMoves : Option (Nat × List OutgoingPhiInput)
  loopHeader : Option (Nat × List Nat)
  deriving DecidableEq, Repr

/-- What construction reads besides the blocks it walks: the pass context, the
blocked registers of each class, the registers a call blocks
(`kAllCpuRegistersList`, `kAllFpuRegistersList`), the graph entry
(`flow_graph_.graph_entry()`, an `entry` block) and the inputs of each
`MaterializeObject`. -/
structure BuildCtx extends AllocCtx where
  blockedOf : RegisterKind → Nat → Bool
  allRegisters : RegisterKind → List Nat
  graphEntry : RangeBlock
  materializations : List (List MatInput)

/-- The allocator's state during construction. -/
structure BuildState where
  alloc : AllocState
  /-- `cpu_regs_` and `fpu_regs_`: the blocking range of each register. -/
  blocking : RegisterKind → Nat → Option Nat
  /-- `unallocated_cpu_` and `unallocated_fpu_`. -/
  unallocatedOf : RegisterKind → List Nat
  /-- `safepoints_`: position and location summary, in the order added. -/
  safepoints : List (Nat × Nat)
  /-- Moves added by `AddMoveAt`: position, destination slot, source slot. -/
  moves : List (Nat × Nat × Nat)
  nextSlot : Nat
  /-- The materializations whose `locations()` are set. -/
  materialized : List Nat

namespace BuildState

variable (s : BuildState)

/-- Edit range `id`. -/
def updRange (id : Nat) (f : LiveRange → LiveRange) : BuildState :=
  { s with alloc := s.alloc.setRange id (f (s.alloc.ranges id)) }

/-- `*slot = loc`. -/
def setSlot (k : Nat) (loc : Location) : BuildState :=
  { s with alloc := s.alloc.setSlot k loc }

/-- A new range in the heap. -/
def newRange (r : LiveRange) : BuildState × Nat :=
  ({ s with alloc := { s.alloc.setRange s.alloc.fresh r with fresh := s.alloc.fresh + 1 } },
    s.alloc.fresh)

/-- `MakeLiveRangeForTemporary()`. -/
def makeLiveRangeForTemporary : BuildState × Nat :=
  s.newRange (LiveRange.make kTempVirtualRegister .noRepresentation)

/-- `AddMoveAt(pos, to, from)`: a move with two fresh slots; the state and the
destination and source slots. -/
def addMoveAt (pos : Nat) (dst src : Location) : BuildState × Nat × Nat :=
  let d := s.nextSlot
  ({ (s.setSlot d dst).setSlot (d + 1) src with
      moves := s.moves ++ [(pos, d, d + 1)], nextSlot := d + 2 }, d, d + 1)

/-- `live_registers->Add(loc, rep)` on location summary `k`. -/
def addLiveRegister (k : Nat) (loc : Location) (rep : Representation) : BuildState :=
  { s with alloc := s.alloc.setLocs k { s.alloc.locs k with
      liveRegisters := (s.alloc.locs k).liveRegisters ++ [(loc, rep)] } }

@[simp] theorem updRange_ranges (id : Nat) (f : LiveRange → LiveRange) (j : Nat) :
    (s.updRange id f).alloc.ranges j = if j = id then f (s.alloc.ranges id) else s.alloc.ranges j :=
  rfl
@[simp] theorem updRange_slots (id : Nat) (f : LiveRange → LiveRange) :
    (s.updRange id f).alloc.slots = s.alloc.slots := rfl
@[simp] theorem setSlot_ranges (k : Nat) (l : Location) :
    (s.setSlot k l).alloc.ranges = s.alloc.ranges := rfl
@[simp] theorem setSlot_slots (k : Nat) (l : Location) (j : Nat) :
    (s.setSlot k l).alloc.slots j = if j = k then l else s.alloc.slots j := rfl

end BuildState

section Build
variable (b : BuildCtx)

open BuildState

/-- The register class of a machine-register location. -/
def Location.registerKind : Location → RegisterKind
  | .register _ => .register
  | .fpuRegister _ => .fpuRegister
  | _ => .invalid

/-- `RegisterKindFromPolicy`: FPU for `RequiresFpuRegister`, else CPU. -/
def registerKindFromPolicy (l : Location) : RegisterKind :=
  if l = .unallocated .requiresFpuRegister then .fpuRegister else .register

/-- `BlockLocation(loc, from, to)` (`BlockRegisterLocation`): extend the
register's blocking range by `[from, to)`, creating it on first use; blocked
registers and non-register locations are left alone. -/
def blockLocation (s : BuildState) (loc : Location) (fromPos toPos : Nat) : BuildState :=
  let k := loc.registerKind
  let reg := loc.code
  if k = .invalid || b.blockedOf k reg then s
  else
    let (s, id) := match s.blocking k reg with
      | some id => (s, id)
      | none =>
        let (s, id) := s.newRange { LiveRange.make kNoVirtualRegister .noRepresentation with
          assigned := loc }
        ({ s with blocking := fun k' r => if k' = k ∧ r = reg then some id else s.blocking k' r }, id)
    s.updRange id (·.addUseInterval fromPos toPos)

/-- `CompleteRange(range, kind)`: queue the range on its class's worklist
(`AddToSortedListOfRanges`). -/
def completeRange (s : BuildState) (id : Nat) (k : RegisterKind) : BuildState :=
  if k = .invalid then s
  else
    let a := addToUnallocated { s.alloc with unallocated := s.unallocatedOf k } id
    { s with alloc := { a with unallocated := s.alloc.unallocated },
             unallocatedOf := fun k' => if k' = k then a.unallocated else s.unallocatedOf k' }

/-- The walk of `AssignSafepoints` over the safepoints in increasing position
order: skip the safepoints at positions `skip` names (the definition's own
instruction, a catch entry for its exception and stack-trace parameters), stop
at the range's end, record the safepoints the range contains. -/
def assignSafepointsFrom (skip : Nat → Bool) : List (Nat × Nat) → LiveRange → LiveRange
  | [], r => r
  | (pos, locs) :: rest, r =>
    if skip pos then assignSafepointsFrom skip rest r
    else if r.stop ≤ pos then r
    else assignSafepointsFrom skip rest
      (if r.contains pos then
        r.addSafepoint pos locs (b.safepointInfo locs).alwaysCalls (b.safepointInfo locs).calleeSafeCall
      else r)

/-- `AssignSafepoints(defn, range)`: `safepoints_` is walked from its end, which
is increasing position order since construction runs backwards. -/
def assignSafepoints (s : BuildState) (skip : Nat → Bool) (id : Nat) : BuildState :=
  s.updRange id (assignSafepointsFrom b skip s.safepoints.reverse)

/-- The use walk of `CompleteRange(defn, range)`: each use whose slot still
holds `RequiresStack` gets `loc` and is unlinked; the state and the uses kept. -/
def convertStackUses (loc : Location) : BuildState → List UsePosition → BuildState × List UsePosition
  | s, [] => (s, [])
  | s, u :: us =>
    if s.alloc.slots u.slot = .unallocated .requiresStack then
      convertStackUses loc (s.setSlot u.slot loc) us
    else
      let p := convertStackUses loc s us
      (p.1, u :: p.2)

/-- The reservation of `CompleteRange(defn, range)`: a range without a stack
spill slot gets one, marked at its safepoints when tagged. -/
def reserveStackSpillSlot (s : BuildState) (id : Nat) : BuildState :=
  let r := s.alloc.ranges id
  if r.spillSlot.isInvalid || !r.spillSlot.hasStackIndex then
    let a := allocateSpillSlotForRange b.toAllocCtx
      (s.alloc.setRange id { r with spillSlot := .invalid }) id
    { s with alloc := if r.representation = .tagged
      then markAsObjectAtSafepoints b.toAllocCtx a id else a }
  else s

/-- `CompleteRange(defn, range)`, the completion of initial definitions: the
safepoints, then, for a range with uses that require the stack, a stack spill
slot written into each such use, which leaves the use list. -/
def completeRangeDefn (s : BuildState) (skip : Nat → Bool) (id : Nat) : BuildState :=
  let s := assignSafepoints b s skip id
  if !(s.alloc.ranges id).requiresStack then s
  else
    let s := reserveStackSpillSlot b s id
    let r := s.alloc.ranges id
    let p := convertStackUses r.spillSlot s r.uses
    p.1.updRange id fun r => { r with uses := p.2 }

/-- `ProcessOneInput(block, pos, in_ref, input, vreg, live_registers)`. -/
def processOneInput (s : BuildState) (blockStart pos inSlot vreg : Nat) (liveRegs : Option Nat) :
    BuildState :=
  let id := s.alloc.liveRanges vreg
  let inRef := s.alloc.slots inSlot
  if inRef.isMachineRegister then
    let s := match liveRegs with
      | some k => s.addLiveRegister k inRef (s.alloc.ranges id).representation
      | none => s
    let (s, _, src) := s.addMoveAt (pos - 1) inRef (.unallocated .any)
    let s := blockLocation b s inRef (pos - 1) (pos + 1)
    s.updRange id fun r => (r.addUseInterval blockStart (pos - 1)).addHintedUse (pos - 1) src inSlot
  else if inRef = .unallocated .writableRegister then
    let (s, dst, src) := s.addMoveAt pos (.unallocated .requiresRegister) (.unallocated .prefersRegister)
    let s := s.updRange id fun r => ((r.addUseInterval blockStart pos).addUse pos src).1
    let (s, temp) := s.makeLiveRangeForTemporary
    let s := s.updRange temp fun r =>
      (((r.addUseInterval pos (pos + 1)).addHintedUse pos inSlot src).addUse pos dst).1
    completeRange (s.setSlot inSlot (.unallocated .requiresRegister)) temp .register
  else if inRef.isUnallocated then
    let s := if inRef = .unallocated .requiresStack
      then s.updRange id fun r => { r with requiresStack := true } else s
    s.updRange id fun r => ((r.addUseInterval blockStart (pos + 1)).addUse (pos + 1) inSlot).1
  else s

/-- The uses of a fixed output's range that follow it immediately: their slots
get the output register and they leave the use list. -/
def connectFixedOutput (s : BuildState) (id pos : Nat) (out : Location) : BuildState :=
  let direct := (s.alloc.ranges id).uses.takeWhile (·.pos = pos + 1)
  let s := direct.foldl (fun s u => s.setSlot u.slot out) s
  s.updRange id fun r => { r with uses := r.uses.drop direct.length }

/-- `ProcessOneOutput(block, pos, out, def, vreg, output_same_as_first_input,
in_ref, input, input_vreg, interference_set)`. `sameAsFirst` holds the first
input's slot and virtual register when the output shares its register. -/
def processOneOutput (s : BuildState) (blockStart pos outSlot : Nat) (vreg : Int)
    (sameAsFirst : Option (Nat × Nat)) (insideLoop : Bool) (kind : RegisterKind) : BuildState :=
  let (s, id) := if 0 ≤ vreg then (s, s.alloc.liveRanges vreg) else s.makeLiveRangeForTemporary
  let out := s.alloc.slots outSlot
  let finish := fun (s : BuildState) => completeRange (assignSafepoints b s (· == pos) id) id kind
  if out.isMachineRegister then
    let s := blockLocation b s out pos (pos + 1)
    if (s.alloc.ranges id).vreg = kTempVirtualRegister || (s.alloc.ranges id).uses = [] then s
    else
      let s := (connectFixedOutput s id pos out).updRange id (·.defineAt (pos + 1))
      if (s.alloc.ranges id).start = (s.alloc.ranges id).stop then s
      else
        let (s, dst, _) := s.addMoveAt (pos + 1) (.unallocated .any) out
        finish (s.updRange id (·.addHintedUse (pos + 1) dst outSlot))
  else
    match sameAsFirst with
    | some (inSlot, inputVreg) =>
      let s := s.setSlot outSlot (s.alloc.slots inSlot)
      let (s, dst, src) := s.addMoveAt pos (.unallocated .requiresRegister)
        (if insideLoop then .unallocated .prefersRegister else .unallocated .any)
      let s := s.updRange (s.alloc.liveRanges inputVreg) fun r =>
        ((r.addUseInterval blockStart pos).addUse pos src).1
      finish (s.updRange id fun r =>
        ((((r.defineAt pos).addHintedUse pos outSlot src).addUse pos dst).1.addUse pos inSlot).1)
    | none => finish (s.updRange id fun r => ((r.defineAt pos).addUse pos outSlot).1)

/-- One temp of `ProcessOneInstruction`: a fixed register is blocked, an
unallocated temp gets a range `[pos, pos + 1)`. -/
def processTemp (s : BuildState) (pos slot : Nat) : BuildState :=
  let temp := s.alloc.slots slot
  if temp.isMachineRegister then blockLocation b s temp pos (pos + 1)
  else if temp.isUnallocated then
    let (s, id) := s.makeLiveRangeForTemporary
    let s := s.updRange id fun r => ((r.addUseInterval pos (pos + 1)).addUse pos slot).1
    completeRange s id (registerKindFromPolicy temp)
  else s

/-- The use an environment or a materialization records for one half of a
value, whose slot holds `Any`: `AddUseInterval(block_start_pos, use_pos)`, then
`AddUse(use_pos, slot)`. -/
def addEnvUse (s : BuildState) (blockStart usePos : Nat) (p : Nat × Nat) : BuildState :=
  (s.setSlot p.2 (.unallocated .any)).updRange (s.alloc.liveRanges p.1)
    fun r => ((r.addUseInterval blockStart usePos).addUse usePos p.2).1

/-- `ProcessMaterializationUses(block, block_start_pos, use_pos, mat)`: a
materialization not processed before is marked, its constant inputs get their
constant, its values a use, and a nested materialization is processed in turn;
`fuel` bounds the nesting. -/
def processMaterializationUses (blockStart usePos : Nat) : Nat → BuildState → Nat → BuildState
  | 0, s, _ => s
  | fuel + 1, s, m =>
    if m ∈ s.materialized then s
    else (b.materializations.getD m []).foldl (fun s inp =>
      match inp with
      | .constant c slot => s.setSlot slot (.constant c 0)
      | .value halves => halves.foldl (fun s p => addEnvUse s blockStart usePos p) s
      | .materialization m' slot =>
        processMaterializationUses blockStart usePos fuel (s.setSlot slot .invalid) m')
      { s with materialized := m :: s.materialized }

/-- `ProcessEnvironmentUses(block, current)`: every value of the environment
must survive to the instruction's end, anywhere. The `:suspend_state` variable
keeps its frame slot and is only extended; constants and `MoveArgument`s get no
use. -/
def processEnvironmentUses (s : BuildState) (blockStart pos : Nat) (env : List EnvValue) : BuildState :=
  env.foldl (fun s ev =>
    match ev with
    | .suspendState v slot frameSlot =>
      let s := s.setSlot slot (.stackSlot frameSlot .fp)
      match v with
      | some v => s.updRange (s.alloc.liveRanges v) (·.addUseInterval blockStart (pos + 1))
      | none => s
    | .moveArgument slot => s.setSlot slot .invalid
    | .constant c slot => s.setSlot slot (.constant c 0)
    | .materialization m slot =>
      processMaterializationUses b blockStart (pos + 1) (b.materializations.length + 1) (s.setSlot slot .invalid) m
    | .value halves => halves.foldl (fun s p => addEnvUse s blockStart (pos + 1) p) s) s

/-- Every use of a range holds `Any`: `HasOnlyUnconstrainedUses`. -/
def hasOnlyUnconstrainedUses (s : BuildState) (id : Nat) : Bool :=
  (s.alloc.ranges id).uses.all fun u => s.alloc.slots u.slot == .unallocated .any

/-- The constant prologue of `ProcessOneInstruction`: `none` to go on, or the
state after dropping a constant without uses or turning every unconstrained use
into the constant itself. -/
def processConstant (s : BuildState) (ins : RangeInstr) : Option BuildState :=
  match ins.outs with
  | (v, outSlot) :: _ =>
    if !ins.isConstant then none
    else if v = kNoVirtualRegister || (s.alloc.ranges (s.alloc.liveRanges v)).uses = [] then
      some (s.setSlot outSlot .invalid)
    else
      let id := s.alloc.liveRanges v
      if hasOnlyUnconstrainedUses s id then
        let s := s.updRange id fun r =>
          let r := { r with assigned := .constant v.toNat 0, spillSlot := .constant v.toNat 0 }
          { r with finger := Finger.reset r }
        some ({ s with alloc := convertAllUses b.toAllocCtx s.alloc id }.setSlot outSlot .invalid)
      else none
  | [] => none

/-- `ProcessOneInstruction(block, current, interference_set)`. -/
def processOneInstruction (s : BuildState) (blockStart : Nat) (insideLoop : Bool) (ins : RangeInstr) :
    BuildState :=
  match processConstant b s ins with
  | some s => s
  | none =>
    let pos := ins.pos
    let info := b.safepointInfo ins.locs
    let first := ins.inputs.headD []
    let s := match ins.outs, first with
      | [(_, k)], [(_, a)] =>
        if s.alloc.slots k == Location.unallocated .sameAsFirstInput && (s.alloc.slots a).isMachineRegister
        then s.setSlot k (s.alloc.slots a) else s
      | _, _ => s
    let sameAsFirst := match ins.outs, first with
      | [(_, k)], [_] => s.alloc.slots k == Location.unallocated .sameAsFirstInput
      | _, _ => false
    let liveRegs := if info.canCall && !info.alwaysCalls then some ins.locs else none
    let s := processEnvironmentUses b s blockStart pos ins.env
    let s := (if sameAsFirst then ins.inputs.drop 1 else ins.inputs).foldl (fun s halves =>
      halves.foldl (fun s (p : Nat × Nat) => processOneInput b s blockStart pos p.2 p.1 liveRegs) s) s
    let s := ins.moveArgs.foldl (fun s halves =>
      halves.foldl (fun s (p : Nat × Nat) => processOneInput b s blockStart pos p.2 p.1 none) s) s
    let s := ins.temps.foldl (fun s k => processTemp b s pos k) s
    let s := if info.alwaysCalls && !info.calleeSafeCall then
        let s := (b.allRegisters .register).foldl
          (fun s r => blockLocation b s (.register r) pos (pos + 1)) s
        (b.allRegisters .fpuRegister).foldl (fun s r => blockLocation b s (.fpuRegister r) pos (pos + 1)) s
      else s
    let s := if info.canCall then { s with safepoints := s.safepoints ++ [(pos, ins.locs)] } else s
    match ins.outs with
    | [] => s
    | (_, k) :: _ =>
      if s.alloc.slots k = .invalid then s
      else ins.outs.foldl (fun s (p : Int × Nat) => processOneOutput b s blockStart pos p.2 p.1
        (if sameAsFirst then first.head?.map fun (q : Nat × Nat) => (q.2, q.1) else none)
        insideLoop ins.resultKind) s

/-- The instruction walk of `BuildLiveRanges` over one block, backwards: at the
last instruction that may throw inside a try, every value live into the catch
block is extended to it. -/
def processInstrs (s : BuildState) (blk : RangeBlock) : List RangeInstr → Option (List Nat) → BuildState
  | [], _ => s
  | ins :: rest, catchLive =>
    let (s, catchLive) := match catchLive with
      | some vs =>
        if ins.mayThrow then
          (vs.foldl (fun s (v : Nat) => s.updRange (s.alloc.liveRanges v) (·.addUseInterval blk.startPos (ins.pos + 1))) s, none)
        else (s, some vs)
      | none => (s, none)
    processInstrs (processOneInstruction b s blk.startPos blk.insideLoop ins) blk rest catchLive

/-- `ConnectOutgoingPhiMoves(block)`: when the block ends in a goto with a
parallel move, at `gotoPos`, a phi input that is a value gets
`[block start, gotoPos)` and a use at `gotoPos` hinted by the phi's assigned
location, after which its source prefers a register; a constant becomes the
source of its move. -/
def connectOutgoingPhiMoves (s : BuildState) (blk : RangeBlock) : BuildState :=
  match blk.gotoMoves with
  | none => s
  | some (gotoPos, inputs) =>
    inputs.foldl (fun s inp =>
      match inp with
      | .constant c srcSlots => srcSlots.enum.foldl (fun s (p : Nat × Nat) => s.setSlot p.2 (.constant c p.1)) s
      | .value halves => halves.foldl (fun s (h : Nat × Nat × Nat) =>
          (s.updRange (s.alloc.liveRanges h.1) fun r =>
            (r.addUseInterval blk.startPos gotoPos).addHintedUse gotoPos h.2.1 h.2.2).setSlot h.2.1
              (.unallocated .prefersRegister)) s) s

/-- `ConnectIncomingPhiMoves(join)`: each phi is defined at the join's start
(and marked when the join is a loop header); each destination of its moves,
which then prefers a register, is a use there; its range is finished with its
safepoints and queued. -/
def connectIncomingPhiMoves (s : BuildState) (pos : Nat) (isLoopHeader : Bool) (phis : List PhiDef) :
    BuildState :=
  phis.foldl (fun s phi =>
    let s := phi.vregs.foldl (fun s (v : Nat) => s.updRange (s.alloc.liveRanges v) fun r =>
      if isLoopHeader then { r.defineAt pos with isLoopPhi := true } else r.defineAt pos) s
    let s := phi.dests.foldl (fun s ds => (phi.vregs.zip ds).foldl (fun s (p : Nat × Nat) =>
      (s.setSlot p.2 (.unallocated .prefersRegister)).updRange (s.alloc.liveRanges p.1)
        fun r => (r.addUse pos p.2).1) s) s
    phi.vregs.foldl (fun s (v : Nat) =>
      completeRange (assignSafepoints b s (fun _ => false) (s.alloc.liveRanges v)) (s.alloc.liveRanges v)
        phi.resultKind) s) s

/-- The loop-header step of `BuildLiveRanges`: at a loop header, each value
live into it whose uses before the loop's end are all `Any`
(`HasOnlyUnconstrainedUsesInLoop`) is marked for the loop. -/
def markLoopHeader (s : BuildState) (blk : RangeBlock) : BuildState :=
  match blk.loopHeader with
  | none => s
  | some (loopId, liveIn) =>
    liveIn.foldl (fun s (v : Nat) =>
      let id := s.alloc.liveRanges v
      if ((s.alloc.ranges id).uses.takeWhile (·.pos < (b.loops loopId).stop)).all
          fun u => s.alloc.slots u.slot == .unallocated .any
      then s.updRange id (·.markHasOnlyUnconstrainedUsesInLoop loopId) else s) s

/-- `SplitInitialDefinitionAt(range, pos, kind)`: the part from `pos` on is
queued. -/
def splitInitialDefinitionAt (s : BuildState) (id pos : Nat) (kind : RegisterKind) : BuildState :=
  if pos < (s.alloc.ranges id).stop then
    let p := splitAt s.alloc id pos
    completeRange { s with alloc := p.1 } p.2 kind
  else s

/-- The spill slot of an incoming parameter passed in the frame, above the
spill area: an `FPREG` stack slot at or above `first_local_from_fp`. -/
def Location.isIncomingFrameSlot (layout : FrameLayout) : Location → Bool
  | .stackSlot i .fp => decide (i ≤ layout.firstLocalFromFp)
  | _ => false

/-- The tail of `ProcessInitialDefinition` for a range whose location is its
spill slot: it is completed, split before its first register-beneficial use
with the rest queued as `kind`, and its uses converted; a parameter in the
frame above the spill area (`inFrame`, neither a constant nor the
`:suspend_state` parameter) reserves its slot until `rangeEnd` and is marked at
the safepoints. -/
def completeInitialDefinitionInStack (s : BuildState) (kind : RegisterKind) (id pos rangeEnd : Nat)
    (skip : Nat → Bool) (inFrame : Bool) : BuildState :=
  let s := completeRangeDefn b s skip id
  let s := s.updRange id fun r => { r with finger := Finger.reset r }
  let r := s.alloc.ranges id
  let q := r.finger.firstRegisterBeneficialUse r.uses s.alloc.slots pos
  let s := s.updRange id fun r => { r with finger := q.1 }
  let s := match q.2 with
    | some (_, u) =>
      let p := splitBetween b.toAllocCtx s.alloc id pos u.pos
      completeRange { s with alloc := p.1 } p.2 kind
    | none => s
  let s := { s with alloc := convertAllUses b.toAllocCtx s.alloc id }
  let spillSlot := (s.alloc.ranges id).spillSlot
  if spillSlot.isIncomingFrameSlot b.layout && inFrame then
    let t := allocateSpillSlotForInitialDefinition s.alloc.spillTable (stackIndexOf b.layout spillSlot) rangeEnd
    { s with alloc := markAsObjectAtSafepoints b.toAllocCtx { s.alloc with spillTable := t } id }
  else s

/-- `ProcessInitialDefinition(defn, range, block, ...)` at the entry's position
`pos`, for the half `second` names. A parameter in a register is completed,
the part after the entry queued, its uses converted and its register blocked
at the entry. Otherwise the range's location is its spill slot, and the range
is finished there (`completeInitialDefinitionInStack`). -/
def processInitialDefinition (s : BuildState) (d : InitialDef) (id pos : Nat) (second : Bool) : BuildState :=
  let rangeEnd := (s.alloc.ranges id).stop
  let (isParam, liveAfter, isSuspendState) := match d.value with
    | .parameter _ suspend live => (true, live, suspend)
    | .constant _ => (false, false, false)
  let skip := fun p => liveAfter && p == pos
  match d.value with
  | .parameter loc _ _ =>
    let location := loc.half second
    let s := s.updRange id fun r => { r with assigned := location }
    if location.isMachineRegister then
      let s := completeRangeDefn b s skip id
      let s := if pos + 1 < (s.alloc.ranges id).stop
        then splitInitialDefinitionAt s id (pos + 1) location.registerKind else s
      let s := { s with alloc := convertAllUses b.toAllocCtx s.alloc id }
      blockLocation b s location pos (pos + 1)
    else
      completeInitialDefinitionInStack b (s.updRange id fun r => { r with spillSlot := location }) d.resultKind id
        pos rangeEnd skip (isParam && !isSuspendState)
  | .constant c =>
    let l := Location.constant c (if second then 1 else 0)
    completeInitialDefinitionInStack b (s.updRange id fun r => { r with assigned := l, spillSlot := l })
      d.resultKind id pos rangeEnd skip (isParam && !isSuspendState)

/-- The initial definitions of a function, OSR or graph entry `[pos, endPos)`:
each half's range covers the entry, is defined at its start and processed, the
second half of a pair first. -/
def processEntryDefs (s : BuildState) (pos endPos : Nat) (defs : List InitialDef) : BuildState :=
  defs.foldl (fun s d =>
    let half := fun (s : BuildState) (v : Nat) (second : Bool) =>
      let id := s.alloc.liveRanges v
      processInitialDefinition b (s.updRange id fun r => (r.addUseInterval pos endPos).defineAt pos) d id pos
        second
    let s := match d.pairVreg with
      | some v => half s v true
      | none => s
    half s d.vreg false) s

/-- The initial definitions of a catch entry at `pos`: each is defined at the
entry and processed. -/
def processCatchDefs (s : BuildState) (pos : Nat) (defs : List InitialDef) : BuildState :=
  defs.foldl (fun s d =>
    let id := s.alloc.liveRanges d.vreg
    processInitialDefinition b (s.updRange id (·.defineAt pos)) d id pos false) s

/-- The step of `BuildLiveRanges` at a block's entry: a join's phis, a catch
entry's safepoint and initial definitions, a function or OSR entry's initial
definitions. -/
def processBlockEntry (s : BuildState) (blk : RangeBlock) : BuildState :=
  match blk.kind with
  | .join phis => connectIncomingPhiMoves b s blk.startPos blk.loopHeader.isSome phis
  | .catchEntry k defs =>
    processCatchDefs b { s with safepoints := s.safepoints ++ [(blk.startPos, k)] } blk.startPos defs
  | .entry defs => processEntryDefs b s blk.startPos (blk.startPos + 2) defs
  | .other => s

/-- One block of `BuildLiveRanges`: live-out values cover the block, the phi
inputs passed on at the goto are recorded, the instructions are processed
backwards, a loop header marks its values, and the block's entry is handled. -/
def processBlock (s : BuildState) (blk : RangeBlock) : BuildState :=
  let s := blk.liveOut.foldl (fun s (v : Nat) =>
    s.updRange (s.alloc.liveRanges v) (·.addUseInterval blk.startPos blk.endPos)) s
  let s := connectOutgoingPhiMoves s blk
  let s := processInstrs b s blk blk.instrs.reverse blk.catchLiveIn
  let s := markLoopHeader b s blk
  processBlockEntry b s blk

/-- `BuildLiveRanges`: the blocks after the graph entry, in block order, walked
backwards, then the graph entry's initial definitions, once every safepoint is
recorded. -/
def buildLiveRanges (s : BuildState) (blocks : List RangeBlock) : BuildState :=
  let s := blocks.reverse.foldl (processBlock b) s
  match b.graphEntry.kind with
  | .entry defs => processEntryDefs b s b.graphEntry.startPos b.graphEntry.endPos defs
  | _ => s

/-! ## What `CompleteRange` leaves alone -/

/-- `AssignSafepoints` edits the safepoint list only. -/
theorem assignSafepointsFrom_eq (skip : Nat → Bool) (l : List (Nat × Nat)) (r : LiveRange) :
    ∃ sps, assignSafepointsFrom b skip l r = { r with safepoints := sps } := by
  induction l generalizing r with
  | nil => exact ⟨r.safepoints, rfl⟩
  | cons p l ih =>
    simp only [assignSafepointsFrom]
    split_ifs
    · exact ih r
    · exact ⟨r.safepoints, rfl⟩
    · obtain ⟨sps, h⟩ := ih (r.addSafepoint p.1 p.2 _ _)
      refine ⟨sps, h.trans ?_⟩
      simp only [LiveRange.addSafepoint]
      split_ifs <;> rfl
    · exact ih r

theorem convertStackUses_ranges (loc : Location) :
    ∀ (s : BuildState) (us : List UsePosition), (convertStackUses loc s us).1.alloc.ranges = s.alloc.ranges
  | _, [] => rfl
  | s, u :: us => by
    simp only [convertStackUses]
    split_ifs
    · exact convertStackUses_ranges loc _ us
    · exact convertStackUses_ranges loc s us

end Build

/-- `PrepareForAllocation(kind, ...)`: the class's worklist, and its blocking
ranges, with their fingers initialized, as the registers' first occupants. -/
def prepareForAllocation (s : BuildState) (k : RegisterKind) (n : Nat) : AllocState :=
  let a := s.alloc
  let blockingOf := fun reg => if reg < n then s.blocking k reg else none
  { a with
    ranges := fun j =>
      if (List.range n).any (fun reg => blockingOf reg == some j)
      then { a.ranges j with finger := Finger.reset (a.ranges j) } else a.ranges j,
    unallocated := s.unallocatedOf k,
    registers := fun reg => (blockingOf reg).toList }

end LinearScan

namespace LinearScan

/-- The state construction starts from: virtual register `v` is range `v`,
created with its representation; the location slots hold the instructions'
summaries; nothing is blocked, queued, spilled or recorded. -/
def BuildState.initial (reps : List Representation) (slots : List Location) : BuildState where
  alloc :=
    { ranges := fun j => LiveRange.make j (reps.getD j .noRepresentation)
      fresh := reps.length
      slots := fun k => slots.getD k .invalid
      liveRanges := fun v => v.toNat
      unallocated := []
      registers := fun _ => []
      spillTable := SpillTable.empty
      spilled := []
      locs := fun _ => ⟨[], []⟩ }
  blocking := fun _ _ => none
  unallocatedOf := fun _ => []
  safepoints := []
  moves := []
  nextSlot := slots.length
  materialized := []

/-- The context of the allocation pass over register class `k` with `n`
registers. -/
def BuildCtx.passCtx (b : BuildCtx) (k : RegisterKind) (n : Nat) : AllocCtx :=
  { b.toAllocCtx with registerKind := k, numberOfRegisters := n, blocked := b.blockedOf k }

/-- `AllocateRegisters` from `BuildLiveRanges` through the FPU pass: the CPU
pass, then the FPU pass on a cleared spill table, whose CPU slots are
`cpu_spill_slot_count_`. -/
def allocateRegisters (b : BuildCtx) (nCpu nFpu fuel : Nat) (s : BuildState) (blocks : List RangeBlock) :
    Option AllocState := do
  let s := buildLiveRanges b s blocks
  let a ← allocateUnallocatedRanges (b.passCtx .register nCpu) fuel (prepareForAllocation s .register nCpu)
  let cpuSlots := max a.spillTable.spillSlots.length b.fixedSlotCount
  let s := { s with alloc := { a with spillTable := SpillTable.empty } }
  allocateUnallocatedRanges { b.passCtx .fpuRegister nFpu with cpuSpillSlotCount := cpuSlots } fuel
    (prepareForAllocation s .fpuRegister nFpu)

/-! ## Two runs through construction and allocation -/

/-- Two CPU registers, no FPU registers, one block from position 2, no loops
and no catch entries. Location summary 1 is a call; the others neither call nor
have a slow path. The first local slot is two words below the frame pointer. -/
def twoRegisterCtx : BuildCtx :=
  { numberOfRegisters := 2, bias := 0, registerKind := .invalid, blocked := fun _ => false,
    intrinsicMode := false, fixedSlotCount := 0, cpuSpillSlotCount := 0, layout := ⟨-2, 1⟩,
    isBlockEntry := fun p => p == 2, blockStart := fun _ => 2, loopAt := fun _ => none,
    loops := fun _ => ⟨0, none, 0, 0, fun _ => false, []⟩, numLoops := 0,
    reachingDefs := fun _ _ => false,
    safepointInfo := fun k => if k = 1 then ⟨true, true, false⟩ else ⟨false, false, false⟩,
    catchEntries := [], exceptionLoc := .invalid, stackTraceLoc := .invalid,
    blockedOf := fun _ _ => false, allRegisters := fun k => if k = .register then [0, 1] else [],
    graphEntry := ⟨0, 2, [], [], false, none, .entry [], none, none⟩, materializations := [] }

/-- `v0 <- op()` at 4 with a `RequiresRegister` output (slot 1), then
`use(v0)` at 6, an instruction that does not call, whose input requires the
stack (slot 0). -/
def stackInputBlock : RangeBlock :=
  ⟨2, 8, [], [⟨4, [], [], [(0, 1)], 0, .register, false, false, [], []⟩,
    ⟨6, [[(0, 0)]], [], [], 2, .register, false, false, [], []⟩], false, none, .other, none, none⟩

theorem allocateRegisters_stack_input_in_register :
    (allocateRegisters twoRegisterCtx 2 0 10
        (BuildState.initial [.tagged] [.unallocated .requiresStack, .unallocated .requiresRegister])
        [stackInputBlock]).map (fun s => (s.slots 0, (s.ranges 0).spillSlot)) =
      some (.register 0, .invalid) := by
  decide

/-- `(v0, v1) <- op()` at 4 with a pair of `RequiresRegister` outputs (slots 0
and 1), a call at 6, then `use((v0, v1))` at 8 with a pair of `RequiresRegister`
inputs (slots 2 and 3). -/
def pairAcrossCallBlock : RangeBlock :=
  ⟨2, 10, [], [⟨4, [], [], [(0, 0), (1, 1)], 0, .register, false, false, [], []⟩,
    ⟨6, [], [], [], 1, .register, false, false, [], []⟩,
    ⟨8, [[(0, 2), (1, 3)]], [], [], 2, .register, false, false, [], []⟩], false, none, .other, none, none⟩

/-- The pair block with both halves of representation `rep`: the vreg, cover
and location of range 5 (the sibling of `v0` across the call), the spill slot
of `v0`, and the stack bitmap of the call. -/
def pairAcrossCallRun (rep : Representation) :
    Option (Int × List UseInterval × Location × Location × List Nat) :=
  (allocateRegisters twoRegisterCtx 2 0 20
      (BuildState.initial [rep, rep] (List.replicate 4 (.unallocated .requiresRegister)))
      [pairAcrossCallBlock]).map fun s =>
    ((s.ranges 5).vreg, (s.ranges 5).intervals, (s.ranges 5).assigned, (s.ranges 0).spillSlot,
      (s.locs 1).stackBits)

theorem allocateRegisters_pair_spill_unmarked :
    pairAcrossCallRun .pairOfTagged = some (0, [⟨6, 7⟩], .stackSlot (-2) .fp, .stackSlot (-2) .fp, []) ∧
      pairAcrossCallRun .tagged = some (0, [⟨6, 7⟩], .stackSlot (-2) .fp, .stackSlot (-2) .fp, [0, 1]) :=
  ⟨by decide, by decide⟩

end LinearScan
