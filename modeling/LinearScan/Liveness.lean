import LinearScan.Location

/-!
# Initial liveness sets and the reads of live-range construction

Two walks over the same flow graph have to agree. `SSALivenessAnalysis::
ComputeInitialSets` (linearscan.cc 171–307) visits the blocks in postorder and
each block's instructions backwards, removing a value from the block's
`live_in` set at its definition and adding it at every use; a phi's input is
added to the `live_in` of the predecessor it flows from unless that predecessor
defines it. `BuildLiveRanges` later opens a use interval at the block start for
every value it sees read (`ProcessOneInput`, `ProcessEnvironmentUses`,
`ProcessMaterializationUses`, `ConnectOutgoingPhiMoves`). A value read in a
block without a definition earlier in that block has to be live-in there, or
its range gets no interval across the block's predecessors.

`DeepLiveness` (lines 151–169) walks the inputs of a `MaterializeObject` found
in an environment and adds `defn->vreg(0)` only, while
`ProcessMaterializationUses` opens ranges for both halves of a pair-represented
input. `pairMaterialization_vreg1_not_liveIn` is a two-block graph where the
second half of such an input is read in a block but missing from its `live_in`.

Mirroring notes vs the C++ source:
- A `BitVector` is a `Nat → Bool` map, one per block index; `kill_[i]` and
  `live_in_[i]` are indexed by block, and the visiting order (`postorder_`) is
  an explicit list of block indices.
- `was_visited_for_liveness` is a per-materialization flag that persists across
  blocks; it is a `Nat → Bool` in the walk's state, as is the
  `mat->locations() != nullptr` test of `ProcessMaterializationUses`.
- `DeepLiveness` recurses through nested materializations, bounded by the
  visited flags; the model bounds it by a fuel argument (`matFuel`, the number
  of materializations plus one), which the flags never let it exhaust.
- `BindsToConstant()` and `AsConstant()` on a materialization input are both
  the `constant` definition kind.
-/

namespace LinearScan

/-- The kind of definition a value is bound to, as far as the two walks tell
definitions apart. -/
inductive DefKind
  | constant
  | moveArgument
  | materialize (mat : Nat)
  | phi
  | parameter
  | other
  deriving DecidableEq, Repr

/-- A definition: its virtual registers `vreg(0)` and, for a pair
representation, `vreg(1)`. -/
structure Definition where
  vreg : Nat
  vreg1 : Nat
  pair : Bool
  kind : DefKind
  deriving DecidableEq, Repr

namespace Definition

/-- The virtual registers a use of the definition reads: `vreg(0)`, and
`vreg(1)` for a pair. -/
def vregs (d : Definition) : List Nat := if d.pair then [d.vreg, d.vreg1] else [d.vreg]

end Definition

/-- An instruction input: whether its location is a constant (`locs->in(j)
.IsConstant()`) and the definition it is bound to. -/
structure Input where
  constantLoc : Bool
  defn : Definition
  deriving DecidableEq, Repr

/-- What the two walks read of an instruction: its SSA definition, inputs,
detached `MoveArgument`s (`is_register_move()` and the value's definition) and
deoptimization environment, innermost frame first. -/
structure Instr where
  defn : Option Definition
  inputs : List Input
  moveArgs : List (Bool × Definition)
  env : List (List Definition)
  deriving Repr

/-- A phi: its definition and one input per predecessor. -/
structure Phi where
  defn : Definition
  inputs : List Definition
  deriving Repr

/-- A block: instructions in order, phis (for a join), initial definitions
(for a function, OSR or catch entry) and predecessor block indices. -/
structure Block where
  instrs : List Instr
  isJoin : Bool
  phis : List Phi
  initialDefs : List Definition
  preds : List Nat
  deriving Repr

/-- A flow graph: blocks by index, the inputs of each materialization, and the
environment index of `:suspend_state` when the function has one. -/
structure Graph where
  blocks : List Block
  matInputs : Nat → List Definition
  suspendStateEnvIndex : Option Nat

/-- A block that does not exist reads nothing. -/
def Block.empty : Block := ⟨[], false, [], [], []⟩

/-- The block at index `b`. -/
def Graph.block (g : Graph) (b : Nat) : Block := g.blocks.getD b .empty

/-! ## `ComputeInitialSets` -/

/-- The liveness walk's state: `kill_`, `live_in_` and the materializations
already visited. -/
structure LivenessState where
  kill : Nat → Nat → Bool
  liveIn : Nat → Nat → Bool
  visited : Nat → Bool

/-- `BitVector::Add` on the set of block `b`. -/
def addBit (s : Nat → Nat → Bool) (b v : Nat) : Nat → Nat → Bool :=
  fun b' v' => (b' == b && v' == v) || s b' v'

/-- `BitVector::Remove` on the set of block `b`. -/
def removeBit (s : Nat → Nat → Bool) (b v : Nat) : Nat → Nat → Bool :=
  fun b' v' => !(b' == b && v' == v) && s b' v'

namespace LivenessState

/-- The empty sets `LivenessAnalysis` starts from. -/
def init : LivenessState := ⟨fun _ _ => false, fun _ _ => false, fun _ => false⟩

/-- `live_in->Add(v)` for block `b`. -/
def use (st : LivenessState) (b v : Nat) : LivenessState := { st with liveIn := addBit st.liveIn b v }

/-- `kill->Add(v); live_in->Remove(v)` for block `b`. -/
def define (st : LivenessState) (b v : Nat) : LivenessState :=
  { st with kill := addBit st.kill b v, liveIn := removeBit st.liveIn b v }

end LivenessState

/-- `DeepLiveness`: add the inputs of materialization `mat` to the live-in set
of block `b`, recursing into nested materializations; `vreg(0)` only. -/
def deepLiveness (g : Graph) (b : Nat) : Nat → Nat → LivenessState → LivenessState
  | 0, _, st => st
  | fuel + 1, mat, st =>
    if st.visited mat then st
    else
      (g.matInputs mat).foldl
        (fun st d =>
          match d.kind with
          | .constant => st
          | .materialize inner => deepLiveness g b fuel inner st
          | _ => st.use b d.vreg)
        { st with visited := fun m => m == mat || st.visited m }

/-- The backward step over one instruction of block `b`: its definition, then
its non-constant inputs, register `MoveArgument`s and environment values. -/
def livenessInstr (g : Graph) (matFuel b : Nat) (st : LivenessState) (ins : Instr) :
    LivenessState :=
  let st := match ins.defn with
    | some d => d.vregs.foldl (fun st v => st.define b v) st
    | none => st
  let st := ins.inputs.foldl
    (fun st i => if i.constantLoc then st else i.defn.vregs.foldl (fun st v => st.use b v) st) st
  let st := ins.moveArgs.foldl
    (fun st m => if m.1 then m.2.vregs.foldl (fun st v => st.use b v) st else st) st
  ins.env.flatten.foldl
    (fun st d =>
      match d.kind with
      | .materialize mat => deepLiveness g b matFuel mat st
      | .moveArgument | .constant => st
      | _ => d.vregs.foldl (fun st v => st.use b v) st) st

/-- A phi's contribution: define it in its join `b`, and make each non-constant
input live-in to the predecessor it flows from unless that predecessor kills it. -/
def livenessPhi (b : Nat) (preds : List Nat) (st : LivenessState) (phi : Phi) : LivenessState :=
  let st := phi.defn.vregs.foldl (fun st v => st.define b v) st
  (phi.inputs.zip preds).foldl
    (fun st ip =>
      if ip.1.kind == .constant then st
      else
        (if phi.defn.pair then [ip.1.vreg, ip.1.vreg1] else [ip.1.vreg]).foldl
          (fun st v => if st.kill ip.2 v then st else st.use ip.2 v) st) st

/-- One block of `ComputeInitialSets`: instructions backwards, then the phis of
a join or the initial definitions of an entry. -/
def livenessBlock (g : Graph) (matFuel : Nat) (st : LivenessState) (b : Nat) : LivenessState :=
  let blk := g.block b
  let st := blk.instrs.reverse.foldl (livenessInstr g matFuel b) st
  if blk.isJoin then blk.phis.foldl (livenessPhi b blk.preds) st
  else blk.initialDefs.foldl (fun st d => d.vregs.foldl (fun st v => st.define b v) st) st

/-- `ComputeInitialSets` over the blocks in the order `order` (`postorder_`). -/
def computeInitialSets (g : Graph) (matFuel : Nat) (order : List Nat) : LivenessState :=
  order.foldl (livenessBlock g matFuel) .init

/-! ## The reads `BuildLiveRanges` records -/

/-- `ProcessMaterializationUses`: the virtual registers a materialization's
inputs are read through, both halves of a pair, nested materializations
included; a materialization already processed (`processed`) contributes none. -/
def materializationReads (g : Graph) : Nat → Nat → (Nat → Bool) → List Nat × (Nat → Bool)
  | 0, _, done => ([], done)
  | fuel + 1, mat, done =>
    if done mat then ([], done)
    else
      (g.matInputs mat).foldl
        (fun acc d =>
          match d.kind with
          | .constant => acc
          | .materialize inner =>
            let r := materializationReads g fuel inner acc.2
            (acc.1 ++ r.1, r.2)
          | _ => (acc.1 ++ d.vregs, acc.2))
        ([], fun m => m == mat || done m)

/-- `ProcessEnvironmentUses`: the reads of one frame's values; `outermost` tells
the frame where the `:suspend_state` slot lives. -/
def envFrameReads (g : Graph) (matFuel : Nat) (outermost : Bool) (frame : List Definition)
    (done : Nat → Bool) : List Nat × (Nat → Bool) :=
  (frame.enum).foldl
    (fun acc di =>
      let d := di.2
      if outermost && g.suspendStateEnvIndex == some di.1 then
        if d.kind == .constant then acc else (acc.1 ++ [d.vreg], acc.2)
      else
        match d.kind with
        | .moveArgument | .constant => acc
        | .materialize mat =>
          let r := materializationReads g matFuel mat acc.2
          (acc.1 ++ r.1, r.2)
        | _ => (acc.1 ++ d.vregs, acc.2))
    ([], done)

/-- Every virtual register one instruction's processing reads: environment,
non-constant inputs (the first input of a same-as-first-input output is read by
`ProcessOneOutput`, with the same registers) and register `MoveArgument`s. -/
def instrReads (g : Graph) (matFuel : Nat) (ins : Instr) (done : Nat → Bool) :
    List Nat × (Nat → Bool) :=
  let envR : List Nat × (Nat → Bool) := (ins.env.enum).foldl
    (fun acc fi =>
      let r := envFrameReads g matFuel (fi.1 + 1 == ins.env.length) fi.2 acc.2
      (acc.1 ++ r.1, r.2))
    ([], done)
  let inR := ins.inputs.foldl (fun acc i => if i.constantLoc then acc else acc ++ i.defn.vregs) []
  let mvR := ins.moveArgs.foldl (fun acc m => if m.1 then acc ++ m.2.vregs else acc) []
  (envR.1 ++ inR ++ mvR, envR.2)

/-- `ConnectOutgoingPhiMoves`: the non-constant phi inputs block `b` passes to
the join it jumps to, both halves of a pair phi. -/
def phiOutgoingReads (g : Graph) (b : Nat) (succ : Nat) : List Nat :=
  let join := g.block succ
  match join.preds.findIdx? (· == b) with
  | none => []
  | some k =>
    join.phis.foldl
      (fun (acc : List Nat) (phi : Phi) =>
        match phi.inputs.get? k with
        | none => acc
        | some d =>
          if d.kind == .constant then acc
          else acc ++ (if phi.defn.pair then [d.vreg, d.vreg1] else [d.vreg]))
      []

/-- The virtual registers block `b` defines before instruction `i`: its phis,
its initial definitions and the definitions of its first `i` instructions. -/
def definedBefore (g : Graph) (b i : Nat) : List Nat :=
  let blk := g.block b
  (blk.phis.map (·.defn)).flatMap Definition.vregs ++ blk.initialDefs.flatMap Definition.vregs ++
    (blk.instrs.take i).flatMap (fun ins => match ins.defn with | some d => d.vregs | none => [])

/-- The reads of block `b` at instruction `i` that no earlier definition in the
block covers, processing the instructions after it first (`done` holds the
materializations those processed). -/
def exposedReadsAt (g : Graph) (matFuel b i : Nat) (done : Nat → Bool) : List Nat :=
  match (g.block b).instrs.get? i with
  | none => []
  | some ins => ((instrReads g matFuel ins done).1).filter (fun v => v ∉ definedBefore g b i)

/-- The materializations `BuildLiveRanges` has processed once it has walked the
instructions of block `b` from the last down to index `i` (exclusive), starting
from `done`. -/
def doneAfter (g : Graph) (matFuel b : Nat) (done : Nat → Bool) (i : Nat) : Nat → Bool :=
  (((g.block b).instrs.drop (i + 1)).reverse).foldl (fun d ins => (instrReads g matFuel ins d).2) done

/-! ## A pair-represented materialization input -/

/-- Block 0 defines a pair value (virtual registers 1 and 2) and jumps to
block 1, whose only instruction has materialization 0 in its environment; the
materialization's one input is the pair. -/
def pairMatGraph : Graph where
  blocks :=
    [⟨[⟨some ⟨1, 2, true, .other⟩, [], [], []⟩], false, [], [], []⟩,
     ⟨[⟨none, [], [], [[⟨0, 0, false, .materialize 0⟩]]⟩], false, [], [], [0]⟩]
  matInputs := fun m => if m == 0 then [⟨1, 2, true, .other⟩] else []
  suspendStateEnvIndex := none

/-- `BuildLiveRanges` reads virtual register `2` in block 1 with no definition
before it there, but `ComputeInitialSets` (postorder `[1, 0]`) leaves it out of
block 1's `live_in`: `DeepLiveness` adds `vreg(0)` of the pair only. -/
theorem pairMaterialization_vreg1_not_liveIn :
    2 ∈ exposedReadsAt pairMatGraph 2 1 0 (fun _ => false) ∧
      (computeInitialSets pairMatGraph 2 [1, 0]).liveIn 1 2 = false ∧
      (computeInitialSets pairMatGraph 2 [1, 0]).liveIn 1 1 = true := by
  decide

end LinearScan
