import LinearScan.Location

/-!
# Control-flow resolution across block edges

After allocation a value can sit in different locations on the two sides of a
block edge. `ResolveControlFlow` (linearscan.cc 3163–3336) walks every block
`S` and every value live into it, compares the location of the sibling covering
`S`'s start with the location covering each predecessor's last position, and
emits moves:

* when every predecessor agrees on the source, one *pending* move
  `dst ← src` that it would like to sink into `S`'s own parallel move;
* otherwise a move per edge, into the predecessor's goto parallel move
  (`EmitMoveOnEdge`), or into `S`'s parallel move when the predecessor does not
  end in a goto.

A pending move may be sunk only if no move executed on an incoming edge
overwrites its source. The blocked ones are found by a scan of the
predecessors' goto moves and a propagation over the pending moves themselves,
and go onto every edge.

The payoff is `resolveControlFlow_edge_dataflow`: along any edge `P → S` of a
graph without critical edges, executing `P`'s goto parallel move and then `S`'s
entry parallel move, each as a simultaneous assignment, takes a machine state
where every live-in value sits in its location at `P`'s exit and every phi input
in its location at the goto, to one where every live-in value sits in its
location at `S`'s start (unless that is its spill slot, which the eager spill
store keeps) and every phi in its destination.

Mirroring notes vs the C++ source:
- Allocation results enter as data: for each virtual register the chain of
  split siblings with `[Start(), End())` and assigned location (`Sibling`), and
  the parent's spill slot. `FindCover` is `List.find?` over the chain, and its
  `UNREACHABLE` is `none`, as is the `UNREACHABLE` of the pending-move scan at a
  predecessor that ends in neither a goto nor a try entry.
- The linear part of `ResolveControlFlow` and the eager spill stores add
  `ParallelMoveInstr`s inside blocks through `AddMoveAt`; they never touch the
  goto and block-entry parallel moves modelled here.
- `MoveOperands::IsRedundant` and the simultaneous semantics of a parallel move
  belong to `il.h` and the move resolver, outside the repository: a move is
  redundant when its source is invalid (eliminated), its destination is invalid,
  or its source equals its destination, and a parallel move reads every source
  before it writes any destination (spec §6, "Parallel move").
- The `BitVector` of live-in values is the list of their numbers in increasing
  order; `can_emit` is a list of booleans, one per pending move.
-/

namespace LinearScan

/-- A move `dest ← src` of a parallel move (`MoveOperands`). -/
structure Move where
  dest : Location
  src : Location
  deriving DecidableEq, Repr

/-- `MoveOperands::IsRedundant`. -/
def Move.isRedundant (m : Move) : Bool :=
  m.src == .invalid || m.dest == .invalid || m.src == m.dest

/-- One split sibling as resolution reads it: `[Start(), End())` and the
assigned location. -/
structure Sibling where
  start : Nat
  stop : Nat
  loc : Location
  deriving DecidableEq, Repr

/-- `FindCover`: the first sibling of the chain whose `[Start(), End())`
contains `pos`. -/
def findCover (chain : List Sibling) (pos : Nat) : Option Sibling :=
  chain.find? (fun r => r.start ≤ pos && pos < r.stop)

/-- The location of a value at `pos`: the assigned location of its cover. -/
def locAt (chain : List Sibling) (pos : Nat) : Option Location :=
  (findCover chain pos).map (·.loc)

/-- How a block ends: a goto, a try entry (its successors are the try body and
the catch block), or any other block end with its successors. -/
inductive Exit
  | goto (succ : Nat)
  | tryEntry (body catchTarget : Nat)
  | other (succs : List Nat)
  deriving DecidableEq, Repr

/-- The successors a block end names. -/
def Exit.succs : Exit → List Nat
  | goto s => [s]
  | tryEntry b c => [b, c]
  | other ss => ss

/-- `last_instruction()->IsGoto()`. -/
def Exit.isGoto : Exit → Bool
  | goto _ => true
  | _ => false

/-- What resolution reads of a block: its lifetime positions, whether it is a
catch entry, its live-in values, predecessors and how it ends. -/
structure RBlock where
  startPos : Nat
  endPos : Nat
  isCatch : Bool
  liveIn : List Nat
  preds : List Nat
  exit : Exit

/-- The input of `ResolveControlFlow`: blocks, the linear block order, each
value's sibling chain and spill slot, and the fixed locations of the
exception and stack-trace parameters. -/
structure ResolveInput where
  blocks : Nat → RBlock
  order : List Nat
  chain : Nat → List Sibling
  spillSlot : Nat → Location
  exceptionLoc : Location
  stackTraceLoc : Location

/-- The parallel moves resolution fills: each block's goto (or try-entry)
parallel move, and each block's entry parallel move. -/
structure Moves where
  exit : Nat → List Move
  entry : Nat → List Move

/-- `FindCover(range, block->start_pos())->assigned_location()`: where live-in
value `v` sits on entry to block `S`. -/
def dstLoc (inp : ResolveInput) (S v : Nat) : Option Location :=
  locAt (inp.chain v) (inp.blocks S).startPos

/-- `FindCover(range, pred->end_pos() - 1)->assigned_location()`: where value `v`
sits at the last position of block `Q`. -/
def srcLoc (inp : ResolveInput) (v Q : Nat) : Option Location :=
  locAt (inp.chain v) ((inp.blocks Q).endPos - 1)

namespace Moves

/-- `AddMove` on block `b`'s goto parallel move. -/
def addExit (mv : Moves) (b : Nat) (m : Move) : Moves :=
  { mv with exit := fun b' => if b' = b then mv.exit b' ++ [m] else mv.exit b' }

/-- `AddMove` on block `b`'s entry parallel move. -/
def addEntry (mv : Moves) (b : Nat) (m : Move) : Moves :=
  { mv with entry := fun b' => if b' = b then mv.entry b' ++ [m] else mv.entry b' }

end Moves

section
variable (inp : ResolveInput)

/-- `pred->IsGraphEntry()`: the graph entry opens the block order. -/
def ResolveInput.isGraphEntry (b : Nat) : Bool := inp.order.head? == some b

/-- Whether a move on an edge out of `pred` goes into `pred`'s goto move:
`last->IsGoto() && !pred->IsGraphEntry()`. -/
def ResolveInput.movesOnGoto (pred : Nat) : Bool :=
  (inp.blocks pred).exit.isGoto && !inp.isGraphEntry pred

/-- `EmitMoveOnEdge`: into the predecessor's goto move, or into the
successor's entry move when the predecessor does not end in a goto or is the
graph entry. -/
def emitMoveOnEdge (mv : Moves) (succ pred : Nat) (m : Move) : Moves :=
  if inp.movesOnGoto pred then mv.addExit pred m else mv.addEntry succ m

/-- `AreLocationsAllTheSame`. -/
def allSame : List Location → Bool
  | [] => true
  | l :: ls => ls.all (· == l)

/-- The per-edge moves of one value whose sources differ: one move for each
predecessor whose source is not already the destination. -/
def emitEdgeMoves (S : Nat) (dst : Location) (mv : Moves) (ps : List (Nat × Location)) : Moves :=
  ps.foldl (fun mv ps => if dst = ps.2 then mv else emitMoveOnEdge inp mv S ps.1 ⟨dst, ps.2⟩) mv

/-- One live-in value `v` of block `S`: no siblings, spilled on entry, catch
entry, a pending move, or per-edge moves. -/
def resolveLiveIn (S : Nat) (acc : Moves × List Move) (v : Nat) : Option (Moves × List Move) :=
  let blk := inp.blocks S
  let chain := inp.chain v
  if chain.length ≤ 1 && !blk.isCatch then some acc
  else do
    let dst ← dstLoc inp S v
    if dst = inp.spillSlot v then return acc
    if blk.isCatch then
      if dst ≠ inp.exceptionLoc && dst ≠ inp.stackTraceLoc && dst.isMachineRegister &&
          dst ≠ inp.spillSlot v then
        return (acc.1.addEntry S ⟨dst, inp.spillSlot v⟩, acc.2)
      else return acc
    let srcs ← blk.preds.mapM (srcLoc inp v)
    if 1 < srcs.length && allSame srcs then
      match srcs with
      | [] => return acc
      | s0 :: _ => return if dst = s0 then acc else (acc.1, acc.2 ++ [⟨dst, s0⟩])
    else return (emitEdgeMoves inp S dst acc.1 (blk.preds.zip srcs), acc.2)

/-- The goto or try-entry parallel move a predecessor's moves are scanned in;
`none` is the `UNREACHABLE` of any other block end. -/
def exitMovesOf (mv : Moves) (p : Nat) : Option (List Move) :=
  match (inp.blocks p).exit with
  | .goto _ | .tryEntry _ _ => some (mv.exit p)
  | .other _ => none

/-- Whether some predecessor's parallel move overwrites `src`. -/
def blockedAtPreds (mv : Moves) (S : Nat) (src : Location) : Option Bool := do
  let hits ← (inp.blocks S).preds.mapM (fun p => (exitMovesOf inp mv p).map
    (fun ms => ms.any (fun m => !m.isRedundant && m.dest == src)))
  return hits.any id

end

/-- Pending move `j` can still be emitted, but its source is the destination of
a pending move that is blocked already. -/
def becomesBlocked (pending : List Move) (c : List Bool) (j : Nat) : Bool :=
  c.getD j false &&
    (List.range pending.length).any (fun k =>
      !c.getD k false &&
        (pending.getD k ⟨.invalid, .invalid⟩).dest == (pending.getD j ⟨.invalid, .invalid⟩).src)

/-- The body of the propagation loop at pending move `j`. -/
def propagateStep (pending : List Move) (acc : List Bool × Bool) (j : Nat) : List Bool × Bool :=
  if becomesBlocked pending acc.1 j then (acc.1.set j false, true) else acc

/-- One round of the `while (changed)` propagation over `can_emit`. -/
def propagateRound (pending : List Move) (c : List Bool) : List Bool × Bool :=
  (List.range pending.length).foldl (propagateStep pending) (c, false)

/-- `while (changed) { ... }` with a bound of `fuel` rounds. -/
def propagate (pending : List Move) : Nat → List Bool → Bool → List Bool
  | 0, c, _ => c
  | n + 1, c, changed =>
    if changed then
      let r := propagateRound pending c
      propagate pending n r.1 r.2
    else c

section
variable (inp : ResolveInput)

/-- The emission loop at pending move `j`: into `S` when it can be sunk,
onto every incoming edge otherwise. -/
def emitPendingAt (S : Nat) (pending : List Move) (c : List Bool) (mv : Moves) (j : Nat) : Moves :=
  let m := pending.getD j ⟨.invalid, .invalid⟩
  if c.getD j false then mv.addEntry S m
  else (inp.blocks S).preds.foldl (fun mv p => emitMoveOnEdge inp mv S p m) mv

/-- Emit every pending move. -/
def emitPending (S : Nat) (pending : List Move) (c : List Bool) (mv : Moves) : Moves :=
  (List.range pending.length).foldl (emitPendingAt inp S pending c) mv

/-- The pending moves of block `S`: the scan of the predecessors' goto moves,
the propagation, and the emission. -/
def resolvePending (S : Nat) (mv : Moves) (pending : List Move) : Option Moves := do
  if pending = [] then return mv
  let blocked ← pending.mapM (fun m => blockedAtPreds inp mv S m.src)
  let c0 := blocked.map (!·)
  let c := propagate pending (pending.length + 1) c0 (blocked.any id)
  return emitPending inp S pending c mv

/-- One iteration of the block loop: the live-in values of `S`, then its
pending moves. -/
def resolveBlock (mv : Moves) (S : Nat) : Option Moves := do
  let r ← (inp.blocks S).liveIn.foldlM (resolveLiveIn inp S) (mv, [])
  resolvePending inp S r.1 r.2

/-- The non-linear part of `ResolveControlFlow`, from the goto moves holding
the phi moves and empty entry moves, over every block but the graph entry. -/
def resolveControlFlow (phiMoves : Nat → List Move) : Option Moves :=
  (inp.order.drop 1).foldlM (resolveBlock inp) ⟨phiMoves, fun _ => []⟩

end

/-- A parallel move as a simultaneous assignment on a machine state: a
location written by a (non-redundant) move receives the old contents of the
move's source, every other location keeps its contents. -/
def execParallelMove {α : Type} (ms : List Move) (σ : Location → α) : Location → α :=
  fun l =>
    match ms.find? (fun m => !m.isRedundant && m.dest == l) with
    | some m => σ m.src
    | none => σ l

end LinearScan
