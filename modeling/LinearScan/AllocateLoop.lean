import LinearScan.Allocator

/-!
# The linear-scan allocation loop

`AllocateUnallocatedRanges` (linearscan.cc 3032–3100) runs once per register
class. It repeatedly takes the queued range with the smallest start, retires
the ranges in `registers_` that ended before it (`AdvanceActiveIntervals`), and
places it:

* `AllocateFreeRegister` picks the hinted register, a register with nothing on
  it, or the one that stays free longest. The range is split where that register
  stops being free, and the tail is queued.
* Otherwise `AllocateAnyRegister` spills a range without register uses. For
  the others it picks the register whose occupants are needed latest
  (`UpdateFreeUntil`), evicts what intersects (`AssignNonFreeRegister`,
  `EvictIntersection`), or spills up to the first register use when no register
  is free long enough.

After the worklist drains, every range still in a register is retired, and
every value that arrives at a catch entry in a register gets a spill slot.

Mirroring notes vs the C++ source:
- `registers_[reg]` is a list of range ids. Eviction loops in the code set
  entries to `nullptr` from the back and compact with `RemoveEvicted`. The model
  runs the same backwards loop over `Option` entries (`walkOccupants`), then
  drops the `none`s in order, which is what the compaction leaves. The code skips
  the compaction when nothing was cleared, when dropping would change nothing.
- The worklist loop has a bound on its iterations, and the result is `none` when
  the bound is reached. `none` is also the `UNREACHABLE` of intrinsic mode and of
  `FindCover` in the catch fix-up.
- `ASSERT`s are not modelled. Where the code would then dereference `nullptr`
  (a register use missing in `SpillBetween`'s call, no candidate register), the
  model reads the range's start or register `0`.
-/

namespace LinearScan

open AllocState

section Loop
variable (c : AllocCtx)

/-- The register a loop index visits: `(i + kRegisterAllocationBias) %
NumberOfRegisters()`. -/
def AllocCtx.regAt (i : Nat) : Nat := (i + c.bias) % c.numberOfRegisters

/-- The registers in the order the scans visit them. -/
def AllocCtx.regOrder : List Nat := (List.range c.numberOfRegisters).map c.regAt

/-- `FirstIntersectionWithAllocated(reg, unallocated)`: the first position
where a range on `reg` and the pending part of `id` are both live. -/
def firstIntersectionWithAllocated (s : AllocState) (reg id : Nat) : Nat :=
  (s.registers reg).foldl (fun acc a =>
    match (s.ranges a).pendingIntervals with
    | [] => acc
    | head :: rest =>
      if acc ≤ head.start then acc
      else min acc (firstIntersection (s.ranges id).pendingIntervals (head :: rest))) kMaxPosition

/-- The registers used on the back edge of loop `l` by phis whose reaching
definitions do not include `vreg` (`used_on_backedge`). -/
def usedOnBackedge (s : AllocState) (l vreg reg : Nat) : Bool :=
  (c.loops l).headerPhis.any fun phi =>
    phi.any fun v =>
      let loc := (s.ranges (s.liveRanges v)).assigned
      loc.hasKind c.registerKind && loc.code == reg && !c.reachingDefs (phi.headD 0) vreg

/-- The hint `AllocateFreeRegister` starts from: the first hinted use, or for an
incoming register value the register of the parent it continues. -/
def freeRegisterHint (s : AllocState) (id : Nat) : Location :=
  let r := s.ranges id
  let hint := r.finger.firstHint r.uses s.slots
  if !hint.isMachineRegister && decide (0 ≤ r.vreg) then
    let parent := s.ranges (s.parentOf id)
    if parent.stop = r.start && !c.isBlockEntry r.start && parent.assigned.isMachineRegister
    then parent.assigned else hint
  else hint

/-- The first candidate of `AllocateFreeRegister`: the hinted register and how
long it is free, or the first register with nothing on it. -/
def freeRegisterFirstCandidate (s : AllocState) (id : Nat) : Option Nat × Nat :=
  let hint := freeRegisterHint c s id
  if hint.isMachineRegister then
    if c.blocked hint.code then (none, 0)
    else (some hint.code, firstIntersectionWithAllocated s hint.code id)
  else
    match c.regOrder.find? fun reg => !c.blocked reg && (s.registers reg).isEmpty with
    | some reg => (some reg, kMaxPosition)
    | none => (none, 0)

/-- The scan for the register free longest, when the first candidate is not
free forever; it stops at a register free until `kMaxPosition`. -/
def freeRegisterScan (s : AllocState) (id : Nat) : List Nat → Option Nat × Nat → Option Nat × Nat
  | [], acc => acc
  | reg :: regs, (cand, freeUntil) =>
    if c.blocked reg || cand == some reg then freeRegisterScan s id regs (cand, freeUntil)
    else
      let i := firstIntersectionWithAllocated s reg id
      if i > freeUntil then
        if i = kMaxPosition then (some reg, i) else freeRegisterScan s id regs (some reg, i)
      else freeRegisterScan s id regs (cand, freeUntil)

/-- The loop heuristic of `AllocateFreeRegister`: inside a loop whose back edge
interferes with the range, move off a candidate some header phi uses on the back
edge, to the first register free as long that no such phi uses. -/
def backedgeCandidate (s : AllocState) (id : Nat) (cand : Option Nat) (freeUntil : Nat) :
    Option Nat × Nat :=
  let r := s.ranges id
  match c.loopAt r.start with
  | some l =>
    if decide (0 ≤ r.vreg) && decide ((c.loops l).stop ≤ freeUntil) &&
        (c.loops l).backedgeInterference r.vreg.toNat &&
        usedOnBackedge c s l r.vreg.toNat (cand.getD 0) then
      match c.regOrder.find? (fun reg => !c.blocked reg && cand != some reg &&
          !usedOnBackedge c s l r.vreg.toNat reg &&
          decide (freeUntil ≤ firstIntersectionWithAllocated s reg id)) with
      | some reg => (some reg, firstIntersectionWithAllocated s reg id)
      | none => (cand, freeUntil)
    else (cand, freeUntil)
  | none => (cand, freeUntil)

/-- Put range `id` on register `reg`: `registers_[reg]->Add(range)` and
`set_assigned_location`. -/
def assignRegister (s : AllocState) (id reg : Nat) : AllocState :=
  { s.setRange id { s.ranges id with assigned := makeRegisterLocation c.registerKind reg } with
    registers := fun r => if r = reg then s.registers r ++ [id] else s.registers r }

/-- `AllocateFreeRegister(range)`: `none` when every register is taken at the
range's start, else the state after the assignment (and a split, when the
register is free only up to a point). -/
def allocateFreeRegister (s : AllocState) (id : Nat) : Option AllocState :=
  let first := freeRegisterFirstCandidate c s id
  let (cand, freeUntil) :=
    if first.2 = kMaxPosition then first else freeRegisterScan c s id c.regOrder first
  if freeUntil ≤ (s.ranges id).start then none
  else
    let (cand, freeUntil) := backedgeCandidate c s id cand freeUntil
    let reg := cand.getD 0
    if freeUntil = kMaxPosition then some (assignRegister c s id reg)
    else
      let (s, tail) := splitAt s id freeUntil
      let s := addToUnallocated s tail
      let r := s.ranges id
      if r.uses = [] && decide (0 ≤ r.vreg) && (s.ranges (s.parentOf id)).spillSlot.isConstant
      then some (spill c s id)
      else some (assignRegister c s id reg)

/-- One range on a register in `UpdateFreeUntil`: `none` when the register
cannot be taken (a blocking range, or a register use in the current
instruction), else the new `free_until` and `blocked_at`. The finger of the
occupant moves when it is asked for its next interfering use. -/
def updateFreeUntilStep (s : AllocState) (start : Nat) (unIvs : List UseInterval) (a : Nat)
    (fu ba : Nat) : AllocState × Option (Nat × Nat) :=
  let occ := s.ranges a
  match occ.pendingIntervals with
  | [] => (s, some (fu, ba))
  | head :: rest =>
    if head.contains start then
      if occ.vreg < 0 then (s, none)
      else
        let (f, use) := occ.finger.firstInterferingUse occ.uses s.slots start
        let s := s.setRange a { occ with finger := f }
        match use with
        | some u =>
          if toInstructionStart u.2.pos ≤ start + 1 then (s, none)
          else (s, some (min fu u.2.pos, ba))
        | none => (s, some (min fu occ.stop, ba))
    else
      let i := firstIntersection (head :: rest) unIvs
      if i ≠ kMaxPosition then
        (s, some (min fu i, if occ.vreg = kNoVirtualRegister then i else ba))
      else (s, some (fu, ba))

/-- `UpdateFreeUntil(reg, range, &free_until, &blocked_at)`: the register's
`free_until` and `blocked_at` when it beats the current `curFree`. -/
def updateFreeUntil (s : AllocState) (reg id curFree : Nat) : AllocState × Option (Nat × Nat) :=
  let start := (s.ranges id).start
  let unIvs := (s.ranges id).intervals
  let rec go : List Nat → AllocState → Nat → Nat → AllocState × Option (Nat × Nat)
    | [], s, fu, ba => (s, some (fu, ba))
    | a :: as, s, fu, ba =>
      match updateFreeUntilStep s start unIvs a fu ba with
      | (s, none) => (s, none)
      | (s, some (fu, ba)) => if fu ≤ curFree then (s, none) else go as s fu ba
  go (s.registers reg) s kMaxPosition kMaxPosition

/-- The scan of `AllocateAnyRegister` over the unblocked registers: the last
register that beat the best `free_until` so far, with its `free_until` and
`blocked_at`. -/
def anyRegisterScan (s : AllocState) (id : Nat) :
    List Nat → Option Nat × Nat × Nat → AllocState × (Option Nat × Nat × Nat)
  | [], acc => (s, acc)
  | reg :: regs, (cand, fu, ba) =>
    if c.blocked reg then anyRegisterScan s id regs (cand, fu, ba)
    else
      match updateFreeUntil s reg id fu with
      | (s, some (fu', ba')) => anyRegisterScan s id regs (some reg, fu', ba')
      | (s, none) => anyRegisterScan s id regs (cand, fu, ba)

/-- `IsCheapToEvictRegisterInLoop(loop, reg)`: every occupant of `reg` is
outside the loop or has only unconstrained uses in it. -/
def isCheapToEvictRegisterInLoop (s : AllocState) (l reg : Nat) : Bool :=
  (s.registers reg).all fun a =>
    match (s.ranges a).pendingIntervals with
    | [] => true
    | iv :: _ =>
      if iv.contains (c.loops l).start then rangeHasOnlyUnconstrainedUsesInLoop s a l
      else !decide (iv.start < (c.loops l).stop)

/-- `HasCheapEvictionCandidate(phi_range)`. -/
def hasCheapEvictionCandidate (s : AllocState) (id : Nat) : Bool :=
  match c.loopAt (s.ranges id).start with
  | some l => (List.range c.numberOfRegisters).any fun reg =>
      !c.blocked reg && isCheapToEvictRegisterInLoop c s l reg
  | none => false

/-- `EvictIntersection(allocated, unallocated)`: if the occupant `a` meets the
pending part of `id`, spill it from there, up to its next register use when it
has one. -/
def evictIntersection (s : AllocState) (a id : Nat) : AllocState × Bool :=
  let unPending := (s.ranges id).pendingIntervals
  let i := firstIntersection (s.ranges a).pendingIntervals unPending
  if i = kMaxPosition then (s, false)
  else
    let spillPos := (unPending.head?.map (·.start)).getD 0
    let occ := s.ranges a
    let (f, use) := occ.finger.firstInterferingUse occ.uses s.slots spillPos
    let s := s.setRange a { occ with finger := f }
    match use with
    | none => (spillAfter c s a spillPos, true)
    | some u =>
      let restore := if spillPos < i then min i u.2.pos else u.2.pos
      (spillBetween c s a spillPos restore, true)

/-- The backwards loop over the occupants of a register that
`AssignNonFreeRegister` and `AdvanceActiveIntervals` share: `visit` sees each
index from the last to the first and clears the entries it removes. -/
def walkOccupants (occs : List Nat)
    (visit : AllocState × List (Option Nat) → Nat → AllocState × List (Option Nat))
    (s : AllocState) : AllocState × List (Option Nat) :=
  (List.range occs.length).reverse.foldl visit (s, occs.map some)

/-- `RemoveEvicted(reg, first_evicted)`: the register's list without the
cleared entries, in order. -/
def removeEvicted (s : AllocState) (reg : Nat) (kept : List (Option Nat)) : AllocState :=
  { s with registers := fun r => if r = reg then kept.filterMap (fun x => x) else s.registers r }

/-- One occupant of `AssignNonFreeRegister`'s loop: a range that is not a
blocking range and meets `id` is evicted, and converted when it kept the
register. -/
def evictOccupant (id : Nat) (occs : List Nat) (acc : AllocState × List (Option Nat)) (i : Nat) :
    AllocState × List (Option Nat) :=
  let (s, kept) := acc
  let a := occs.getD i 0
  if (s.ranges a).vreg < 0 then (s, kept)
  else
    let (s, evicted) := evictIntersection c s a id
    if evicted then
      let s := if (s.ranges a).assigned.isMachineRegister then convertAllUses c s a else s
      (s, kept.set i none)
    else (s, kept)

/-- `AssignNonFreeRegister(range, reg)`: evict from `reg` every occupant that
meets the range, then put the range there. -/
def assignNonFreeRegister (s : AllocState) (id reg : Nat) : AllocState :=
  let (s, kept) := walkOccupants (s.registers reg) (evictOccupant c id (s.registers reg)) s
  assignRegister c (removeEvicted s reg kept) id reg

/-- `AllocateAnyRegister(range)`. -/
def allocateAnyRegister (s : AllocState) (id : Nat) : AllocState :=
  let r := s.ranges id
  let (f, registerUse) := r.finger.firstRegisterUse r.uses s.slots r.start
  let s := s.setRange id { r with finger := f }
  if registerUse.isNone && !(r.isLoopPhi && hasCheapEvictionCandidate c s id) then spill c s id
  else
    let (s, (cand, freeUntil, blockedAt)) := anyRegisterScan c s id c.regOrder (none, 0, kMaxPosition)
    let r := s.ranges id
    let usePos := (registerUse.map (·.2.pos)).getD r.start
    if freeUntil < usePos then spillBetween c s id r.start usePos
    else
      let s :=
        if blockedAt < r.stop then
          let (s, tail) := splitBetween c s id r.start (blockedAt + 1)
          addToUnallocated s tail
        else s
      assignNonFreeRegister c s id (cand.getD 0)

/-- One occupant of `AdvanceActiveIntervals`'s loop: a range with no interval
left after `start` is retired and its uses converted. -/
def advanceOccupant (start : Nat) (occs : List Nat) (acc : AllocState × List (Option Nat))
    (i : Nat) : AllocState × List (Option Nat) :=
  let (s, kept) := acc
  let a := occs.getD i 0
  let occ := s.ranges a
  let (f, done) := occ.finger.advance occ.intervals start
  let s := s.setRange a { occ with finger := f }
  if done then (convertAllUses c s a, kept.set i none) else (s, kept)

/-- `AdvanceActiveIntervals(start)` on one register. -/
def advanceRegister (s : AllocState) (start reg : Nat) : AllocState :=
  let (s, kept) := walkOccupants (s.registers reg) (advanceOccupant c start (s.registers reg)) s
  removeEvicted s reg kept

/-- `AdvanceActiveIntervals(start)`. -/
def advanceActiveIntervals (s : AllocState) (start : Nat) : AllocState :=
  c.regOrder.foldl (fun s reg => advanceRegister c s start reg) s

/-- One iteration of the worklist loop: the last queued range, advanced to,
then placed on a free register or any register. -/
def allocateStep (s : AllocState) (id : Nat) : Option AllocState :=
  let s := advanceActiveIntervals c s (s.ranges id).start
  match allocateFreeRegister c s id with
  | some s => some s
  | none => if c.intrinsicMode then none else some (allocateAnyRegister c s id)

/-- The worklist loop `while (!unallocated_.is_empty())`, for at most `fuel`
iterations. -/
def allocationLoop : Nat → AllocState → Option AllocState
  | 0, s => if s.unallocated = [] then some s else none
  | n + 1, s =>
    match s.unallocated.getLast? with
    | none => some s
    | some id =>
      match allocateStep c { s with unallocated := s.unallocated.dropLast } id with
      | some s => allocationLoop n s
      | none => none

/-- `FindCover(range, pos)`: the first sibling from `id` whose `[Start(),
End())` holds `pos`. -/
def findCoverRange (s : AllocState) (id pos : Nat) : Option Nat :=
  (s.chain id).find? fun j => (s.ranges j).canCover pos

/-- The catch-entry fix-up for one live-in value: a value that reaches the
catch entry in a register, not the exception or stack trace, gets a spill slot
if it has none. -/
def catchEntryFixup (s : AllocState) (pos vreg : Nat) : Option AllocState := do
  let id := s.liveRanges vreg
  let cover ← findCoverRange s id pos
  let dst := (s.ranges cover).assigned
  if (s.ranges (s.parentOf cover)).spillSlot = dst then return s
  if dst = c.exceptionLoc || dst = c.stackTraceLoc then return s
  if dst.isMachineRegister && (s.ranges id).spillSlot = .invalid then
    return allocateSpillSlotForRange c s id
  return s

/-- `AllocateUnallocatedRanges()`: the worklist loop, the retirement of every
range still in a register, and the catch-entry fix-up. -/
def allocateUnallocatedRanges (fuel : Nat) (s : AllocState) : Option AllocState := do
  let s ← allocationLoop c fuel s
  let s := advanceActiveIntervals c s kMaxPosition
  c.catchEntries.foldlM (fun s e => e.liveIn.foldlM (fun s v => catchEntryFixup c s e.startPos v) s) s

end Loop

end LinearScan
