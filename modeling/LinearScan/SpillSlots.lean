import LinearScan.Location

/-!
# The spill-slot table

`AllocateSpillSlotFor` (linearscan.cc 2159–2262) hands out stack slots from a
table of three parallel arrays: `spill_slots_[i]` is the position after which
slot `i` is free again, `quad_spill_slots_[i]` marks the two halves of a
128-bit slot, `untagged_spill_slots_[i]` keeps untagged words apart from tagged
ones. A request scans for the first index whose flags match and whose expiry is
at or before the range's start, appends a fresh slot (two for a quad) when there
is none, and stamps the expiry with the end of the range's last sibling.

The scan starts at `fixed_slot_count()` only when `register_kind_` is
`kRegister`: the first `fixed_slot_count()` words of the spill area belong to
catch entries. Two callers reach the table before any pass has set
`register_kind_`: `CompleteRange(Definition*, LiveRange*)` runs inside
`BuildLiveRanges` for initial definitions with a `RequiresStack` use, while
`register_kind_` still holds the constructor's `kInvalid` and
`cpu_spill_slot_count_` is still `0`. `allocateSpillSlotIndex_ge_fixedSlotCount`
is what the allocation-time path guarantees; `buildLiveRanges_spillSlot_reserved`
is the construction-time request that lands on a reserved index.

Mirroring notes vs the C++ source:
- The three arrays stay three lists; `findSlot` is the `for (; idx < length;
  idx++)` scan with its iteration count as the structural argument.
- A request is given by what the function reads of the range: `range->Start()`,
  the last sibling's `End()` and `range->representation()`. The `spilled_`
  bookkeeping belongs to the allocator state (`Allocator` module).
- `FrameSlotForVariableIndex` is not part of the repository; for the
  non-positive variable indices spill slots use it is
  `first_local_from_fp + index`, and `FrameLayout` carries that one constant
  together with `kDoubleSpillFactor`.
-/

namespace LinearScan

/-- The three parallel arrays `spill_slots_`, `quad_spill_slots_`,
`untagged_spill_slots_`. -/
structure SpillTable where
  spillSlots : List Nat
  quadSpillSlots : List Bool
  untaggedSpillSlots : List Bool
  deriving DecidableEq, Repr

/-- Modelled from the spec: the target-layout constants of §6 the slot
assignment reads (`first_local_from_fp`, `kDoubleSpillFactor`). -/
structure FrameLayout where
  firstLocalFromFp : Int
  doubleSpillFactor : Nat

/-- The allocator fields `AllocateSpillSlotFor` reads besides the table. -/
structure SpillCtx where
  registerKind : RegisterKind
  fixedSlotCount : Nat
  cpuSpillSlotCount : Nat
  layout : FrameLayout

namespace SpillTable

/-- The empty table the constructor starts from. -/
def empty : SpillTable := ⟨[], [], []⟩

/-- `Add` on all three arrays. -/
def push (t : SpillTable) (expiry : Nat) (quad untagged : Bool) : SpillTable :=
  ⟨t.spillSlots ++ [expiry], t.quadSpillSlots ++ [quad], t.untaggedSpillSlots ++ [untagged]⟩

/-- `while (spill_slots_.length() < idx) Add(kMaxPosition, false, false)`. -/
def padTo (t : SpillTable) (idx : Nat) : SpillTable :=
  let k := idx - t.spillSlots.length
  ⟨t.spillSlots ++ List.replicate k kMaxPosition,
   t.quadSpillSlots ++ List.replicate k false,
   t.untaggedSpillSlots ++ List.replicate k false⟩

/-- `spill_slots_[idx] = end`. -/
def setExpiry (t : SpillTable) (idx expiry : Nat) : SpillTable :=
  { t with spillSlots := t.spillSlots.set idx expiry }

@[simp] theorem push_length (t : SpillTable) (e : Nat) (q u : Bool) :
    (t.push e q u).spillSlots.length = t.spillSlots.length + 1 := by
  simp [push]

@[simp] theorem padTo_length (t : SpillTable) (idx : Nat) :
    (t.padTo idx).spillSlots.length = max t.spillSlots.length idx := by
  simp only [padTo, List.length_append, List.length_replicate]; omega

@[simp] theorem setExpiry_length (t : SpillTable) (idx e : Nat) :
    (t.setExpiry idx e).spillSlots.length = t.spillSlots.length := by
  simp [setExpiry]

end SpillTable

/-- `need_quad`: a 128-bit value while allocating FPU registers. -/
def needQuad (kind : RegisterKind) (rep : Representation) : Bool :=
  kind == .fpuRegister && rep.isQuad

/-- `need_untagged`: an untagged word while allocating CPU registers. -/
def needUntagged (kind : RegisterKind) (rep : Representation) : Bool :=
  kind == .register && rep == .untagged

/-- Where the scan for a reusable slot starts: past the catch-entry slots for
CPU registers, at `0` otherwise. -/
def firstSearchIndex (c : SpillCtx) : Nat :=
  if c.registerKind == .register then c.fixedSlotCount else 0

/-- The scan `for (; idx < spill_slots_.length(); idx++)` from index `i`, with
`n` iterations left: the first index whose quad and untagged flags match the
request and whose expiry is at or before `start`, else the index it stops at. -/
def findSlot (t : SpillTable) (quad untagged : Bool) (start : Nat) : Nat → Nat → Nat
  | i, 0 => i
  | i, n + 1 =>
    if t.quadSpillSlots.getD i false == quad && t.untaggedSpillSlots.getD i false == untagged
        && t.spillSlots.getD i 0 ≤ start then i
    else findSlot t quad untagged start (i + 1) n

/-- `AllocateSpillSlotFor` on the table: the index the range's location is
computed from (the higher half for a quad slot) and the updated table. -/
def allocateSpillSlotIndex (c : SpillCtx) (t : SpillTable) (start stop : Nat)
    (rep : Representation) : Nat × SpillTable :=
  let quad := needQuad c.registerKind rep
  let untagged := needUntagged c.registerKind rep
  let first := firstSearchIndex c
  let idx := findSlot t quad untagged start first (t.spillSlots.length - first)
  let t := t.padTo idx
  let t :=
    if idx = t.spillSlots.length then
      if quad then (t.push 0 quad untagged).push 0 quad untagged else t.push 0 quad untagged
    else t
  let t := t.setExpiry idx stop
  if quad then (idx + 1, t.setExpiry (idx + 1) stop) else (idx, t)

/-- The location `AllocateSpillSlotFor` assigns for a table index: a word slot
for integer and tagged ranges, otherwise a double or quad slot placed after the
CPU spill area, indexed by its lowest address. -/
def spillSlotLocation (c : SpillCtx) (rep : Representation) (idx : Nat) : Location :=
  if rep.isWordSized then .stackSlot (c.layout.firstLocalFromFp - idx) .fp
  else
    let slot := c.layout.firstLocalFromFp -
      (c.cpuSpillSlotCount + idx * c.layout.doubleSpillFactor + (c.layout.doubleSpillFactor - 1))
    if rep.isQuad then .quadStackSlot slot .fp else .doubleStackSlot slot .fp

/-- `AllocateSpillSlotFor`: the range's new spill slot and the table after it. -/
def allocateSpillSlotFor (c : SpillCtx) (t : SpillTable) (start stop : Nat)
    (rep : Representation) : Location × SpillTable :=
  let r := allocateSpillSlotIndex c t start stop rep
  (spillSlotLocation c rep r.1, r.2)

/-- Every slot `AllocateSpillSlotFor` hands out is a stack slot. -/
theorem allocateSpillSlotFor_hasStackIndex (c : SpillCtx) (t : SpillTable) (start stop : Nat)
    (rep : Representation) : (allocateSpillSlotFor c t start stop rep).1.hasStackIndex = true := by
  simp only [allocateSpillSlotFor, spillSlotLocation]
  split_ifs <;> rfl

/-- `AllocateSpillSlotForInitialDefinition`: reserve the frame slot an OSR or
catch-entry parameter arrives in, up to the end of its range. -/
def allocateSpillSlotForInitialDefinition (t : SpillTable) (slotIndex rangeEnd : Nat) :
    SpillTable :=
  if slotIndex < t.spillSlots.length then
    t.setExpiry slotIndex (max (t.spillSlots.getD slotIndex 0) rangeEnd)
  else (t.padTo slotIndex).push rangeEnd false false

/-- `AllocateSpillSlotForSuspendState`: a permanently taken slot for the
synthetic `:suspend_state` variable, when the function has one. -/
def allocateSpillSlotForSuspendState (hasSuspendState : Bool) (t : SpillTable) : SpillTable :=
  if hasSuspendState then t.push kMaxPosition false false else t

/-! ## The scan -/

theorem findSlot_ge (t : SpillTable) (q u : Bool) (start : Nat) :
    ∀ (n i : Nat), i ≤ findSlot t q u start i n
  | 0, _ => le_rfl
  | n + 1, i => by
    unfold findSlot
    split
    · exact le_rfl
    · exact Nat.le_of_succ_le (findSlot_ge t q u start n (i + 1))

/-- The index a request receives is never below the scan's first index. -/
theorem allocateSpillSlotIndex_ge_first (c : SpillCtx) (t : SpillTable) (start stop : Nat)
    (rep : Representation) : firstSearchIndex c ≤ (allocateSpillSlotIndex c t start stop rep).1 := by
  have h := findSlot_ge t (needQuad c.registerKind rep) (needUntagged c.registerKind rep) start
    (t.spillSlots.length - firstSearchIndex c) (firstSearchIndex c)
  unfold allocateSpillSlotIndex
  dsimp only
  split <;> dsimp only <;> omega

/-- During a CPU allocation pass every request lands at or above
`fixed_slot_count()`: the catch-entry slots are never handed out. -/
theorem allocateSpillSlotIndex_ge_fixedSlotCount (c : SpillCtx) (t : SpillTable)
    (start stop : Nat) (rep : Representation) (h : c.registerKind = .register) :
    c.fixedSlotCount ≤ (allocateSpillSlotIndex c t start stop rep).1 := by
  have := allocateSpillSlotIndex_ge_first c t start stop rep
  simpa [firstSearchIndex, h] using this

/-- A construction-time request. `BuildLiveRanges` completes a tagged initial
definition with a `RequiresStack` use (range `[2, 10)`) while `register_kind_`
is still `kInvalid` and `cpu_spill_slot_count_` is `0`, in a function whose one
catch-entry slot (`fixed_slot_count() = 1`) has no entry in the table yet: the
range receives index `0`, the reserved slot. -/
theorem buildLiveRanges_spillSlot_reserved :
    let c : SpillCtx := ⟨.invalid, 1, 0, ⟨-1, 1⟩⟩
    allocateSpillSlotFor c .empty 2 10 .tagged = (.stackSlot (-1) .fp, ⟨[10], [false], [false]⟩) ∧
      (allocateSpillSlotIndex c .empty 2 10 .tagged).1 < c.fixedSlotCount := by
  decide

end LinearScan
