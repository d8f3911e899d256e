import Mathlib.Data.List.Basic

/-!
# Lifetime positions, locations and allocation policies

The vocabulary every other module of the model speaks, taken from
`runtime/vm/compiler/backend/linearscan.cc` (lines 33–56) and from the
`Location` values the allocator reads and writes.

* A *lifetime position* is a natural number; `NumberInstructions` gives every
  instruction the pair `2n` (start) and `2n + 1` (end), so the helpers
  `IsInstructionStartPosition`, `ToInstructionStart` and `ToInstructionEnd` are
  parity arithmetic. `kMaxPosition` is the sentinel `0x7FFFFFFF`.
* A `Location` is what a use slot holds: a policy before allocation, a machine
  register, a stack slot or a constant after it.

Mirroring notes vs the C++ source:
- `locations.h` is not part of the repository. The constructors of `Location`
  and `Policy` are the ones `linearscan.cc` names, as the spec lists them in §9;
  a stack slot carries the frame slot index its `StackSlot(index, base)` factory
  receives, and `base` distinguishes `FPREG` from the entry-SP base that frame
  elision introduces.
- `Location::Kind` gets the three values the allocator compares
  `register_kind_` against. The constructor initialises `register_kind_()` to the
  zero kind, `kInvalid`, which is neither register class; that value is `invalid`.
- Register codes are naturals; the machine's register files enter the allocation
  modules as a count.
-/

namespace LinearScan

/-- `kMaxPosition`: the position past every instruction. -/
def kMaxPosition : Nat := 0x7FFFFFFF

/-- `IsInstructionStartPosition`: even positions are instruction starts. -/
def isInstructionStartPosition (pos : Nat) : Bool := pos % 2 == 0

/-- `IsInstructionEndPosition`: odd positions are instruction ends. -/
def isInstructionEndPosition (pos : Nat) : Bool := pos % 2 == 1

/-- `ToInstructionStart`: `pos & ~1`. -/
def toInstructionStart (pos : Nat) : Nat := pos - pos % 2

/-- `ToInstructionEnd`: `pos | 1`. -/
def toInstructionEnd (pos : Nat) : Nat := pos - pos % 2 + 1

@[simp] theorem toInstructionStart_le (pos : Nat) : toInstructionStart pos ≤ pos := by
  unfold toInstructionStart; omega

theorem toInstructionStart_add_two (pos : Nat) : pos < toInstructionStart pos + 2 := by
  unfold toInstructionStart; omega

/-- The allocation policies an unallocated location can carry (`Location::Policy`). -/
inductive Policy
  | any
  | prefersRegister
  | requiresRegister
  | writableRegister
  | requiresFpuRegister
  | sameAsFirstInput
  | sameAsFirstOrSecondInput
  | mayBeSameAsFirstInput
  | requiresStack
  deriving DecidableEq, Repr

/-- The base register of a stack slot: the frame pointer, or the stack pointer
at function entry once `RemoveFrameIfNotNeeded` rebases a parameter. -/
inductive Base
  | fp
  | entrySp
  deriving DecidableEq, Repr

/-- What a location slot can hold (`Location`). `invalid` is both `Location()`
and `Location::NoLocation()`. -/
inductive Location
  | invalid
  | constant (c : Nat) (pairIndex : Nat)
  | unallocated (p : Policy)
  | register (r : Nat)
  | fpuRegister (r : Nat)
  | stackSlot (index : Int) (base : Base)
  | doubleStackSlot (index : Int) (base : Base)
  | quadStackSlot (index : Int) (base : Base)
  deriving DecidableEq, Repr

namespace Location

/-- `IsMachineRegister`: a CPU or an FPU register. -/
def isMachineRegister : Location → Bool
  | register _ | fpuRegister _ => true
  | _ => false

/-- `IsUnallocated`. -/
def isUnallocated : Location → Bool
  | unallocated _ => true
  | _ => false

/-- `HasStackIndex`: one of the three stack-slot kinds. -/
def hasStackIndex : Location → Bool
  | stackSlot _ _ | doubleStackSlot _ _ | quadStackSlot _ _ => true
  | _ => false

/-- `IsConstant`. -/
def isConstant : Location → Bool
  | constant _ _ => true
  | _ => false

/-- `IsInvalid`. -/
def isInvalid : Location → Bool
  | invalid => true
  | _ => false

/-- The policy of an unallocated location, `none` for every other kind. -/
def policy? : Location → Option Policy
  | unallocated p => some p
  | _ => none

/-- The slot holds an unallocated location that requires a machine register:
the test `FirstRegisterUse` applies to a use's slot. -/
def requiresRegisterPolicy (l : Location) : Bool :=
  l == unallocated .requiresRegister || l == unallocated .requiresFpuRegister

end Location

/-- The register class one allocation pass works on (`Location::Kind` as
`register_kind_` holds it). `invalid` is the constructor's zero value. -/
inductive RegisterKind
  | invalid
  | register
  | fpuRegister
  deriving DecidableEq, Repr

/-- `MakeRegisterLocation`: a register code as a location of the pass's class. -/
def makeRegisterLocation (kind : RegisterKind) (reg : Nat) : Location :=
  match kind with
  | .fpuRegister => .fpuRegister reg
  | _ => .register reg

/-- Value representations the allocator distinguishes (`Representation`). -/
inductive Representation
  | noRepresentation
  | tagged
  | untagged
  | pairOfTagged
  | unboxedInt8
  | unboxedInt16
  | unboxedInt32
  | unboxedInt64
  | unboxedUint8
  | unboxedUint16
  | unboxedUint32
  | unboxedFloat
  | unboxedDouble
  | unboxedFloat32x4
  | unboxedInt32x4
  | unboxedFloat64x2
  deriving DecidableEq, Repr

namespace Representation

/-- `RepresentationUtils::IsUnboxedInteger`. -/
def isUnboxedInteger : Representation → Bool
  | unboxedInt8 | unboxedInt16 | unboxedInt32 | unboxedInt64
  | unboxedUint8 | unboxedUint16 | unboxedUint32 => true
  | _ => false

/-- The three 128-bit representations that need a quad spill slot. -/
def isQuad : Representation → Bool
  | unboxedFloat32x4 | unboxedInt32x4 | unboxedFloat64x2 => true
  | _ => false

/-- Representations whose spill slot is a word-sized `StackSlot` (the first
branch of the slot assignment in `AllocateSpillSlotFor`). -/
def isWordSized (rep : Representation) : Bool :=
  rep.isUnboxedInteger || rep == tagged || rep == pairOfTagged || rep == untagged

/-- `RepresentationForRange`: `kUnboxedInt64` and `kUnboxedUint32` ranges are
untagged words (lines 3369–3378). -/
def forRange : Representation → Representation
  | unboxedInt64 => untagged
  | unboxedUint32 => untagged
  | r => r

end Representation

end LinearScan
