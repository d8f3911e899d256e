import Mathlib.Data.List.InsertIdx
import Mathlib.Data.List.Nodup
import LinearScan.BuildShape

/-!
# The invariant of live-range construction

`BuildLiveRanges` (linearscan.cc 600–747) walks the blocks backwards and each
block's instructions backwards, and builds every range by prepending. This
module states what the walk keeps (`BuildInv`) and proves it of each
primitive the walk uses; `BuildWalk` chains them over an instruction's phases
and `BuildEntry` over the steps at a block's entry and the whole walk.

The walk keeps the discipline the comments of `AddUseInterval` and `DefineAt`
describe only on well-formed input (`BlocksWF`). Positions are laid out as
`NumberInstructions` lays them out, and values are in SSA form in position
terms: one definition each (by an instruction, a phi or an initial definition),
before each of its reads, and live out of its block when it is read in a later
one. A read is an instruction's input, register argument or environment value
(with the inputs of the materializations it names), a phi input at a goto, or
a block's live-out or catch live-in set. These are hypotheses, stated on
positions, which is all construction reads.

Every value whose definition is still ahead of the walk (`Open`) has a range
that the prepend discipline keeps in shape (`ValueOpen`). Every blocking range
keeps the discipline of its instruction (`Blocking`). Every queued range is
finished (`Queued`) and no later step touches it. Three kinds of ranges are
edited: open values, blocking ranges and fresh temporaries, and the ids of the
three never meet.

A queued value's safepoints are those `AssignSafepoints` and `AddSafepoint`
keep (`safepointKept`): every recorded safepoint it contains, except the
instruction that defines it, the catch entry of an exception or stack-trace
parameter, and, for a constant, the calls that always call and are not
callee-safe.
-/

namespace LinearScan

/-- The virtual registers of an instruction's inputs. -/
def RangeInstr.inputVregs (ins : RangeInstr) : List Nat :=
  ins.inputs.flatMap fun half => half.map Prod.fst

/-- The virtual registers `ProcessMaterializationUses` may reach from
materialization `m`, through `fuel` levels of nesting. -/
def matVregs (mats : List (List MatInput)) : Nat → Nat → List Nat
  | 0, _ => []
  | fuel + 1, m => (mats.getD m []).flatMap fun
    | .constant _ _ => []
    | .value halves => halves.map Prod.fst
    | .materialization m' _ => matVregs mats fuel m'

/-- The virtual registers an environment value is a use of. -/
def EnvValue.vregs (mats : List (List MatInput)) : EnvValue → List Nat
  | .value halves => halves.map Prod.fst
  | .suspendState v _ _ => v.toList
  | .materialization m _ => matVregs mats (mats.length + 1) m
  | _ => []

/-- The virtual registers an instruction reads: its inputs, its register
arguments and its environment. -/
def RangeInstr.readVregs (mats : List (List MatInput)) (ins : RangeInstr) : List Nat :=
  ins.inputVregs ++ ins.moveArgs.flatMap (fun half => half.map Prod.fst) ++ ins.env.flatMap (EnvValue.vregs mats)

theorem RangeInstr.readVregs_of_input {ins : RangeInstr} (mats : List (List MatInput)) {v : Nat}
    (h : v ∈ ins.inputVregs) : v ∈ ins.readVregs mats :=
  List.mem_append_left _ (List.mem_append_left _ h)

/-- The virtual registers a phi input passes on. -/
def OutgoingPhiInput.vregs : OutgoingPhiInput → List Nat
  | .constant _ _ => []
  | .value halves => halves.map Prod.fst

/-- The initial definitions of a block's entry. -/
def RangeBlock.initialDefs (blk : RangeBlock) : List InitialDef :=
  match blk.kind with
  | .catchEntry _ defs | .entry defs => defs
  | _ => []

/-- The values a block's entry defines: a join's phis, both halves of its
initial definitions. -/
def RangeBlock.entryVregs (blk : RangeBlock) : List Nat :=
  match blk.kind with
  | .join phis => phis.flatMap (·.vregs)
  | _ => blk.initialDefs.flatMap fun d => d.vreg :: d.pairVreg.toList

/-- One half of the initial definition is `v`. -/
def InitialDef.defines (d : InitialDef) (v : Nat) : Bool := d.vreg == v || d.pairVreg == some v

/-- `IsLiveAfterCatchEntry`: an exception or stack-trace parameter. -/
def InitialDef.liveAfterCatchEntry (d : InitialDef) : Bool :=
  match d.value with
  | .parameter _ _ live => live
  | .constant _ => false

/-- The initial definition is a constant. -/
def InitialDef.isConstant (d : InitialDef) : Bool :=
  match d.value with
  | .constant _ => true
  | .parameter _ _ _ => false

/-- The instruction at `p` has `v` among its outputs. -/
def RangeBlock.definesAt (blk : RangeBlock) (v p : Nat) : Bool :=
  blk.instrs.any fun ins => ins.pos == p && ins.outs.any (·.1 == (v : Int))

section Blocks
variable (b : BuildCtx) (blocks : List RangeBlock)

/-- Value `v` is defined at position `d`: by the instruction there, or by the
entry of the block starting there. -/
def DefinedAt (v d : Nat) : Prop :=
  ∃ blk ∈ blocks, (∃ ins ∈ blk.instrs, ins.pos = d ∧ (v : Int) ∈ ins.outs.map Prod.fst) ∨
    (blk.startPos = d ∧ v ∈ blk.entryVregs)

/-- Value `v` is read at position `p`: by the instruction there, by the goto
there as a phi input, or as live out of, or live into the catch block of, the
block starting there. -/
def ReadAt (v p : Nat) : Prop :=
  (∃ blk ∈ blocks, ∃ ins ∈ blk.instrs, ins.pos = p ∧ v ∈ ins.readVregs b.materializations) ∨
    ∃ blk ∈ blocks, (blk.startPos = p ∧ (v ∈ blk.liveOut ∨ ∃ vs, blk.catchLiveIn = some vs ∧ v ∈ vs)) ∨
      ∃ g ∈ blk.gotoMoves, g.1 = p ∧ v ∈ g.2.flatMap OutgoingPhiInput.vregs

/-- The definition of `v`, if any, lies before `c`: still ahead of a walk
that has done every position from `c` on. -/
def Open (c v : Nat) : Prop := ∀ d, DefinedAt blocks v d → d < c

/-- The positions `NumberInstructions` gives a block, in order: its entry, its
instructions, its goto, and its end. -/
def RangeBlock.positions (blk : RangeBlock) : List Nat :=
  blk.startPos :: (blk.instrs.map (·.pos) ++ (blk.gotoMoves.map (·.1)).toList ++ [blk.endPos])

/-- Input on which construction keeps its discipline, for values below `nV`.
Positions: even, as `NumberInstructions` counts them; a block's entry, its
instructions, its goto and its end lie at least two apart, and blocks follow
one another. SSA in position terms: a value is
defined once; its definition comes before each read; and a value an
instruction defines and a later block reads is live out of the instruction's
block. A value live into a loop header is defined before it, a block's entry
defines a value once, and a parameter does not arrive as a constant. -/
structure BlocksWF (nV : Nat) : Prop where
  laid : ∀ blk ∈ blocks, blk.positions.Pairwise fun a b => a + 2 ≤ b
  even : ∀ blk ∈ blocks, ∀ x ∈ blk.positions, x % 2 = 0
  ordered : blocks.Pairwise fun b₁ b₂ => b₁.endPos ≤ b₂.startPos
  read_lt : ∀ blk ∈ blocks, ∀ ins ∈ blk.instrs, ∀ v ∈ ins.readVregs b.materializations, v < nV
  goto_lt : ∀ blk ∈ blocks, ∀ g ∈ blk.gotoMoves, ∀ v ∈ g.2.flatMap OutgoingPhiInput.vregs, v < nV
  liveOut_lt : ∀ blk ∈ blocks, ∀ v ∈ blk.liveOut, v < nV
  catch_lt : ∀ blk ∈ blocks, ∀ vs, blk.catchLiveIn = some vs → ∀ v ∈ vs, v < nV
  entry_lt : ∀ blk ∈ blocks, ∀ v ∈ blk.entryVregs, v < nV
  out_vreg : ∀ blk ∈ blocks, ∀ ins ∈ blk.instrs, ∀ o ∈ ins.outs,
    o.1 = kNoVirtualRegister ∨ 0 ≤ o.1 ∧ o.1 < nV
  out_nodup : ∀ blk ∈ blocks, ∀ ins ∈ blk.instrs,
    ((ins.outs.map Prod.fst).filter fun v => decide (0 ≤ v)).Nodup
  entry_nodup : ∀ blk ∈ blocks, blk.entryVregs.Nodup
  def_unique : ∀ v d d', DefinedAt blocks v d → DefinedAt blocks v d' → d = d'
  read_after_def : ∀ blk ∈ blocks, ∀ ins ∈ blk.instrs, ∀ v ∈ ins.readVregs b.materializations, ∀ d,
    DefinedAt blocks v d → d < ins.pos
  goto_after_def : ∀ blk ∈ blocks, ∀ g ∈ blk.gotoMoves, ∀ v ∈ g.2.flatMap OutgoingPhiInput.vregs, ∀ d,
    DefinedAt blocks v d → d < g.1
  liveOut_after_def : ∀ blk ∈ blocks, ∀ v ∈ blk.liveOut, ∀ d,
    DefinedAt blocks v d → d < blk.endPos
  catch_after_def : ∀ blk ∈ blocks, ∀ vs, blk.catchLiveIn = some vs → ∀ v ∈ vs, ∀ d,
    DefinedAt blocks v d → d < blk.startPos
  header_after_def : ∀ blk ∈ blocks, ∀ l vs, blk.loopHeader = some (l, vs) → ∀ v ∈ vs,
    v < nV ∧ ∀ d, DefinedAt blocks v d → d < blk.startPos
  liveOut_of_def : ∀ blk ∈ blocks, ∀ ins ∈ blk.instrs, ∀ v : Nat, (v : Int) ∈ ins.outs.map Prod.fst →
    ∀ p, ReadAt b blocks v p → blk.endPos ≤ p → v ∈ blk.liveOut
  param_loc : ∀ blk ∈ blocks, ∀ d ∈ blk.initialDefs, ∀ loc sus live,
    d.value = .parameter loc sus live → ∀ second, (loc.half second).isConstant = false

/-- Whether `AssignSafepoints` and `AddSafepoint` give the range of value `v`
an entry for the recorded safepoint `(p, k)` it contains: not when the
safepoint is the instruction that defines `v`, nor the catch entry of which
`v` is an exception or stack-trace parameter, nor, when `v` is a constant, a
call that always calls and is not callee-safe. -/
def safepointKept (v : Nat) (p : Nat × Nat) : Bool :=
  !(blocks.any fun blk => blk.definesAt v p.1) &&
    !(blocks.any fun blk => blk.initialDefs.any fun d =>
      d.defines v && (blk.startPos == p.1 && d.liveAfterCatchEntry)) &&
    keepsSafepoint b (blocks.any fun blk => blk.initialDefs.any fun d => d.defines v && d.isConstant) p.2

end Blocks

/-- Two members of a pairwise-related list are equal or related one way or
the other. -/
theorem pairwise_mem_total {α : Type} {R : α → α → Prop} :
    ∀ {l : List α}, l.Pairwise R → ∀ {a b : α}, a ∈ l → b ∈ l → a = b ∨ R a b ∨ R b a
  | [], _, _, _, ha, _ => absurd ha (List.not_mem_nil _)
  | x :: l, h, a, b, ha, hb => by
    rw [List.pairwise_cons] at h
    rcases List.mem_cons.1 ha with rfl | ha' <;> rcases List.mem_cons.1 hb with rfl | hb'
    · exact .inl rfl
    · exact .inr (.inl (h.1 b hb'))
    · exact .inr (.inr (h.1 a ha'))
    · exact pairwise_mem_total h.2 ha' hb'

/-- `v` is defined where an instruction says it is. -/
theorem DefinedAt.of_definesAt {blocks : List RangeBlock} {blk : RangeBlock} (hb : blk ∈ blocks) {v p : Nat}
    (h : blk.definesAt v p = true) : DefinedAt blocks v p := by
  obtain ⟨ins, hi, h⟩ := List.any_eq_true.1 h
  simp only [Bool.and_eq_true, beq_iff_eq, List.any_eq_true] at h
  obtain ⟨hp, o, ho, e⟩ := h
  exact ⟨blk, hb, .inl ⟨ins, hi, hp, List.mem_map.2 ⟨o, ho, e⟩⟩⟩

/-- A block with initial definitions defines at its entry their halves. -/
theorem RangeBlock.entryVregs_of_mem {blk : RangeBlock} {d : InitialDef} (hd : d ∈ blk.initialDefs) :
    blk.entryVregs = blk.initialDefs.flatMap fun d => d.vreg :: d.pairVreg.toList := by
  unfold RangeBlock.entryVregs
  split
  · next phis e => simp [RangeBlock.initialDefs, e] at hd
  · rfl

theorem InitialDef.defines_iff {d : InitialDef} {v : Nat} : d.defines v = true ↔ v ∈ d.vreg :: d.pairVreg.toList := by
  simp only [InitialDef.defines, Bool.or_eq_true, beq_iff_eq, List.mem_cons, Option.mem_toList, Option.mem_def]
  constructor <;> rintro (h | h) <;> simp_all [eq_comm]

theorem RangeBlock.mem_entryVregs {blk : RangeBlock} {d : InitialDef} (hd : d ∈ blk.initialDefs) {v : Nat}
    (hv : d.defines v = true) : v ∈ blk.entryVregs :=
  RangeBlock.entryVregs_of_mem hd ▸ List.mem_flatMap.2 ⟨d, hd, InitialDef.defines_iff.1 hv⟩

/-- `v` is defined at the entry of a block whose initial definition it is. -/
theorem DefinedAt.of_initial {blocks : List RangeBlock} {blk : RangeBlock} (hb : blk ∈ blocks) {d : InitialDef}
    (hd : d ∈ blk.initialDefs) {v : Nat} (hv : d.defines v = true) : DefinedAt blocks v blk.startPos :=
  ⟨blk, hb, .inr ⟨rfl, RangeBlock.mem_entryVregs hd hv⟩⟩

namespace BlocksWF
variable {b : BuildCtx} {blocks : List RangeBlock} {nV : Nat} (hwf : BlocksWF b blocks nV)
include hwf

/-- The positions inside a block, its instructions' and its goto's, lie two
after its entry and two before its end. -/
theorem inner_bounds {blk : RangeBlock} (hb : blk ∈ blocks) {x : Nat}
    (hx : x ∈ blk.instrs.map (·.pos) ++ (blk.gotoMoves.map (·.1)).toList) :
    blk.startPos + 2 ≤ x ∧ x + 2 ≤ blk.endPos :=
  have h := List.pairwise_cons.1 (hwf.laid blk hb)
  ⟨h.1 _ (List.mem_append_left _ hx), (List.pairwise_append.1 h.2).2.2 _ hx _ (List.mem_singleton_self _)⟩

/-- An instruction lies two positions after its block's entry and two before
its end. -/
theorem instr_bounds {blk : RangeBlock} {ins : RangeInstr} (hb : blk ∈ blocks) (hi : ins ∈ blk.instrs) :
    blk.startPos + 2 ≤ ins.pos ∧ ins.pos + 2 ≤ blk.endPos :=
  hwf.inner_bounds hb (List.mem_append_left _ (List.mem_map_of_mem _ hi))

/-- So does a goto. -/
theorem goto_bounds {blk : RangeBlock} {g : Nat × List OutgoingPhiInput} (hb : blk ∈ blocks) (hg : g ∈ blk.gotoMoves) :
    blk.startPos + 2 ≤ g.1 ∧ g.1 + 2 ≤ blk.endPos :=
  hwf.inner_bounds hb (List.mem_append_right _ (by simp [Option.mem_def.1 hg]))

theorem start_add_two_le_end {blk : RangeBlock} (hb : blk ∈ blocks) : blk.startPos + 2 ≤ blk.endPos :=
  (List.pairwise_cons.1 (hwf.laid blk hb)).1 _ (List.mem_append_right _ (List.mem_singleton_self _))

/-- A block's instructions are in position order, two apart. -/
theorem instrs_pairwise {blk : RangeBlock} (hb : blk ∈ blocks) :
    blk.instrs.Pairwise fun a b => a.pos + 2 ≤ b.pos :=
  List.pairwise_map.1 (List.pairwise_append.1 (List.pairwise_append.1 (List.pairwise_cons.1 (hwf.laid blk hb)).2).1).1

/-- A goto comes two after every instruction of its block. -/
theorem instr_before_goto {blk : RangeBlock} {ins : RangeInstr} {g : Nat × List OutgoingPhiInput} (hb : blk ∈ blocks)
    (hi : ins ∈ blk.instrs) (hg : g ∈ blk.gotoMoves) : ins.pos + 2 ≤ g.1 :=
  (List.pairwise_append.1 (List.pairwise_append.1 (List.pairwise_cons.1 (hwf.laid blk hb)).2).1).2.2 _
    (List.mem_map_of_mem _ hi) _ (by simp [Option.mem_def.1 hg])

theorem start_even {blk : RangeBlock} (hb : blk ∈ blocks) : blk.startPos % 2 = 0 :=
  hwf.even blk hb _ (List.mem_cons_self _ _)

theorem instr_even {blk : RangeBlock} {ins : RangeInstr} (hb : blk ∈ blocks) (hi : ins ∈ blk.instrs) :
    ins.pos % 2 = 0 :=
  hwf.even blk hb _ (List.mem_cons_of_mem _ (List.mem_append_left _ (List.mem_append_left _ (List.mem_map_of_mem _ hi))))

theorem goto_even {blk : RangeBlock} {g : Nat × List OutgoingPhiInput} (hb : blk ∈ blocks) (hg : g ∈ blk.gotoMoves) :
    g.1 % 2 = 0 :=
  hwf.even blk hb _ (List.mem_cons_of_mem _ (List.mem_append_left _ (List.mem_append_right _ (by simp [Option.mem_def.1 hg]))))

/-- Definitions are at even positions. -/
theorem def_even {v d : Nat} (hd : DefinedAt blocks v d) : d % 2 = 0 := by
  obtain ⟨blk, hb, ⟨ins, hi, rfl, -⟩ | ⟨rfl, -⟩⟩ := hd
  · exact hwf.instr_even hb hi
  · exact hwf.start_even hb

/-- A block is determined by its entry. -/
theorem eq_of_startPos {b₁ b₂ : RangeBlock} (hb₁ : b₁ ∈ blocks) (hb₂ : b₂ ∈ blocks)
    (h : b₁.startPos = b₂.startPos) : b₁ = b₂ := by
  have := hwf.start_add_two_le_end hb₁
  have := hwf.start_add_two_le_end hb₂
  rcases pairwise_mem_total hwf.ordered hb₁ hb₂ with e | h' | h'
  · exact e
  · omega
  · omega

/-- No instruction sits at a block's entry. -/
theorem instr_ne_startPos {b₁ b₂ : RangeBlock} {ins : RangeInstr} (hb₁ : b₁ ∈ blocks) (hb₂ : b₂ ∈ blocks)
    (hi : ins ∈ b₁.instrs) : ins.pos ≠ b₂.startPos := by
  have := hwf.instr_bounds hb₁ hi
  have := hwf.start_add_two_le_end hb₂
  rcases pairwise_mem_total hwf.ordered hb₁ hb₂ with rfl | h | h <;> omega

/-- A value an instruction defines is defined by no other instruction. -/
theorem any_definesAt_of_instr {blk : RangeBlock} {ins : RangeInstr} (hb : blk ∈ blocks) (hi : ins ∈ blk.instrs)
    {n : Nat} (hn : (n : Int) ∈ ins.outs.map Prod.fst) (x : Nat) :
    (blocks.any fun blk => blk.definesAt n x) = (x == ins.pos) := by
  refine Bool.eq_iff_iff.2 ⟨fun h => ?_, fun h => List.any_eq_true.2 ⟨blk, hb, List.any_eq_true.2 ⟨ins, hi, ?_⟩⟩⟩
  · obtain ⟨blk', hb', h⟩ := List.any_eq_true.1 h
    exact beq_iff_eq.2 (hwf.def_unique n _ _ (DefinedAt.of_definesAt hb' h) ⟨blk, hb, .inl ⟨ins, hi, rfl, hn⟩⟩)
  · obtain ⟨o, ho, e⟩ := List.mem_map.1 hn
    simp only [beq_iff_eq.1 h, beq_self_eq_true, Bool.true_and, List.any_eq_true, beq_iff_eq]
    exact ⟨o, ho, e⟩

/-- A value a block's entry defines is defined by no instruction. -/
theorem not_definesAt_of_entry {blk : RangeBlock} (hb : blk ∈ blocks) {v : Nat} (hv : v ∈ blk.entryVregs)
    (x : Nat) : (blocks.any fun blk => blk.definesAt v x) = false := by
  refine List.any_eq_false.2 fun blk' hb' h => ?_
  obtain ⟨ins, hi, h⟩ := List.any_eq_true.1 h
  simp only [Bool.and_eq_true, beq_iff_eq, List.any_eq_true] at h
  obtain ⟨rfl, o, ho, e⟩ := h
  exact hwf.instr_ne_startPos hb' hb hi
    (hwf.def_unique v _ _ ⟨blk', hb', .inl ⟨ins, hi, rfl, List.mem_map.2 ⟨o, ho, e⟩⟩⟩ ⟨blk, hb, .inr ⟨rfl, hv⟩⟩)

/-- No initial definition defines a value defined at an instruction or at a
join's entry. -/
theorem not_initial {v d₀ : Nat} (hd : DefinedAt blocks v d₀)
    (hne : ∀ blk ∈ blocks, blk.startPos = d₀ → blk.initialDefs = []) (g : RangeBlock → InitialDef → Bool) :
    (blocks.any fun blk => blk.initialDefs.any fun d => d.defines v && g blk d) = false := by
  refine List.any_eq_false.2 fun blk hb h => ?_
  obtain ⟨d, hd', h⟩ := List.any_eq_true.1 h
  rw [Bool.and_eq_true] at h
  have e := hwf.def_unique v _ _ (DefinedAt.of_initial hb hd' h.1) hd
  simp [hne blk hb e] at hd'

/-- An instruction's position is no block's entry. -/
theorem initialDefs_of_instr {blk : RangeBlock} {ins : RangeInstr} (hb : blk ∈ blocks) (hi : ins ∈ blk.instrs) :
    ∀ blk' ∈ blocks, blk'.startPos = ins.pos → blk'.initialDefs = [] :=
  fun _ hb' e => absurd e.symm (hwf.instr_ne_startPos hb hb' hi)

/-- A join's entry is the entry of no block with initial definitions. -/
theorem initialDefs_of_join {blk : RangeBlock} {phis : List PhiDef} (hb : blk ∈ blocks) (hk : blk.kind = .join phis) :
    ∀ blk' ∈ blocks, blk'.startPos = blk.startPos → blk'.initialDefs = [] := by
  intro blk' hb' e
  rw [hwf.eq_of_startPos hb' hb e, RangeBlock.initialDefs, hk]

/-- The initial definition of a value is the only one. -/
theorem initial_unique {blk : RangeBlock} {d : InitialDef} (hb : blk ∈ blocks) (hd : d ∈ blk.initialDefs)
    {v : Nat} (hv : d.defines v = true) :
    ∀ blk' ∈ blocks, ∀ d' ∈ blk'.initialDefs, d'.defines v = true → blk' = blk ∧ d' = d := by
  intro blk' hb' d' hd' hv'
  obtain rfl := hwf.eq_of_startPos hb' hb
    (hwf.def_unique v _ _ (DefinedAt.of_initial hb' hd' hv') (DefinedAt.of_initial hb hd hv))
  refine ⟨rfl, ?_⟩
  have hnd := hwf.entry_nodup blk' hb'
  rw [RangeBlock.entryVregs_of_mem hd, List.nodup_flatMap] at hnd
  rcases pairwise_mem_total hnd.2 hd' hd with e | h | h
  · exact e
  · exact absurd (InitialDef.defines_iff.1 hv) (h (InitialDef.defines_iff.1 hv'))
  · exact absurd (InitialDef.defines_iff.1 hv') (h (InitialDef.defines_iff.1 hv))

/-- Over the only initial definition `d` of `v`, in block `blk`, a scan of the
initial definitions that define `v` reads `d`'s. -/
theorem any_initial_eq {blk : RangeBlock} {d : InitialDef} (hb : blk ∈ blocks) (hd : d ∈ blk.initialDefs)
    {v : Nat} (hv : d.defines v = true) (g : RangeBlock → InitialDef → Bool) :
    (blocks.any fun blk => blk.initialDefs.any fun d => d.defines v && g blk d) = g blk d := by
  refine Bool.eq_iff_iff.2 ⟨fun h => ?_, fun h => List.any_eq_true.2 ⟨blk, hb, List.any_eq_true.2 ⟨d, hd, by
    rw [hv, h]; rfl⟩⟩⟩
  obtain ⟨blk', hb', h⟩ := List.any_eq_true.1 h
  obtain ⟨d', hd', h⟩ := List.any_eq_true.1 h
  rw [Bool.and_eq_true] at h
  obtain ⟨rfl, rfl⟩ := hwf.initial_unique hb hd hv blk' hb' d' hd' h.1
  exact h.2

/-- The safepoints kept for a value an instruction defines are all but the
instruction's own. -/
theorem safepointKept_of_instr {blk : RangeBlock} {ins : RangeInstr} (hb : blk ∈ blocks)
    (hi : ins ∈ blk.instrs) {n : Nat} (hn : (n : Int) ∈ ins.outs.map Prod.fst) (p : Nat × Nat) :
    safepointKept b blocks n p = (p.1 != ins.pos) := by
  have hd : DefinedAt blocks n ins.pos := ⟨blk, hb, .inl ⟨ins, hi, rfl, hn⟩⟩
  unfold safepointKept
  rw [hwf.any_definesAt_of_instr hb hi hn, hwf.not_initial hd (hwf.initialDefs_of_instr hb hi),
    hwf.not_initial hd (hwf.initialDefs_of_instr hb hi)]
  simp [keepsSafepoint, bne]

/-- A phi keeps every safepoint. -/
theorem safepointKept_of_join {blk : RangeBlock} {phis : List PhiDef} (hb : blk ∈ blocks)
    (hk : blk.kind = .join phis) {v : Nat} (hv : v ∈ blk.entryVregs) (p : Nat × Nat) :
    safepointKept b blocks v p = true := by
  have hd : DefinedAt blocks v blk.startPos := ⟨blk, hb, .inr ⟨rfl, hv⟩⟩
  unfold safepointKept
  rw [hwf.not_definesAt_of_entry hb hv, hwf.not_initial hd (hwf.initialDefs_of_join hb hk),
    hwf.not_initial hd (hwf.initialDefs_of_join hb hk)]
  simp [keepsSafepoint]

/-- An initial definition keeps every safepoint but its own catch entry, for
an exception or stack-trace parameter, and, for a constant, the calls that
always call and are not callee-safe. -/
theorem safepointKept_of_initial {blk : RangeBlock} {d : InitialDef} (hb : blk ∈ blocks) (hd : d ∈ blk.initialDefs)
    {v : Nat} (hv : d.defines v = true) (p : Nat × Nat) :
    safepointKept b blocks v p =
      (!(blk.startPos == p.1 && d.liveAfterCatchEntry) && keepsSafepoint b d.isConstant p.2) := by
  unfold safepointKept
  rw [hwf.not_definesAt_of_entry hb (RangeBlock.mem_entryVregs hd hv), hwf.any_initial_eq hb hd hv,
    hwf.any_initial_eq hb hd hv]
  rfl

end BlocksWF

/-! ## The invariant of the walk -/

section Inv
variable (b : BuildCtx) (blocks : List RangeBlock)

/-- The range of a value whose definition is still ahead of the walk:
separated intervals, uses in order and in hulls, no safepoint and no constant
spill slot yet, nothing at or before its definition, every interval starting
at or before a read of the value, and every use strictly inside a block. -/
structure ValueOpen (v : Nat) (r : LiveRange) : Prop where
  separated : r.Separated
  ordered : r.UsesOrdered
  inHull : r.UsesInHull
  safepoints : r.safepoints = []
  notConstant : r.spillSlot.isConstant = false
  afterDef : ∀ d, DefinedAt blocks v d → (∀ iv ∈ r.intervals, d < iv.stop) ∧ ∀ u ∈ r.uses, d < u.pos
  justified : ∀ iv ∈ r.intervals, ∃ p, iv.start ≤ p ∧ ReadAt b blocks v p
  inside : ∀ u ∈ r.uses, ∃ blk ∈ blocks, blk.startPos < u.pos ∧ u.pos < blk.endPos

/-- A blocking range in the shape `shape` asks of it: intervals, no use and no
safepoint. -/
structure Blocking (shape : LiveRange → Prop) (r : LiveRange) : Prop where
  shape : shape r
  separated : r.Separated
  ne_nil : r.intervals ≠ []
  uses : r.uses = []
  safepoints : r.safepoints = []
  vreg : r.vreg = kNoVirtualRegister

/-- A range in the worklist: well formed, and either a temporary without
safepoints, or a value defined at or after `c` whose safepoints are the ones of
`sps` it contains and keeps. -/
def Queued (sps : List (Nat × Nat)) (c : Nat) (r : LiveRange) : Prop :=
  r.WellFormed ∧ ((r.vreg = kTempVirtualRegister ∧ r.safepoints = []) ∨
    ∃ v d : Nat, r.vreg = v ∧ DefinedAt blocks v d ∧ c ≤ d ∧ d ≤ r.start ∧
      r.safepoints = LiveRange.coveredSafepoints sps (safepointKept b blocks v) r)

/-- What the walk keeps, every position from `c` on done. Values `v < nV` are
ranges `v`; an open value's range has the shape `shape v`, and blocking
ranges the shape `bshape`; recorded safepoints are two apart, at `S` or later. -/
structure BuildInv (nV : Nat) (shape : Nat → LiveRange → Prop) (bshape : LiveRange → Prop) (c S : Nat)
    (s : BuildState) : Prop where
  liveRanges : ∀ v : Nat, s.alloc.liveRanges v = v
  fresh : nV ≤ s.alloc.fresh
  vreg : ∀ j < nV, (s.alloc.ranges j).vreg = j
  open_ : ∀ v < nV, Open blocks c v → ValueOpen b blocks v (s.alloc.ranges v) ∧ shape v (s.alloc.ranges v)
  blocking : ∀ k reg id, s.blocking k reg = some id → id < s.alloc.fresh ∧ Blocking bshape (s.alloc.ranges id)
  queued : ∀ k, ∀ id ∈ s.unallocatedOf k, id < s.alloc.fresh ∧ Queued b blocks s.safepoints c (s.alloc.ranges id)
  spsGap : s.safepoints.Pairwise fun a b => b.1 + 2 ≤ a.1
  spsGe : ∀ p ∈ s.safepoints, S ≤ p.1
  spsEven : ∀ p ∈ s.safepoints, p.1 % 2 = 0

end Inv

/-! ## Frame lemmas -/

namespace BuildState
variable (s : BuildState) (id : Nat) (f : LiveRange → LiveRange)

@[simp] theorem updRange_blocking : (s.updRange id f).blocking = s.blocking := rfl
@[simp] theorem updRange_unallocatedOf : (s.updRange id f).unallocatedOf = s.unallocatedOf := rfl
@[simp] theorem updRange_safepoints : (s.updRange id f).safepoints = s.safepoints := rfl
@[simp] theorem updRange_fresh : (s.updRange id f).alloc.fresh = s.alloc.fresh := rfl
@[simp] theorem updRange_liveRanges : (s.updRange id f).alloc.liveRanges = s.alloc.liveRanges := rfl
@[simp] theorem setSlot_liveRanges (k : Nat) (l : Location) :
    (s.setSlot k l).alloc.liveRanges = s.alloc.liveRanges := rfl
@[simp] theorem addMoveAt_ranges (p : Nat) (d l : Location) :
    (s.addMoveAt p d l).1.alloc.ranges = s.alloc.ranges := rfl
@[simp] theorem addMoveAt_liveRanges (p : Nat) (d l : Location) :
    (s.addMoveAt p d l).1.alloc.liveRanges = s.alloc.liveRanges := rfl

end BuildState

/-- Two states with the same ranges, worklists, blocking ranges and recorded
safepoints: the steps that only write location slots, moves and location
summaries. -/
structure SameRanges (s s' : BuildState) : Prop where
  ranges : s'.alloc.ranges = s.alloc.ranges
  fresh : s'.alloc.fresh = s.alloc.fresh
  liveRanges : s'.alloc.liveRanges = s.alloc.liveRanges
  blocking : s'.blocking = s.blocking
  unallocatedOf : s'.unallocatedOf = s.unallocatedOf
  safepoints : s'.safepoints = s.safepoints

theorem sameRanges_setSlot (s : BuildState) (k : Nat) (l : Location) : SameRanges s (s.setSlot k l) :=
  ⟨rfl, rfl, rfl, rfl, rfl, rfl⟩

theorem sameRanges_addMoveAt (s : BuildState) (pos : Nat) (d l : Location) :
    SameRanges s (s.addMoveAt pos d l).1 :=
  ⟨rfl, rfl, rfl, rfl, rfl, rfl⟩

theorem sameRanges_addLiveRegister (s : BuildState) (k : Nat) (l : Location) (rep : Representation) :
    SameRanges s (s.addLiveRegister k l rep) :=
  ⟨rfl, rfl, rfl, rfl, rfl, rfl⟩

theorem mem_of_mem_insertIdx {α : Type} {l : List α} {n : Nat} {x y : α} (h : x ∈ l.insertIdx n y) :
    x = y ∨ x ∈ l := by
  by_cases hn : n ≤ l.length
  · exact (List.mem_insertIdx hn).1 h
  · rw [List.insertIdx_of_length_lt _ _ _ (by omega)] at h
    exact .inr h

/-- `CompleteRange(range, kind)` resets the range's finger and puts it on its
class's worklist. -/
theorem completeRange_spec (s : BuildState) (id : Nat) (k : RegisterKind) (hk : k ≠ .invalid) :
    let s' := completeRange s id k
    (∀ j, s'.alloc.ranges j = if j = id then
        { s.alloc.ranges id with finger := Finger.reset (s.alloc.ranges id) } else s.alloc.ranges j) ∧
      s'.alloc.fresh = s.alloc.fresh ∧ s'.alloc.liveRanges = s.alloc.liveRanges ∧
      s'.blocking = s.blocking ∧ s'.safepoints = s.safepoints ∧
      ∀ k' x, x ∈ s'.unallocatedOf k' → x = id ∨ x ∈ s.unallocatedOf k' := by
  unfold completeRange addToUnallocated
  rw [if_neg hk]
  refine ⟨fun j => rfl, rfl, rfl, rfl, rfl, fun k' x hx => ?_⟩
  dsimp only at hx
  split_ifs at hx with hk'
  · subst hk'
    exact mem_of_mem_insertIdx hx
  · exact .inr hx

/-- Being queued does not read the finger. -/
theorem queued_finger {b : BuildCtx} {blocks : List RangeBlock} {sps : List (Nat × Nat)} {c : Nat} {r : LiveRange} (f : Finger) :
    Queued b blocks sps c { r with finger := f } ↔ Queued b blocks sps c r := by
  constructor <;> rintro ⟨⟨h1, h2, h3, h4⟩, h5⟩ <;> exact ⟨⟨h1, h2, h3, h4⟩, h5⟩

section Frame
variable {b : BuildCtx} {blocks : List RangeBlock} {nV : Nat} {shape : Nat → LiveRange → Prop} {bshape : LiveRange → Prop}
  {c S : Nat} {s s' : BuildState}

theorem BuildInv.of_sameRanges (h : BuildInv b blocks nV shape bshape c S s) (e : SameRanges s s') :
    BuildInv b blocks nV shape bshape c S s' := by
  obtain ⟨e1, e2, e3, e4, e5, e6⟩ := e
  obtain ⟨h1, h2, h3, h4, h5, h6, h7, h8, h9⟩ := h
  exact ⟨by rw [e3]; exact h1, by rw [e2]; exact h2, by rw [e1]; exact h3, by rw [e1]; exact h4,
    by rw [e4, e1, e2]; exact h5, by rw [e5, e1, e2, e6]; exact h6, by rw [e6]; exact h7,
    by rw [e6]; exact h8, by rw [e6]; exact h9⟩

/-- The walk may always claim less: fewer open values, weaker shapes, an
earlier bound on the recorded safepoints. -/
theorem BuildInv.weaken {shape' : Nat → LiveRange → Prop} {bshape' : LiveRange → Prop} {c' S' : Nat}
    (h : BuildInv b blocks nV shape bshape c S s) (hc : c' ≤ c) (hS : S' ≤ S)
    (hsh : ∀ v r, shape v r → shape' v r) (hbsh : ∀ r, bshape r → bshape' r) :
    BuildInv b blocks nV shape' bshape' c' S' s where
  liveRanges := h.liveRanges
  fresh := h.fresh
  vreg := h.vreg
  open_ v hv ho :=
    have := h.open_ v hv fun d hd => (ho d hd).trans_le hc
    ⟨this.1, hsh _ _ this.2⟩
  blocking k reg id hb :=
    have := h.blocking k reg id hb
    ⟨this.1, { this.2 with shape := hbsh _ this.2.shape }⟩
  queued k id hq := by
    obtain ⟨hlt, hwf, hk⟩ := h.queued k id hq
    refine ⟨hlt, hwf, hk.imp_right fun ⟨v, d, h1, h2, h3, h4⟩ => ⟨v, d, h1, h2, hc.trans h3, h4⟩⟩
  spsGap := h.spsGap
  spsGe p hp := hS.trans (h.spsGe p hp)
  spsEven := h.spsEven

/-- A blocking range is no value range. -/
theorem BuildInv.blocking_ne (h : BuildInv b blocks nV shape bshape c S s) {k : RegisterKind} {reg id v : Nat}
    (hb : s.blocking k reg = some id) (hv : v < nV) : id ≠ v := by
  rintro rfl
  have := (h.blocking k reg id hb).2.vreg
  rw [h.vreg id hv] at this
  simp [kNoVirtualRegister] at this

/-- A queued range is no open value's range. -/
theorem BuildInv.queued_ne_open (h : BuildInv b blocks nV shape bshape c S s) {k : RegisterKind} {id v : Nat}
    (hq : id ∈ s.unallocatedOf k) (hv : v < nV) (ho : Open blocks c v) : id ≠ v := by
  rintro rfl
  obtain ⟨-, -, hk⟩ := h.queued k id hq
  rw [h.vreg id hv] at hk
  rcases hk with ⟨hk, -⟩ | ⟨v', d, hv', hd, hcd, -⟩
  · simp [kTempVirtualRegister] at hk
  · obtain rfl : v' = id := by exact_mod_cast hv'.symm
    exact absurd (ho d hd) (by omega)

/-- A queued range is no blocking range. -/
theorem BuildInv.blocking_ne_queued (h : BuildInv b blocks nV shape bshape c S s) {k k' : RegisterKind}
    {reg id id' : Nat}
    (hb : s.blocking k reg = some id) (hq : id' ∈ s.unallocatedOf k') : id ≠ id' := by
  rintro rfl
  have hv := (h.blocking k reg id hb).2.vreg
  obtain ⟨-, -, hk⟩ := h.queued k' id hq
  rcases hk with ⟨hk, -⟩ | ⟨v', d, hv', -⟩
  · rw [hv] at hk; simp [kNoVirtualRegister, kTempVirtualRegister] at hk
  · rw [hv] at hv'; simp [kNoVirtualRegister] at hv'

/-- Editing an open value's range into one that is still open. -/
theorem BuildInv.editOpen (h : BuildInv b blocks nV shape bshape c S s) {v : Nat} (hv : v < nV)
    (ho : Open blocks c v) {f : LiveRange → LiveRange}
    (hvo : ValueOpen b blocks v (f (s.alloc.ranges v))) (hsh : shape v (f (s.alloc.ranges v)))
    (hvreg : (f (s.alloc.ranges v)).vreg = v) :
    BuildInv b blocks nV shape bshape c S (s.updRange v f) where
  liveRanges := h.liveRanges
  fresh := h.fresh
  vreg j hj := by
    simp only [BuildState.updRange_ranges]
    split_ifs with e
    · exact e ▸ hvreg
    · exact h.vreg j hj
  open_ v' hv' ho' := by
    simp only [BuildState.updRange_ranges]
    split_ifs with e
    · subst e; exact ⟨hvo, hsh⟩
    · exact h.open_ v' hv' ho'
  blocking k reg id hb := by
    simp only [BuildState.updRange_ranges, if_neg (h.blocking_ne hb hv)]
    exact h.blocking k reg id hb
  queued k id hq := by
    simp only [BuildState.updRange_ranges, if_neg (h.queued_ne_open hq hv ho)]
    exact h.queued k id hq
  spsGap := h.spsGap
  spsGe := h.spsGe
  spsEven := h.spsEven

/-- Editing the range of a value whose definition the walk has passed and
that is not queued yet, keeping its vreg. -/
theorem BuildInv.editClosed (h : BuildInv b blocks nV shape bshape c S s) {v : Nat} (hv : v < nV)
    (hc : ¬Open blocks c v) (hq : ∀ k, v ∉ s.unallocatedOf k) {f : LiveRange → LiveRange}
    (hvreg : (f (s.alloc.ranges v)).vreg = v) :
    BuildInv b blocks nV shape bshape c S (s.updRange v f) where
  liveRanges := h.liveRanges
  fresh := h.fresh
  vreg j hj := by
    simp only [BuildState.updRange_ranges]
    split_ifs with e
    · exact e ▸ hvreg
    · exact h.vreg j hj
  open_ v' hv' ho' := by
    have : v' ≠ v := by rintro rfl; exact hc ho'
    simp only [BuildState.updRange_ranges, if_neg this]
    exact h.open_ v' hv' ho'
  blocking k reg id hb := by
    simp only [BuildState.updRange_ranges, if_neg (h.blocking_ne hb hv)]
    exact h.blocking k reg id hb
  queued k id hq' := by
    have : id ≠ v := by rintro rfl; exact hq k hq'
    simp only [BuildState.updRange_ranges, if_neg this]
    exact h.queued k id hq'
  spsGap := h.spsGap
  spsGe := h.spsGe
  spsEven := h.spsEven

/-- A range id nothing refers to yet: above the values, allocated, neither
queued nor blocking. -/
structure Free (nV : Nat) (s : BuildState) (id : Nat) : Prop where
  ge : nV ≤ id
  lt : id < s.alloc.fresh
  not_queued : ∀ k, id ∉ s.unallocatedOf k
  not_blocking : ∀ k reg, s.blocking k reg ≠ some id

theorem Free.of_sameRanges {id : Nat} (h : Free nV s id) (e : SameRanges s s') : Free nV s' id :=
  ⟨h.ge, e.fresh ▸ h.lt, e.unallocatedOf ▸ h.not_queued, e.blocking ▸ h.not_blocking⟩

theorem Free.updRange {id j : Nat} {f : LiveRange → LiveRange} (h : Free nV s id) :
    Free nV (s.updRange j f) id :=
  ⟨h.ge, h.lt, h.not_queued, h.not_blocking⟩

/-- A new range at `fresh` is free, and nothing else changes. -/
theorem BuildInv.newRange (h : BuildInv b blocks nV shape bshape c S s) (r : LiveRange) :
    BuildInv b blocks nV shape bshape c S (s.newRange r).1 ∧ Free nV (s.newRange r).1 (s.newRange r).2 := by
  have hne : ∀ j, j < s.alloc.fresh → (s.newRange r).1.alloc.ranges j = s.alloc.ranges j :=
    fun j hj => by simp [BuildState.newRange, AllocState.setRange, Nat.ne_of_lt hj]
  have hfresh : (s.newRange r).1.alloc.fresh = s.alloc.fresh + 1 := rfl
  have hid : (s.newRange r).2 = s.alloc.fresh := rfl
  rw [hid]
  refine ⟨⟨h.liveRanges, by rw [hfresh]; exact h.fresh.trans (Nat.le_succ _),
    fun j hj => by rw [hne j (hj.trans_le h.fresh)]; exact h.vreg j hj,
    fun v hv ho => by rw [hne v (hv.trans_le h.fresh)]; exact h.open_ v hv ho,
    fun k reg id hb => ?_, fun k id hq => ?_, h.spsGap, h.spsGe, h.spsEven⟩, ⟨h.fresh, by rw [hfresh]; omega,
      fun k hq => ?_, fun k reg hb => ?_⟩⟩
  · obtain ⟨hlt, hbl⟩ := h.blocking k reg id hb
    exact ⟨by rw [hfresh]; omega, by rw [hne id hlt]; exact hbl⟩
  · obtain ⟨hlt, hql⟩ := h.queued k id hq
    exact ⟨by rw [hfresh]; omega, by rw [hne id hlt]; exact hql⟩
  · exact absurd (h.queued k _ hq).1 (lt_irrefl _)
  · exact absurd (h.blocking k reg _ hb).1 (lt_irrefl _)

/-- Editing a free range keeps the invariant. -/
theorem BuildInv.editFree (h : BuildInv b blocks nV shape bshape c S s) {id : Nat} (hf : Free nV s id)
    (f : LiveRange → LiveRange) : BuildInv b blocks nV shape bshape c S (s.updRange id f) where
  liveRanges := h.liveRanges
  fresh := h.fresh
  vreg j hj := by
    simp only [BuildState.updRange_ranges, if_neg (by have := hf.ge; omega : j ≠ id)]
    exact h.vreg j hj
  open_ v hv ho := by
    simp only [BuildState.updRange_ranges, if_neg (by have := hf.ge; omega : v ≠ id)]
    exact h.open_ v hv ho
  blocking k reg id' hb := by
    have : id' ≠ id := by rintro rfl; exact hf.not_blocking k reg hb
    simp only [BuildState.updRange_ranges, if_neg this]
    exact h.blocking k reg id' hb
  queued k id' hq := by
    have : id' ≠ id := by rintro rfl; exact hf.not_queued k hq
    simp only [BuildState.updRange_ranges, if_neg this]
    exact h.queued k id' hq
  spsGap := h.spsGap
  spsGe := h.spsGe
  spsEven := h.spsEven

/-- Queueing a finished range that is neither blocking nor an open value. -/
theorem BuildInv.complete (h : BuildInv b blocks nV shape bshape c S s) {id : Nat} {k : RegisterKind}
    (hid : id < s.alloc.fresh) (hq : Queued b blocks s.safepoints c (s.alloc.ranges id))
    (hopen : id < nV → ¬Open blocks c id) (hb : ∀ k reg, s.blocking k reg ≠ some id) :
    BuildInv b blocks nV shape bshape c S (completeRange s id k) := by
  by_cases hk : k = .invalid
  · simpa [completeRange, hk] using h
  obtain ⟨hr, hf, hl, hbl, hsp, hu⟩ := completeRange_spec s id k hk
  refine ⟨by rw [hl]; exact h.liveRanges, hf ▸ h.fresh, fun j hj => ?_, fun v hv ho => ?_,
    fun k' reg id' hb' => ?_, fun k' x hx => ?_, hsp ▸ h.spsGap, hsp ▸ h.spsGe, hsp ▸ h.spsEven⟩
  · rw [hr]; split_ifs with e
    · subst e; exact h.vreg _ hj
    · exact h.vreg j hj
  · have : v ≠ id := by rintro rfl; exact hopen hv ho
    rw [hr, if_neg this]; exact h.open_ v hv ho
  · rw [hbl] at hb'
    have : id' ≠ id := by rintro rfl; exact hb k' reg hb'
    rw [hr, if_neg this, hf]; exact h.blocking k' reg id' hb'
  · rw [hr, hf, hsp]
    rcases hu k' x hx with rfl | hx
    · rw [if_pos rfl]; exact ⟨hid, (queued_finger _).2 hq⟩
    · split_ifs with e
      · subst e; exact ⟨hid, (queued_finger _).2 hq⟩
      · exact h.queued k' x hx

/-- Editing a blocking range into one that is still blocking. -/
theorem BuildInv.editBlocking (h : BuildInv b blocks nV shape bshape c S s) {k : RegisterKind} {reg id : Nat}
    (hb : s.blocking k reg = some id) {g : LiveRange → LiveRange}
    (hg : Blocking bshape (s.alloc.ranges id) → Blocking bshape (g (s.alloc.ranges id))) :
    BuildInv b blocks nV shape bshape c S (s.updRange id g) where
  liveRanges := h.liveRanges
  fresh := h.fresh
  vreg j hj := by
    simp only [BuildState.updRange_ranges, if_neg (h.blocking_ne hb hj).symm]
    exact h.vreg j hj
  open_ v hv ho := by
    simp only [BuildState.updRange_ranges, if_neg (h.blocking_ne hb hv).symm]
    exact h.open_ v hv ho
  blocking k' reg' id' hb' := by
    simp only [BuildState.updRange_ranges]
    split_ifs with e
    · subst e; exact ⟨(h.blocking k' reg' id' hb').1, hg (h.blocking k reg id' hb).2⟩
    · exact h.blocking k' reg' id' hb'
  queued k' id' hq := by
    simp only [BuildState.updRange_ranges, if_neg (h.blocking_ne_queued hb hq).symm]
    exact h.queued k' id' hq
  spsGap := h.spsGap
  spsGe := h.spsGe
  spsEven := h.spsEven

/-- A free range becomes the blocking range of register `reg`. -/
theorem BuildInv.addBlocking (h : BuildInv b blocks nV shape bshape c S s) {id : Nat} (hf : Free nV s id)
    {k : RegisterKind} {reg : Nat} {g : LiveRange → LiveRange} (hr : Blocking bshape (g (s.alloc.ranges id))) :
    BuildInv b blocks nV shape bshape c S
      ({ s with blocking := fun k' r' => if k' = k ∧ r' = reg then some id else s.blocking k' r' }.updRange id g) where
  liveRanges := h.liveRanges
  fresh := h.fresh
  vreg j hj := by
    simp only [BuildState.updRange_ranges, if_neg (by have := hf.ge; omega : j ≠ id)]
    exact h.vreg j hj
  open_ v hv ho := by
    simp only [BuildState.updRange_ranges, if_neg (by have := hf.ge; omega : v ≠ id)]
    exact h.open_ v hv ho
  blocking k' reg' id' hb' := by
    simp only [BuildState.updRange_ranges, BuildState.updRange_blocking, BuildState.updRange_fresh] at hb' ⊢
    split_ifs at hb' with e
    · cases hb'; exact ⟨hf.lt, by rw [if_pos rfl]; exact hr⟩
    · have : id' ≠ id := by rintro rfl; exact hf.not_blocking k' reg' hb'
      rw [if_neg this]; exact h.blocking k' reg' id' hb'
  queued k' id' hq := by
    have : id' ≠ id := by rintro rfl; exact hf.not_queued k' hq
    simp only [BuildState.updRange_ranges, if_neg this]
    exact h.queued k' id' hq
  spsGap := h.spsGap
  spsGe := h.spsGe
  spsEven := h.spsEven

end Frame

section Blocking
variable (b : BuildCtx) {blocks : List RangeBlock} {nV : Nat} {shape : Nat → LiveRange → Prop} {c S lo f t : Nat}
  {s : BuildState}

theorem LiveRange.addUseInterval_ne_nil {r : LiveRange} {a e : Nat} (h : r.intervals ≠ []) :
    (r.addUseInterval a e).intervals ≠ [] := by
  obtain ⟨iv, hiv⟩ := List.exists_mem_of_ne_nil _ h
  obtain ⟨jv, hjv, -⟩ := LiveRange.addUseInterval_widens (s := a) (e := e) hiv
  exact List.ne_nil_of_mem hjv

/-- `AddUseInterval(f, t)` keeps a blocking range at its instruction. -/
theorem Blocking.addUseInterval {r : LiveRange} (h : Blocking (fun r => r.BlockingAt lo f t) r)
    (hlo : lo ≤ f) (hft : f < t) : Blocking (fun r => r.BlockingAt lo f t) (r.addUseInterval f t) :=
  have hb := h.shape.addUseInterval hlo hft
  ⟨hb, hb.1, LiveRange.addUseInterval_ne_nil h.ne_nil, by simp [h.uses], by simp [h.safepoints],
    by simp [h.vreg]⟩

/-- `BlockLocation(loc, f, t)` keeps the invariant at an instruction blocking `[f, t)`. -/
theorem BuildInv.blockLocation (h : BuildInv b blocks nV shape (fun r => r.BlockingAt lo f t) c S s)
    (loc : Location) (hlo : lo ≤ f) (hft : f < t) :
    BuildInv b blocks nV shape (fun r => r.BlockingAt lo f t) c S (blockLocation b s loc f t) := by
  unfold LinearScan.blockLocation
  dsimp only
  split_ifs with hbl
  · exact h
  split
  · rename_i id hb
    exact h.editBlocking hb fun hr => hr.addUseInterval hlo hft
  · obtain ⟨h1, hf⟩ := h.newRange { LiveRange.make kNoVirtualRegister .noRepresentation with assigned := loc }
    refine h1.addBlocking hf ?_
    have e : ((s.newRange { LiveRange.make kNoVirtualRegister .noRepresentation with assigned := loc }).1.alloc.ranges
        (s.newRange { LiveRange.make kNoVirtualRegister .noRepresentation with assigned := loc }).2).intervals = [] := by
      simp [BuildState.newRange, AllocState.setRange, LiveRange.make]
    have hi : (((s.newRange { LiveRange.make kNoVirtualRegister .noRepresentation with assigned := loc }).1.alloc.ranges
        (s.newRange { LiveRange.make kNoVirtualRegister .noRepresentation with assigned := loc }).2).addUseInterval
          f t).intervals = [⟨f, t⟩] := by
      unfold LiveRange.addUseInterval; rw [e]
    refine ⟨⟨⟨by simp [hi, hft], by simp [hi]⟩, by simp [hi, hlo]⟩, ⟨by simp [hi, hft], by simp [hi]⟩,
      by simp [hi], ?_, ?_, ?_⟩ <;> simp [BuildState.newRange, AllocState.setRange, LiveRange.make]

theorem Free.blockLocation {id : Nat} (h : Free nV s id) (loc : Location) (a e : Nat) :
    Free nV (blockLocation b s loc a e) id := by
  unfold LinearScan.blockLocation
  dsimp only
  split_ifs
  · exact h
  split
  · exact h.updRange
  · refine ⟨h.ge, h.lt.trans (Nat.lt_succ_self _), h.not_queued, fun k reg hb => ?_⟩
    dsimp only [BuildState.updRange, BuildState.newRange] at hb
    split_ifs at hb
    · cases hb; exact lt_irrefl _ h.lt
    · exact h.not_blocking k reg hb

end Blocking

/-! ## Edits of a value's range -/

section Values
variable {b : BuildCtx} {blocks : List RangeBlock} {nV : Nat} {v bs e p : Nat}

theorem LiveRange.usesInHull_addUseInterval {r : LiveRange} {a e : Nat} (h : r.UsesInHull) :
    (r.addUseInterval a e).UsesInHull := fun u hu => by
  rw [LiveRange.addUseInterval_uses] at hu
  obtain ⟨iv, hiv, h1, h2⟩ := h u hu
  obtain ⟨jv, hjv, h3, h4⟩ := LiveRange.addUseInterval_widens (s := a) (e := e) hiv
  exact ⟨jv, hjv, h3.trans h1, h2.trans h4⟩

theorem LiveRange.IntervalsOpen.of_intervals {r r' : LiveRange} {a lim : Nat} (h : r.IntervalsOpen a lim)
    (e : r'.intervals = r.intervals) : r'.IntervalsOpen a lim := by
  unfold LiveRange.IntervalsOpen LiveRange.Separated at h ⊢
  rw [e]; exact h

/-- An interval `[bs, e)` and uses at `e`, for a read of the value at a
position from `bs` on, after its definition, keep its range open, when `e` is
inside a block or the edit adds no use. -/
theorem ValueOpen.edit {r r' : LiveRange} (h : ValueOpen b blocks v r)
    (hbs : ∀ iv ∈ r.intervals, bs ≤ iv.start) (hsep : (r.addUseInterval bs e).Separated)
    (hread : ReadAt b blocks v p) (hp : bs ≤ p) (hbe : bs ≤ e) (hde : ∀ d, DefinedAt blocks v d → d < e)
    (hedit : LiveRange.UsesEdit (r.addUseInterval bs e) r' e)
    (hin : (∃ blk ∈ blocks, blk.startPos < e ∧ e < blk.endPos) ∨ r'.uses = r.uses) :
    ValueOpen b blocks v r' where
  separated := by unfold LiveRange.Separated; rw [hedit.intervals]; exact hsep
  ordered := hedit.ordered (by unfold LiveRange.UsesOrdered; rw [LiveRange.addUseInterval_uses]; exact h.ordered)
  inHull := hedit.inHull (LiveRange.usesInHull_addUseInterval h.inHull)
    (have ⟨jv, hjv, h1, h2⟩ := LiveRange.addUseInterval_covers h.separated hbs
     ⟨jv, hjv, h1.trans hbe, h2⟩)
  safepoints := by rw [hedit.safepoints, LiveRange.addUseInterval_safepoints, h.safepoints]
  notConstant := by rw [hedit.spillSlot, LiveRange.addUseInterval_spillSlot, h.notConstant]
  afterDef d hd := by
    refine ⟨?_, hedit.pos_gt (by rw [LiveRange.addUseInterval_uses]; exact (h.afterDef d hd).2) (hde d hd)⟩
    rw [hedit.intervals]
    exact LiveRange.addUseInterval_stop_gt (h.afterDef d hd).1 (hde d hd)
  justified iv hiv := by
    rw [hedit.intervals] at hiv
    rcases LiveRange.mem_addUseInterval hiv with hiv | ⟨he, -⟩
    · exact h.justified iv hiv
    · exact ⟨p, he ▸ hp, hread⟩
  inside u hu := by
    rcases hin with hin | heq
    · rcases hedit.mem u hu with ⟨u', hu', he⟩ | he
      · rw [LiveRange.addUseInterval_uses] at hu'
        exact he ▸ h.inside u' hu'
      · exact he ▸ hin
    · exact h.inside u (heq ▸ hu)

variable {shape : Nat → LiveRange → Prop} {bshape : LiveRange → Prop} {c S : Nat} {s : BuildState}

/-- The shape of an open value's range while block `blk` is walked: open at
the block's start up to its last instruction; when the value is live out of the
block, with an interval from the block's start to its end; and an interval from
the block's start reaches two past it, unless the block has inner positions. -/
def OpenIn (blk : RangeBlock) (v : Nat) (r : LiveRange) : Prop :=
  r.IntervalsOpen blk.startPos (blk.endPos - 1) ∧
    (v ∈ blk.liveOut → ∃ iv ∈ r.intervals, iv.start = blk.startPos ∧ blk.endPos ≤ iv.stop) ∧
    ∀ iv ∈ r.intervals, iv.start = blk.startPos → blk.startPos + 2 < blk.endPos ∨ blk.startPos + 2 ≤ iv.stop

/-- An edit `[bs, e)` with uses at `e` of an open value read from `bs` on,
after its definition, keeps the invariant in the block starting at `bs`. -/
theorem BuildInv.valueEdit {blk : RangeBlock} (h : BuildInv b blocks nV (OpenIn blk) bshape c S s)
    (hb : blk ∈ blocks) (hroom : blk.startPos + 2 < blk.endPos) (hv : v < nV) (ho : Open blocks c v) (hread : ReadAt b blocks v p) (hp : blk.startPos ≤ p)
    (he : blk.startPos < e) (hel : e ≤ blk.endPos - 1) (hde : ∀ d, DefinedAt blocks v d → d < e)
    {f : LiveRange → LiveRange} (hf : ∀ r, LiveRange.UsesEdit (r.addUseInterval blk.startPos e) (f r) e) :
    BuildInv b blocks nV (OpenIn blk) bshape c S (s.updRange v f) := by
  obtain ⟨hvo, hsh, hcov, -⟩ := h.open_ v hv ho
  have hsh' := hsh.addUseInterval he hel
  refine h.editOpen hv ho (hvo.edit (fun iv hiv => (hsh.2 iv hiv).1) hsh'.1 hread hp he.le hde (hf _)
    (.inl ⟨blk, hb, he, by omega⟩)) ⟨hsh'.of_intervals (hf _).intervals, fun hl => ?_, fun _ _ _ => .inl hroom⟩
    (by rw [(hf _).vreg, LiveRange.addUseInterval_vreg, h.vreg v hv])
  obtain ⟨iv, hiv, h1, h2⟩ := hcov hl
  obtain ⟨jv, hjv, h3, h4⟩ := LiveRange.addUseInterval_widens (s := blk.startPos) (e := e) hiv
  rw [(hf _).intervals]
  exact ⟨jv, hjv, le_antisymm (h3.trans h1.le) (hsh'.2 jv hjv).1, h2.trans h4⟩

/-- Flagging an open value's range as requiring the stack changes nothing the
invariant reads. -/
theorem BuildInv.requiresStack (h : BuildInv b blocks nV shape bshape c S s) (hv : v < nV) (ho : Open blocks c v)
    (hsh : ∀ r : LiveRange, shape v r → shape v { r with requiresStack := true }) :
    BuildInv b blocks nV shape bshape c S (s.updRange v fun r => { r with requiresStack := true }) :=
  have ⟨hvo, hs⟩ := h.open_ v hv ho
  h.editOpen hv ho ⟨hvo.1, hvo.2, hvo.3, hvo.4, hvo.5, hvo.6, hvo.7, hvo.8⟩ (hsh _ hs) (h.vreg v hv)

end Values

/-! ## Temporaries -/

section Temps
variable {b : BuildCtx} {blocks : List RangeBlock} {nV : Nat} {shape : Nat → LiveRange → Prop} {bshape : LiveRange → Prop}
  {c S : Nat} {s : BuildState}

theorem newRange_self (s : BuildState) (r : LiveRange) : (s.newRange r).1.alloc.ranges (s.newRange r).2 = r := by
  simp [BuildState.newRange, AllocState.setRange]

/-- A temporary `[p, p + 1)` with uses at `p` is finished. -/
theorem tempEdit_queued {sps : List (Nat × Nat)} {p : Nat} {r : LiveRange}
    (e : LiveRange.UsesEdit ((LiveRange.make kTempVirtualRegister .noRepresentation).addUseInterval p (p + 1)) r p) :
    Queued b blocks sps c r := by
  have hi : r.intervals = [⟨p, p + 1⟩] := e.intervals
  have hu : ((LiveRange.make kTempVirtualRegister .noRepresentation).addUseInterval p (p + 1)).uses = [] := by
    rw [LiveRange.addUseInterval_uses]; rfl
  refine ⟨⟨by simp [hi], ⟨by simp [hi], by simp [hi]⟩,
    e.ordered (by unfold LiveRange.UsesOrdered; rw [hu]; exact List.Pairwise.nil),
    e.inHull (fun u h => by rw [hu] at h; exact absurd h (List.not_mem_nil _))
      ⟨⟨p, p + 1⟩, by rw [← e.intervals, hi]; exact List.mem_singleton_self _, le_rfl, Nat.le_succ _⟩⟩,
    .inl ⟨by rw [e.vreg]; rfl, by rw [e.safepoints]; rfl⟩⟩

/-- `MakeLiveRangeForTemporary`, the interval `[p, p + 1)` and uses at `p`:
a free range, already finished. -/
theorem BuildInv.tempRange (h : BuildInv b blocks nV shape bshape c S s) {p : Nat} {g : LiveRange → LiveRange}
    (hg : LiveRange.UsesEdit ((LiveRange.make kTempVirtualRegister .noRepresentation).addUseInterval p (p + 1))
      (g (LiveRange.make kTempVirtualRegister .noRepresentation)) p) :
    let t := s.makeLiveRangeForTemporary
    BuildInv b blocks nV shape bshape c S (t.1.updRange t.2 g) ∧ Free nV (t.1.updRange t.2 g) t.2 ∧
      Queued b blocks s.safepoints c ((t.1.updRange t.2 g).alloc.ranges t.2) := by
  obtain ⟨h1, hf⟩ := h.newRange (LiveRange.make kTempVirtualRegister .noRepresentation)
  refine ⟨h1.editFree hf g, hf.updRange, ?_⟩
  rw [BuildState.updRange_ranges, if_pos rfl]
  rw [show s.makeLiveRangeForTemporary = s.newRange (LiveRange.make kTempVirtualRegister .noRepresentation)
    from rfl, newRange_self]
  exact tempEdit_queued hg

/-- A temporary `[p, p + 1)` with uses at `p`, queued. -/
theorem BuildInv.queueTemp (h : BuildInv b blocks nV shape bshape c S s) {p : Nat} {g : LiveRange → LiveRange}
    (hg : ∀ r, LiveRange.UsesEdit (r.addUseInterval p (p + 1)) (g r) p) (k : RegisterKind) :
    BuildInv b blocks nV shape bshape c S (completeRange
      (s.makeLiveRangeForTemporary.1.updRange s.makeLiveRangeForTemporary.2 g) s.makeLiveRangeForTemporary.2 k) :=
  have ⟨h1, hf, hq⟩ := h.tempRange (hg _)
  h1.complete hf.lt hq (fun hlt => absurd hlt (by have := hf.ge; omega)) hf.not_blocking

/-- The same, with a location slot written before the temporary is queued. -/
theorem BuildInv.queueTemp_setSlot (h : BuildInv b blocks nV shape bshape c S s) {p : Nat}
    {g : LiveRange → LiveRange} (hg : ∀ r, LiveRange.UsesEdit (r.addUseInterval p (p + 1)) (g r) p)
    (slot : Nat) (loc : Location) (k : RegisterKind) :
    BuildInv b blocks nV shape bshape c S (completeRange
      ((s.makeLiveRangeForTemporary.1.updRange s.makeLiveRangeForTemporary.2 g).setSlot slot loc)
      s.makeLiveRangeForTemporary.2 k) :=
  have ⟨h1, hf, hq⟩ := h.tempRange (hg _)
  (h1.of_sameRanges (sameRanges_setSlot _ _ _)).complete hf.lt hq (fun hlt => absurd hlt (by have := hf.ge; omega))
    hf.not_blocking

end Temps

/-! ## The steps of an instruction before its outputs -/

section Instr
variable {b : BuildCtx} {blocks : List RangeBlock} {nV : Nat} {c S lo pos : Nat} {s : BuildState}
  {blk : RangeBlock} {shape : Nat → LiveRange → Prop} {bshape : LiveRange → Prop}

theorem sameRanges_liveRegs (s : BuildState) (lr : Option Nat) (loc : Location) (rep : Representation) :
    SameRanges s (match lr with | some k => s.addLiveRegister k loc rep | none => s) := by
  cases lr
  · exact ⟨rfl, rfl, rfl, rfl, rfl, rfl⟩
  · exact sameRanges_addLiveRegister _ _ _ _

/-- `ProcessOneInput` on an open value read at `pos`: the value's range gets
`[bs, e)` and a use at `e` (`e` is `pos - 1`, `pos` or `pos + 1`), a fixed
register is blocked on `[pos - 1, pos + 1)`, and a writable register input gets
a finished temporary. -/
theorem BuildInv.processOneInput
    (h : BuildInv b blocks nV (OpenIn blk) (fun r => r.BlockingAt lo (pos - 1) (pos + 1)) c S s)
    {inSlot vreg : Nat} (lr : Option Nat) (hb : blk ∈ blocks) (hv : vreg < nV) (ho : Open blocks c vreg)
    (hread : ReadAt b blocks vreg pos) (hbs : blk.startPos + 2 ≤ pos) (hlim : pos + 2 ≤ blk.endPos)
    (hlo : lo ≤ pos - 1) (hde : ∀ d, DefinedAt blocks vreg d → d + 2 ≤ pos) :
    BuildInv b blocks nV (OpenIn blk) (fun r => r.BlockingAt lo (pos - 1) (pos + 1)) c S
      (processOneInput b s blk.startPos pos inSlot vreg lr) := by
  have hid : s.alloc.liveRanges vreg = vreg := h.liveRanges vreg
  have hde' : ∀ e, pos - 1 ≤ e → ∀ d, DefinedAt blocks vreg d → d < e := fun e he d hd => by
    have := hde d hd; omega
  unfold LinearScan.processOneInput
  dsimp only
  simp only [hid]
  split_ifs with h1 h2 h3 h4
  · refine BuildInv.valueEdit ?_ hb (by omega) hv ho hread (by omega) (by omega) (by omega) (hde' _ le_rfl)
      fun r => LiveRange.usesEdit_addHintedUse _ _ _ _
    refine BuildInv.blockLocation b ?_ _ hlo (by omega)
    exact (h.of_sameRanges (sameRanges_liveRegs s lr _ _)).of_sameRanges (sameRanges_addMoveAt _ _ _ _)
  · refine BuildInv.queueTemp_setSlot ?_ (fun r =>
      (LiveRange.usesEdit_addHintedUse _ _ _ _).trans (LiveRange.usesEdit_addUse _ _ _)) _ _ _
    exact (h.of_sameRanges (sameRanges_addMoveAt s pos _ _)).valueEdit hb (by omega) hv ho hread (by omega) (by omega)
      (by omega) (hde' _ (by omega)) fun r => LiveRange.usesEdit_addUse _ _ _
  · refine BuildInv.valueEdit ?_ hb (by omega) hv ho hread (by omega) (by omega) (by omega) (hde' _ (by omega))
      fun r => LiveRange.usesEdit_addUse _ _ _
    exact h.requiresStack hv ho fun r hr => hr
  · exact BuildInv.valueEdit h hb (by omega) hv ho hread (by omega) (by omega) (by omega) (hde' _ (by omega))
      fun r => LiveRange.usesEdit_addUse _ _ _
  · exact h

/-- One temp: a fixed register is blocked on `[pos, pos + 1)`, an unallocated
temp is a finished range `[pos, pos + 1)`. -/
theorem BuildInv.processTemp (h : BuildInv b blocks nV shape (fun r => r.BlockingAt lo pos (pos + 1)) c S s)
    (hlo : lo ≤ pos) (slot : Nat) :
    BuildInv b blocks nV shape (fun r => r.BlockingAt lo pos (pos + 1)) c S (processTemp b s pos slot) := by
  unfold LinearScan.processTemp
  dsimp only
  split_ifs
  · exact h.blockLocation b _ hlo (Nat.lt_succ_self _)
  · exact h.queueTemp (fun r => LiveRange.usesEdit_addUse _ pos _) _
  · exact h

/-- The temps and the registers a call blocks: every step blocks `[pos, pos + 1)`
or queues a temporary there. -/
theorem BuildInv.foldl_at {α : Type} (h : BuildInv b blocks nV shape (fun r => r.BlockingAt lo pos (pos + 1)) c S s)
    {step : BuildState → α → BuildState}
    (hstep : ∀ t a, BuildInv b blocks nV shape (fun r => r.BlockingAt lo pos (pos + 1)) c S t →
      BuildInv b blocks nV shape (fun r => r.BlockingAt lo pos (pos + 1)) c S (step t a)) (l : List α) :
    BuildInv b blocks nV shape (fun r => r.BlockingAt lo pos (pos + 1)) c S (l.foldl step s) :=
  List.foldlRecOn l step s h fun t ht a _ => hstep t a ht

theorem LiveRange.coveredSafepoints_append_of_lt {sps : List (Nat × Nat)} {p k : Nat} {kept : Nat × Nat → Bool}
    {r : LiveRange} (hp : p < r.start) :
    LiveRange.coveredSafepoints (sps ++ [(p, k)]) kept r = LiveRange.coveredSafepoints sps kept r := by
  have : r.contains p = false := by
    simp only [LiveRange.contains, LiveRange.canCover, Bool.and_eq_false_iff, decide_eq_false_iff_not]
    omega
  simp [LiveRange.coveredSafepoints, this]

/-- Recording a safepoint below every queued range: no queued range covers it,
and it stays two below the ones recorded before. -/
theorem BuildInv.addSafepoint (h : BuildInv b blocks nV shape bshape c S s) {p : Nat} (hpS : p + 2 ≤ S)
    (hpc : p < c) (hpe : p % 2 = 0) (k : Nat) :
    BuildInv b blocks nV shape bshape c p { s with safepoints := s.safepoints ++ [(p, k)] } where
  liveRanges := h.liveRanges
  fresh := h.fresh
  vreg := h.vreg
  open_ := h.open_
  blocking := h.blocking
  queued k' id hq := by
    obtain ⟨hlt, hwf, hk⟩ := h.queued k' id hq
    refine ⟨hlt, hwf, hk.imp_right fun ⟨v, d, h1, h2, h3, h4, h5⟩ => ⟨v, d, h1, h2, h3, h4, ?_⟩⟩
    rw [LiveRange.coveredSafepoints_append_of_lt (show p < (s.alloc.ranges id).start by omega)]
    exact h5
  spsGap := List.pairwise_append.2 ⟨h.spsGap, List.pairwise_singleton _ _, fun a ha x hx => by
    rw [List.mem_singleton.1 hx]; have := h.spsGe a ha; omega⟩
  spsGe q hq := by
    rcases List.mem_append.1 hq with hq | hq
    · have := h.spsGe q hq; omega
    · rw [List.mem_singleton.1 hq]
  spsEven q hq := by
    rcases List.mem_append.1 hq with hq | hq
    · exact h.spsEven q hq
    · rw [List.mem_singleton.1 hq]; exact hpe

/-- A value defined before `c` is not queued while the walk is at `c`... -/
theorem BuildInv.not_queued (h : BuildInv b blocks nV shape bshape c S s) (hwf : BlocksWF b blocks nV) {v d : Nat}
    (hv : v < nV) (hd : DefinedAt blocks v d) (hdc : d < c) (k : RegisterKind) : v ∉ s.unallocatedOf k := by
  intro hq
  obtain ⟨-, -, hk⟩ := h.queued k v hq
  rw [h.vreg v hv] at hk
  rcases hk with ⟨hk, -⟩ | ⟨v', d', hv', hd', hcd, -⟩
  · simp [kTempVirtualRegister] at hk
  · obtain rfl : v = v' := by exact_mod_cast hv'
    have := hwf.def_unique v d d' hd hd'
    omega

/-- The constant prologue, when it ends the instruction: a constant without
uses loses its output slot, one with only unconstrained uses has its range
turned into the constant, after the walk has passed its definition. -/
theorem BuildInv.processConstant (h : BuildInv b blocks nV shape bshape c S s) (hwf : BlocksWF b blocks nV)
    {ins : RangeInstr} (hb : blk ∈ blocks) (hi : ins ∈ blk.instrs) (hc : ins.pos < c) {s' : BuildState}
    (hs' : processConstant b s ins = some s') : BuildInv b blocks nV shape bshape ins.pos S s' := by
  have h' := h.weaken hc.le le_rfl (fun _ _ => id) (fun _ => id)
  unfold LinearScan.processConstant at hs'
  split at hs'
  next v outSlot rest hout =>
    dsimp only at hs'
    split_ifs at hs' with h1 h2 h3
    · cases hs'; exact h'.of_sameRanges (sameRanges_setSlot _ _ _)
    · cases hs'
      have hmem : (v, outSlot) ∈ ins.outs := by rw [hout]; exact List.mem_cons_self _ _
      obtain ⟨n, rfl, hn⟩ : ∃ n : Nat, v = n ∧ n < nV := by
        rcases hwf.out_vreg blk hb ins hi _ hmem with e | ⟨h0, hlt⟩
        · simp [show v = kNoVirtualRegister from e] at h2
        · exact ⟨v.toNat, (Int.toNat_of_nonneg h0).symm, by omega⟩
      have hd : DefinedAt blocks n ins.pos := ⟨blk, hb, .inl ⟨ins, hi, rfl, List.mem_map_of_mem Prod.fst hmem⟩⟩
      rw [h.liveRanges n]
      refine BuildInv.of_sameRanges ?_ (sameRanges_setSlot _ _ _)
      have h2 := h'.editClosed hn (fun ho => lt_irrefl _ (ho _ hd)) (h.not_queued hwf hn hd hc)
        (f := fun r => let r := { r with assigned := .constant n 0, spillSlot := .constant n 0 }
          { r with finger := Finger.reset r }) (h.vreg n hn)
      exact h2.of_sameRanges ⟨convertAllUses_ranges _ _ _,
        convertAllUses_keep _ AllocState.fresh (fun _ _ _ => rfl) (fun _ _ _ => rfl) _ _,
        convertAllUses_keep _ AllocState.liveRanges (fun _ _ _ => rfl) (fun _ _ _ => rfl) _ _, rfl, rfl, rfl⟩
  next => cases hs'

end Instr

end LinearScan
