import LinearScan.Intersect
import LinearScan.FingerCache
import LinearScan.LoopInv

/-!
# Register occupancy: the invariant of the allocation loop

`AllocateUnallocatedRanges` (linearscan.cc 3032–3100) may put a range on a
register only where nothing else on that register is live. This module states
what the loop keeps for that, `RegInv c pos s`, at the loop head after the
ranges starting before `pos` have been processed:

* every range has the shape the split rules rely on (`RangeOk`);
* the worklist is sorted by start, with the smallest last, and holds ranges
  that start at or after `pos`, own no register and have fresh fingers
  (`OnWorklist`);
* every range on `registers_[reg]` holds `reg`, has its finger valid from
  `pos`, and, unless it blocks the register, started by `pos` (`Occupant`);
* a range that holds `reg` but is off the list ended by `pos`;
* two ranges holding the same register never cover a common position.

The split lemmas of this module say what `SplitAt` does to the shape, for a
cut strictly inside the range and for the cut before its start that
`SplitBetween` can ask for.

Mirroring notes vs the C++ source:
- The register uses that `RangeOk` constrains are those whose slot holds a
  register policy. Slots only lose policies during allocation, since
  `ConvertAllUses` writes locations; so these constraints only weaken.
-/

namespace LinearScan

open AllocState Finger

section Shape
variable (c : AllocCtx)

/-- Range `r` holds register `reg` of the pass's class. -/
def Holds (r : LiveRange) (reg : Nat) : Prop :=
  r.assigned = makeRegisterLocation c.registerKind reg

instance (r : LiveRange) (reg : Nat) : Decidable (Holds c r reg) :=
  inferInstanceAs (Decidable (_ = _))

/-- A location that asks for no register and is no register of the class: a
spill slot `Spill` may move a range to. -/
def SafeSpill (l : Location) : Prop :=
  l.requiresRegisterPolicy = false ∧ ∀ reg, l ≠ makeRegisterLocation c.registerKind reg

/-- What the occupancy argument needs of a range: ordered lists; each use in an
interval or at its end; a register use at an instruction start only at the
range's start, and one at an instruction end never where an interval starts; a
loop phi starting at an instruction start; a temporary of at most one position;
a blocking range never just before a block or loop-header start; and locations
that ask for no register. -/
structure RangeOk (slots : Nat → Location) (r : LiveRange) : Prop where
  ascending : IntervalsAscending r.intervals
  bounded : r.Bounded
  usesSorted : r.uses.Pairwise fun a b => a.pos ≤ b.pos
  safepointsSorted : r.safepoints.Pairwise fun a b => a.pos ≤ b.pos
  usesCovered : ∀ u ∈ r.uses, ∃ iv ∈ r.intervals, iv.start ≤ u.pos ∧ u.pos ≤ iv.stop
  evenUse : ∀ u ∈ r.uses, isRegisterUse slots u = true → u.pos % 2 = 0 → u.pos = r.start
  oddUse : ∀ u ∈ r.uses, isRegisterUse slots u = true → u.pos % 2 = 1 →
    ∀ iv ∈ r.intervals, iv.start ≠ u.pos
  loopPhi : r.isLoopPhi = true → r.start % 2 = 0
  temp : r.vreg < 0 → r.vreg ≠ kNoVirtualRegister →
    r.intervals = [] ∨ ∃ p, r.intervals = [⟨p, p + 1⟩]
  blocking : r.vreg = kNoVirtualRegister → ∀ q, intervalsCover r.intervals q = true →
    c.blockStart (q + 1) ≠ q + 1 ∧ ∀ l, (c.loops l).headerStart ≠ q + 1
  spillSlot : SafeSpill c r.spillSlot
  assigned : r.assigned.requiresRegisterPolicy = false

theorem holds_inj {r : LiveRange} {reg reg' : Nat} (h : Holds c r reg) (h' : Holds c r reg') :
    reg = reg' := by
  unfold Holds at h h'
  rw [h] at h'
  unfold makeRegisterLocation at h'
  split at h' <;> injection h'

theorem safeSpill_invalid : SafeSpill c .invalid :=
  ⟨rfl, fun reg h => by unfold makeRegisterLocation at h; split at h <;> cases h⟩

end Shape

/-! ## What a split does to the shape -/

section SplitShape
variable {c : AllocCtx} {slots : Nat → Location}

/-- The positions a list of ordered intervals covers all lie at or after its
first start. -/
theorem IntervalsAscending.start_le_of_mem {ivs : List UseInterval} (h : IntervalsAscending ivs)
    {iv x : UseInterval} (hx : ivs.head? = some iv) (hmem : x ∈ ivs) : iv.start ≤ x.start := by
  cases ivs with
  | nil => cases hx
  | cons y ys =>
    cases hx
    rcases List.mem_cons.1 hmem with rfl | hmem
    · exact le_rfl
    · have h₁ := (List.pairwise_cons.1 h.2).1 x hmem
      have h₂ := h.1 iv (List.mem_cons_self _ _)
      omega

/-- A range's start is at or before every interval start. -/
theorem LiveRange.start_le_start {r : LiveRange} (h : IntervalsAscending r.intervals)
    {x : UseInterval} (hx : x ∈ r.intervals) : r.start ≤ x.start := by
  cases hr : r.intervals with
  | nil => rw [hr] at hx; cases hx
  | cons iv ivs =>
    rw [hr] at hx h
    simpa [LiveRange.start, hr] using h.start_le_of_mem rfl hx

/-- A use of a range whose uses lie in its intervals is at or after its start. -/
theorem LiveRange.start_le_use {r : LiveRange} (h : IntervalsAscending r.intervals)
    (hu : ∀ u ∈ r.uses, ∃ iv ∈ r.intervals, iv.start ≤ u.pos ∧ u.pos ≤ iv.stop)
    {u : UsePosition} (hmem : u ∈ r.uses) : r.start ≤ u.pos := by
  obtain ⟨iv, hiv, h₁, -⟩ := hu u hmem
  exact (LiveRange.start_le_start h hiv).trans h₁

/-- Every interval of an ordered range ends by the range's end. -/
theorem LiveRange.stop_le_stop {r : LiveRange} (h : IntervalsAscending r.intervals)
    {x : UseInterval} (hx : x ∈ r.intervals) : x.stop ≤ r.stop := by
  have hne : r.intervals ≠ [] := List.ne_nil_of_mem hx
  have hstop : r.stop = (r.intervals.getLast hne).stop := by
    simp [LiveRange.stop, List.getLast?_eq_getLast _ hne]
  rw [hstop]
  have hsplit := List.dropLast_append_getLast hne
  rw [← hsplit] at hx h
  rcases List.mem_append.1 hx with hx | hx
  · have h₁ := (List.pairwise_append.1 h.2).2.2 x hx _ (List.mem_singleton_self _)
    have h₂ := h.1 _ (List.mem_append_right _ (List.mem_singleton_self _))
    omega
  · rw [List.mem_singleton.1 hx]

/-- Everything an ordered range covers lies before its end. -/
theorem LiveRange.lt_stop_of_cover {r : LiveRange} (h : IntervalsAscending r.intervals) {q : Nat}
    (hq : intervalsCover r.intervals q = true) : q < r.stop := by
  obtain ⟨x, hx, hc⟩ := List.any_eq_true.1 hq
  simp only [UseInterval.contains, Bool.and_eq_true, decide_eq_true_eq] at hc
  exact hc.2.trans_le (LiveRange.stop_le_stop h hx)

/-- A cut before the range's start hands the sibling everything: the head keeps
no interval and no use. -/
theorem splitParts_of_lt_start {r : LiveRange} (hr : IntervalsAscending r.intervals)
    (hne : r.intervals ≠ []) {p : Nat} (hp : p < r.start) (hu : ∀ u ∈ r.uses, r.start ≤ u.pos)
    (n : Nat) :
    (r.splitParts p n).1.intervals = [] ∧ (r.splitParts p n).1.uses = [] ∧
      (r.splitParts p n).2.intervals = r.intervals ∧ (r.splitParts p n).2.uses = r.uses := by
  obtain ⟨iv, ivs, hiv⟩ := List.exists_cons_of_ne_nil hne
  have hstart : r.start = iv.start := by simp [LiveRange.start, hiv]
  have hiv₀ : iv.start < iv.stop := hr.1 iv (by simp [hiv])
  have hwalk : r.splitWalkStart p = 0 := by
    unfold LiveRange.splitWalkStart
    split
    · rw [List.get?_eq_getElem?]
      split
      · next x hx =>
        obtain ⟨hk, rfl⟩ := List.getElem?_eq_some_iff.1 hx
        rw [if_pos]
        exact hp.le.trans (hstart ▸ LiveRange.start_le_start hr (List.getElem_mem _))
      · rfl
    · rfl
  have hk : splitIndexFrom r.intervals p (r.splitWalkStart p) r.intervals.length = 0 := by
    rw [hwalk, hiv]
    simp only [List.length_cons, splitIndexFrom, List.get?_eq_getElem?, List.getElem?_cons_zero]
    rw [if_neg (by omega)]
  have huses : r.uses.span (fun u => decide (u.pos ≤ p)) = ([], r.uses) := by
    cases h : r.uses with
    | nil => rfl
    | cons u us =>
      have := hu u (by simp [h])
      rw [List.span_eq_take_drop, List.takeWhile_cons_of_neg (by simp; omega),
        List.dropWhile_cons_of_neg (by simp; omega)]
  have hget : r.intervals.getD 0 ⟨0, 0⟩ = iv := by simp [hiv]
  have hat : (iv.start == p) = false := by simp; omega
  simp only [LiveRange.splitParts, hk, hget, hat]
  rw [if_neg (by simp [UseInterval.contains]; omega)]
  simp only [splitListOfPositions, Bool.false_eq_true, if_false, List.take_zero, List.drop_zero,
    huses, and_self]

/-- `keepsAt` in words: before the cut, or at it when no interval starts there. -/
theorem LiveRange.keepsAt_eq_true {r : LiveRange} {p pos : Nat} :
    r.keepsAt p pos = true ↔ pos < p ∨ (pos = p ∧ ∀ x ∈ r.intervals, x.start ≠ p) := by
  simp [LiveRange.keepsAt, List.any_eq_true]

/-- A cut strictly inside a range leaves the head starting where the range
did. -/
theorem splitParts_head_start {r : LiveRange} (hr : IntervalsAscending r.intervals) {p : Nat}
    (hp : r.start < p ∧ p < r.stop) (n : Nat) : (r.splitParts p n).1.start = r.start := by
  obtain ⟨A, iv, B, he, -, -, -, hcut⟩ := splitParts_cut hr hp n
  have hne := (splitParts_wf hr hp n).1.1
  rcases hcut with ⟨-, h₁, -⟩ | ⟨-, h₁, -⟩ <;> rw [h₁] at hne <;>
    cases A <;> simp_all [LiveRange.start]

variable (c) in
/-- A cut strictly inside a range keeps the shape in both pieces. The head's
intervals start where the range's did; the sibling's first interval may start at
the cut, where no use it takes can be unless an interval of the range started
there. -/
theorem RangeOk.splitParts {r : LiveRange} (h : RangeOk c slots r) {p : Nat}
    (hp : r.start < p ∧ p < r.stop) (n : Nat) :
    RangeOk c slots (r.splitParts p n).1 ∧ RangeOk c slots (r.splitParts p n).2 := by
  have hk := splitParts_contract h.ascending hp h.usesSorted h.safepointsSorted n
  obtain ⟨A, iv, B, he, hA, hiv, -, hcut⟩ := splitParts_cut h.ascending hp n
  have hB := cut_after h.ascending he hiv
  obtain ⟨hivlt, -, -⟩ := (he ▸ h.ascending).around
  have hAs : ∀ x ∈ A, x.start < p := fun x hx =>
    (h.ascending.1 x (by rw [he]; simp [hx])).trans_le (hA x hx)
  have hmemIv : iv ∈ r.intervals := by rw [he]; simp
  -- an interval of the range starts at the cut exactly when `iv` does
  have hatP : (∃ x ∈ r.intervals, x.start = p) → iv.start = p := by
    rintro ⟨x, hx, hxp⟩
    rw [he] at hx
    simp only [List.mem_append, List.mem_cons] at hx
    rcases hx with hx | rfl | hx
    · exact absurd hxp (hAs x hx).ne
    · exact hxp
    · exact absurd hxp (hB x hx).ne'
  have hmemH : ∀ u, u ∈ (r.splitParts p n).1.uses ↔ u ∈ r.uses ∧ r.keepsAt p u.pos = true := by
    intro u; rw [hk.uses.2.1, List.mem_filter]
  have hmemT : ∀ u, u ∈ (r.splitParts p n).2.uses ↔ u ∈ r.uses ∧ r.keepsAt p u.pos = false := by
    intro u; rw [hk.uses.2.2, List.mem_filter, Bool.not_eq_true']
  -- where the pieces' intervals start
  have hHs : ∀ x ∈ (r.splitParts p n).1.intervals, ∃ y ∈ r.intervals, y.start = x.start := by
    intro x hx
    rcases hcut with ⟨-, h₁, -⟩ | ⟨-, h₁, -⟩ <;> rw [h₁] at hx
    · rcases List.mem_append.1 hx with hx | hx
      · exact ⟨x, by rw [he]; simp [hx], rfl⟩
      · rw [List.mem_singleton.1 hx]; exact ⟨iv, hmemIv, rfl⟩
    · exact ⟨x, by rw [he]; simp [hx], rfl⟩
  have hTs : ∀ x ∈ (r.splitParts p n).2.intervals,
      (∃ y ∈ r.intervals, y.start = x.start) ∨ (iv.start < p ∧ x.start = p) := by
    intro x hx
    rcases hcut with ⟨hs, -, h₂⟩ | ⟨-, -, h₂⟩ <;> rw [h₂] at hx <;>
      rcases List.mem_cons.1 hx with rfl | hx
    · exact .inr ⟨hs, rfl⟩
    · exact .inl ⟨x, by rw [he]; simp [hx], rfl⟩
    · exact .inl ⟨x, hmemIv, rfl⟩
    · exact .inl ⟨x, by rw [he]; simp [hx], rfl⟩
  have hstart := splitParts_head_start h.ascending hp n
  have hnotTemp : r.vreg < 0 → r.vreg ≠ kNoVirtualRegister → False := by
    intro h₁ h₂
    rcases h.temp h₁ h₂ with h₃ | ⟨a, h₃⟩ <;> simp [LiveRange.start, LiveRange.stop, h₃] at hp
    omega
  refine ⟨⟨hk.wf.1.2, fun x hx => splitParts_stop_le h.bounded p n x (List.mem_append_left _ hx),
    hk.uses.2.1 ▸ h.usesSorted.sublist (List.filter_sublist _),
    hk.safepoints.2.1 ▸ h.safepointsSorted.sublist (List.filter_sublist _),
    fun u hu => ?_, fun u hu hr he' => ?_, fun u hu hr ho x hx => ?_, fun hl => ?_,
    fun h₁ h₂ => (hnotTemp h₁ h₂).elim, fun hv q hq => h.blocking hv q ((hk.head_cover q).1 hq).1,
    h.spillSlot, h.assigned⟩,
    ⟨hk.wf.2.2, fun x hx => splitParts_stop_le h.bounded p n x (List.mem_append_right _ hx),
    hk.uses.2.2 ▸ h.usesSorted.sublist (List.filter_sublist _),
    hk.safepoints.2.2 ▸ h.safepointsSorted.sublist (List.filter_sublist _),
    fun u hu => ?_, fun u hu hr he' => ?_, fun u hu hr ho x hx => ?_, (fun hl => by cases hl),
    fun h₁ h₂ => (hnotTemp h₁ h₂).elim, fun hv q hq => h.blocking hv q ((hk.tail_cover q).1 hq).1,
    safeSpill_invalid c, rfl⟩⟩
  · -- a use the head keeps lies in one of its intervals
    obtain ⟨hu, hkeep⟩ := (hmemH u).1 hu
    obtain ⟨x, hx, hx₁, hx₂⟩ := h.usesCovered u hu
    have hle : u.pos ≤ p := by
      rcases LiveRange.keepsAt_eq_true.1 hkeep with h' | h' <;> omega
    rw [he] at hx
    simp only [List.mem_append, List.mem_cons] at hx
    rcases hx with hx | rfl | hx
    · exact ⟨x, by rcases hcut with ⟨-, h₁, -⟩ | ⟨-, h₁, -⟩ <;> rw [h₁] <;> simp [hx], hx₁, hx₂⟩
    · rcases hcut with ⟨hs, h₁, -⟩ | ⟨hs, -, -⟩
      · exact ⟨⟨x.start, p⟩, by rw [h₁]; simp, hx₁, hle⟩
      · rcases LiveRange.keepsAt_eq_true.1 hkeep with h' | ⟨h', hno⟩
        · omega
        · exact absurd (by omega) (hno x hmemIv)
    · exact absurd (hB x hx) (by omega)
  · rw [hstart]; exact h.evenUse u ((hmemH u).1 hu).1 hr he'
  · obtain ⟨y, hy, hyx⟩ := hHs x hx
    rw [← hyx]; exact h.oddUse u ((hmemH u).1 hu).1 hr ho y hy
  · rw [hstart]; exact h.loopPhi hl
  · -- a use the sibling takes lies in one of its intervals
    obtain ⟨hu, hkeep⟩ := (hmemT u).1 hu
    obtain ⟨x, hx, hx₁, hx₂⟩ := h.usesCovered u hu
    have hkeep' := hkeep
    simp only [LiveRange.keepsAt, Bool.or_eq_false_iff, decide_eq_false_iff_not, Nat.not_lt,
      Bool.and_eq_false_iff, Bool.not_eq_false', List.any_eq_true, beq_iff_eq] at hkeep'
    obtain ⟨hge, hat⟩ := hkeep'
    rw [he] at hx
    simp only [List.mem_append, List.mem_cons] at hx
    rcases hx with hx | rfl | hx
    · have hxs := hA x hx
      have hup : u.pos = p := by omega
      have hivp : iv.start = p := hatP (by rcases hat with h' | h' <;> [omega; exact h'])
      rcases hcut with ⟨hs, -, -⟩ | ⟨-, -, h₂⟩
      · omega
      · exact ⟨iv, by rw [h₂]; simp, by omega, by omega⟩
    · rcases hcut with ⟨-, -, h₂⟩ | ⟨-, -, h₂⟩
      · exact ⟨⟨p, x.stop⟩, by rw [h₂]; simp, hge, hx₂⟩
      · exact ⟨x, by rw [h₂]; simp, hx₁, hx₂⟩
    · exact ⟨x, by rcases hcut with ⟨-, -, h₂⟩ | ⟨-, -, h₂⟩ <;> rw [h₂] <;> simp [hx], hx₁, hx₂⟩
  · obtain ⟨hu, hkeep⟩ := (hmemT u).1 hu
    have := h.evenUse u hu hr he'
    simp only [LiveRange.keepsAt, Bool.or_eq_false_iff, decide_eq_false_iff_not, Nat.not_lt] at hkeep
    omega
  · obtain ⟨hu, hkeep⟩ := (hmemT u).1 hu
    rcases hTs x hx with ⟨y, hy, hyx⟩ | ⟨hs, hxp⟩
    · rw [← hyx]; exact h.oddUse u hu hr ho y hy
    · rw [hxp]
      intro hup
      simp only [LiveRange.keepsAt, Bool.or_eq_false_iff, decide_eq_false_iff_not, Nat.not_lt,
        Bool.and_eq_false_iff, Bool.not_eq_false', List.any_eq_true, beq_iff_eq] at hkeep
      rcases hkeep.2 with h' | h'
      · exact h' hup.symm
      · exact absurd (hatP h') hs.ne

variable (c) in
/-- A cut before the range's start keeps the shape in both pieces: the head is
left with no interval and no use, and the sibling takes the rest whole. -/
theorem RangeOk.splitParts_before_start {r : LiveRange} (h : RangeOk c slots r)
    (hne : r.intervals ≠ []) {p : Nat} (hp : p < r.start) (n : Nat) :
    RangeOk c slots (r.splitParts p n).1 ∧ RangeOk c slots (r.splitParts p n).2 := by
  obtain ⟨hHi, hHu, hTi, hTu⟩ := splitParts_of_lt_start h.ascending hne hp
    (fun u hu => LiveRange.start_le_use h.ascending h.usesCovered hu) n
  have hsp := splitParts_safepoints r p n
  have hTs : (r.splitParts p n).2.start = r.start := by simp only [LiveRange.start, hTi]
  refine ⟨⟨by rw [hHi]; exact ⟨by simp, .nil⟩, fun x hx => by simp [hHi] at hx,
    by rw [hHu]; exact .nil, h.safepointsSorted.sublist (hsp ▸ List.sublist_append_left _ _),
    fun u hu => by simp [hHu] at hu, fun u hu => by simp [hHu] at hu,
    fun u hu => by simp [hHu] at hu, fun _ => by simp [LiveRange.start, hHi],
    fun _ _ => .inl hHi, fun _ q hq => by simp [hHi] at hq, h.spillSlot, h.assigned⟩,
    ⟨hTi ▸ h.ascending, fun x hx => h.bounded x (hTi ▸ hx), hTu ▸ h.usesSorted,
    h.safepointsSorted.sublist (hsp ▸ List.sublist_append_right _ _),
    fun u hu => hTi ▸ h.usesCovered u (hTu ▸ hu),
    fun u hu hr he => hTs ▸ h.evenUse u (hTu ▸ hu) hr he,
    fun u hu hr ho x hx => h.oddUse u (hTu ▸ hu) hr ho x (hTi ▸ hx), (fun hl => by cases hl),
    fun h₁ h₂ => hTi ▸ h.temp h₁ h₂, fun hv q hq => h.blocking hv q (hTi ▸ hq),
    safeSpill_invalid c, rfl⟩⟩

end SplitShape

/-! ## Frames: what an operation leaves alone -/

section Frame
variable (c : AllocCtx)

/-- Slot writes that never add a register requirement, as `ConvertAllUses`'s
writes of locations. -/
def SlotsMono (slots slots' : Nat → Location) : Prop :=
  ∀ k, (slots' k).requiresRegisterPolicy = true → (slots k).requiresRegisterPolicy = true

/-- `r'` is `r` up to its spill slot, which stays safe: what a spill slot given
to a parent does to it. -/
structure SameBut (r r' : LiveRange) : Prop where
  eq : r' = { r with spillSlot := r'.spillSlot }
  safe : SafeSpill c r.spillSlot → SafeSpill c r'.spillSlot

variable {c}

theorem SlotsMono.refl (slots : Nat → Location) : SlotsMono slots slots := fun _ h => h

theorem SlotsMono.trans {s₁ s₂ s₃ : Nat → Location} (h₁ : SlotsMono s₁ s₂) (h₂ : SlotsMono s₂ s₃) :
    SlotsMono s₁ s₃ := fun k h => h₁ k (h₂ k h)

/-- A cache valid for the register uses stays valid when slots lose register
policies: the query accepts fewer uses. -/
theorem UseCacheValid.slots {slots slots' : Nat → Location} {uses : List UsePosition}
    {f : Option Nat} {last : Nat} (hv : UseCacheValid (isRegisterUse slots) uses f last)
    (h : SlotsMono slots slots') : UseCacheValid (isRegisterUse slots') uses f last :=
  fun x hx ht => hv x hx (h _ ht)

theorem RangeOk.slots {slots slots' : Nat → Location} {r : LiveRange} (hr : RangeOk c slots r)
    (h : SlotsMono slots slots') : RangeOk c slots' r :=
  { hr with
    evenUse := fun u hu ht => hr.evenUse u hu (h _ ht)
    oddUse := fun u hu ht => hr.oddUse u hu (h _ ht) }

namespace SameBut
variable {r r' r'' : LiveRange}

theorem refl (r : LiveRange) : SameBut c r r := ⟨rfl, id⟩

theorem trans (h₁ : SameBut c r r') (h₂ : SameBut c r' r'') : SameBut c r r'' :=
  ⟨by rw [h₂.eq, h₁.eq], fun h => h₂.safe (h₁.safe h)⟩

variable (h : SameBut c r r')
include h

theorem intervals : r'.intervals = r.intervals := by rw [h.eq]
theorem uses : r'.uses = r.uses := by rw [h.eq]
theorem assigned : r'.assigned = r.assigned := by rw [h.eq]
theorem finger : r'.finger = r.finger := by rw [h.eq]
theorem vreg : r'.vreg = r.vreg := by rw [h.eq]
theorem start : r'.start = r.start := by rw [h.eq]; rfl

theorem holds {reg : Nat} : Holds c r' reg ↔ Holds c r reg := by
  rw [Holds, Holds, h.assigned]

theorem rangeOk {slots : Nat → Location} (hr : RangeOk c slots r) : RangeOk c slots r' := by
  rw [h.eq]
  exact ⟨hr.ascending, hr.bounded, hr.usesSorted, hr.safepointsSorted, hr.usesCovered, hr.evenUse,
    hr.oddUse, hr.loopPhi, hr.temp, hr.blocking, h.safe hr.spillSlot, hr.assigned⟩

end SameBut

end Frame

/-! ## The invariant -/

section Inv
variable (c : AllocCtx)

/-- A range on the worklist at loop position `pos`: it starts there or later,
has intervals and a freshly initialized finger, belongs to a value or a
temporary, and holds no register. -/
structure OnWorklist (pos : Nat) (s : AllocState) (j : Nat) : Prop where
  fresh : j < s.fresh
  start : pos ≤ (s.ranges j).start
  positive : 0 < (s.ranges j).start
  nonempty : (s.ranges j).intervals ≠ []
  reset : (s.ranges j).finger = Finger.reset (s.ranges j)
  vreg : (s.ranges j).vreg ≠ kNoVirtualRegister
  free : ∀ reg, ¬ Holds c (s.ranges j) reg

/-- A range on the list of register `reg` at loop position `pos`: it holds the
register, its pending interval and register-use cache are valid from `pos`,
and, unless it blocks the register, it started by `pos`. -/
structure Occupant (pos : Nat) (s : AllocState) (reg a : Nat) : Prop where
  holds : Holds c (s.ranges a) reg
  pending : PendingValid (s.ranges a).intervals (s.ranges a).finger.pending pos
  cache : UseCacheValid (isRegisterUse s.slots) (s.ranges a).uses (s.ranges a).finger.registerUse
    (interferingFrom pos)
  started : (s.ranges a).vreg ≠ kNoVirtualRegister → (s.ranges a).start ≤ pos

/-- The invariant of the allocation loop at position `pos`. -/
structure RegInv (pos : Nat) (s : AllocState) : Prop where
  ranges : ∀ j, RangeOk c s.slots (s.ranges j)
  junk : ∀ j, s.fresh ≤ j → ∀ reg, ¬ Holds c (s.ranges j) reg
  sorted : s.unallocated.Pairwise fun a b => (s.ranges b).start ≤ (s.ranges a).start
  nodup : s.unallocated.Nodup
  queued : ∀ j ∈ s.unallocated, OnWorklist c pos s j
  outside : ∀ reg, c.numberOfRegisters ≤ reg → s.registers reg = []
  regsNodup : ∀ reg, (s.registers reg).Nodup
  oneBlocking : ∀ reg, ∀ a ∈ s.registers reg, ∀ b ∈ s.registers reg,
    (s.ranges a).vreg = kNoVirtualRegister → (s.ranges b).vreg = kNoVirtualRegister → a = b
  occupants : ∀ reg, ∀ a ∈ s.registers reg, Occupant c pos s reg a
  retired : ∀ j reg, Holds c (s.ranges j) reg → j ∉ s.registers reg →
    ∀ q, intervalsCover (s.ranges j).intervals q = true → q < pos
  disjoint : ∀ reg j k, j ≠ k → Holds c (s.ranges j) reg → Holds c (s.ranges k) reg →
    ∀ q, intervalsCover (s.ranges j).intervals q = true →
      intervalsCover (s.ranges k).intervals q = false

/-- `s'` keeps every range of `s` up to spill slots, the lists and the id
counter, and its slots lose register policies only: what `ConvertAllUses`,
`AllocateSpillSlotFor` and `MarkAsObjectAtSafepoints` do. -/
structure Calm (s s' : AllocState) : Prop where
  ranges : ∀ j, SameBut c (s.ranges j) (s'.ranges j)
  slots : SlotsMono s.slots s'.slots
  fresh : s'.fresh = s.fresh
  unallocated : s'.unallocated = s.unallocated
  registers : s'.registers = s.registers

variable {c}

theorem PendingValid.mono {ivs : List UseInterval} {k : Option Nat} {last last' : Nat}
    (h : PendingValid ivs k last) (hle : last ≤ last') : PendingValid ivs k last' := by
  cases k with
  | none => exact fun iv hiv => (h iv hiv).trans hle
  | some k => exact ⟨h.1, fun iv hiv => (h.2 iv hiv).trans hle⟩

/-- The invariant only weakens as the loop position moves forward, as long as
the worklist stays ahead. -/
theorem RegInv.mono {pos pos' : Nat} {s : AllocState} (h : RegInv c pos s) (hle : pos ≤ pos')
    (hq : ∀ j ∈ s.unallocated, pos' ≤ (s.ranges j).start) : RegInv c pos' s :=
  { h with
    queued := fun j hj => { h.queued j hj with start := hq j hj }
    occupants := fun reg a ha =>
      let o := h.occupants reg a ha
      ⟨o.holds, o.pending.mono hle, o.cache.mono (interferingFrom_mono hle),
        fun hv => (o.started hv).trans hle⟩
    retired := fun j reg h₁ h₂ q hq => (h.retired j reg h₁ h₂ q hq).trans_le hle }

/-- The state the allocation loop starts from keeps the invariant at position
`0`: every range well formed and holding no register, nothing on a register,
and the worklist sorted latest start first, each queued range with positive
start, intervals and a fresh finger. -/
theorem RegInv.initial {s : AllocState} (hranges : ∀ j, RangeOk c s.slots (s.ranges j))
    (hfree : ∀ j reg, ¬ Holds c (s.ranges j) reg) (hregs : ∀ reg, s.registers reg = [])
    (hsorted : s.unallocated.Pairwise fun a b => (s.ranges b).start ≤ (s.ranges a).start)
    (hnodup : s.unallocated.Nodup)
    (hqueued : ∀ j ∈ s.unallocated, j < s.fresh ∧ 0 < (s.ranges j).start ∧
      (s.ranges j).intervals ≠ [] ∧ (s.ranges j).finger = Finger.reset (s.ranges j) ∧
      (s.ranges j).vreg ≠ kNoVirtualRegister) :
    RegInv c 0 s where
  ranges := hranges
  junk j _ := hfree j
  sorted := hsorted
  nodup := hnodup
  queued j hj :=
    let ⟨h₁, h₂, h₃, h₄, h₅⟩ := hqueued j hj
    ⟨h₁, Nat.zero_le _, h₂, h₃, h₄, h₅, hfree j⟩
  outside reg _ := hregs reg
  regsNodup reg := by rw [hregs]; exact List.nodup_nil
  oneBlocking reg a ha := by rw [hregs] at ha; cases ha
  occupants reg a ha := by rw [hregs] at ha; cases ha
  retired j reg h := absurd h (hfree j reg)
  disjoint reg j _ _ h := absurd h (hfree j reg)

theorem Calm.refl (s : AllocState) : Calm c s s :=
  ⟨fun _ => SameBut.refl _, SlotsMono.refl _, rfl, rfl, rfl⟩

theorem Calm.trans {s₁ s₂ s₃ : AllocState} (h₁ : Calm c s₁ s₂) (h₂ : Calm c s₂ s₃) : Calm c s₁ s₃ :=
  ⟨fun j => (h₁.ranges j).trans (h₂.ranges j), h₁.slots.trans h₂.slots, h₂.fresh.trans h₁.fresh,
    h₂.unallocated.trans h₁.unallocated, h₂.registers.trans h₁.registers⟩

/-- Nothing the invariant reads changes in a calm step. -/
theorem RegInv.calm {pos : Nat} {s s' : AllocState} (h : RegInv c pos s) (hc : Calm c s s') :
    RegInv c pos s' := by
  have e := hc.ranges
  refine ⟨fun j => (e j).rangeOk ((h.ranges j).slots hc.slots),
    fun j hj reg => by rw [(e j).holds]; exact h.junk j (hc.fresh ▸ hj) reg, ?_, ?_,
    fun j hj => ?_, fun reg hreg => hc.registers ▸ h.outside reg hreg,
    fun reg => hc.registers ▸ h.regsNodup reg, fun reg a ha b hb => ?_, fun reg a ha => ?_,
    fun j reg hj hn q hq => ?_, fun reg j k hjk hj hk q hq => ?_⟩
  · rw [hc.unallocated]
    exact h.sorted.imp fun {a b} hab => by rw [(e a).start, (e b).start]; exact hab
  · exact hc.unallocated ▸ h.nodup
  · rw [hc.unallocated] at hj
    have q := h.queued j hj
    exact ⟨hc.fresh ▸ q.fresh, (e j).start ▸ q.start, (e j).start ▸ q.positive,
      (e j).intervals ▸ q.nonempty, by rw [(e j).finger, q.reset, (e j).eq]; rfl,
      (e j).vreg ▸ q.vreg, fun reg => by rw [(e j).holds]; exact q.free reg⟩
  · rw [hc.registers] at ha hb
    rw [(e a).vreg, (e b).vreg]
    exact h.oneBlocking reg a ha b hb
  · rw [hc.registers] at ha
    have o := h.occupants reg a ha
    refine ⟨(e a).holds.2 o.holds, ?_, ?_, fun hv => ?_⟩
    · rw [(e a).intervals, (e a).finger]; exact o.pending
    · rw [(e a).uses, (e a).finger]; exact o.cache.slots hc.slots
    · rw [(e a).start]; exact o.started ((e a).vreg ▸ hv)
  · rw [(e j).intervals] at hq
    exact h.retired j reg ((e j).holds.1 hj) (hc.registers ▸ hn) q hq
  · rw [(e k).intervals]
    rw [(e j).intervals] at hq
    exact h.disjoint reg j k hjk ((e j).holds.1 hj) ((e k).holds.1 hk) q hq

end Inv

/-! ## Operations on one range -/

section Cut
variable (c : AllocCtx)

/-- What every state of the loop keeps, whatever its register lists: the shape
of every range, unused ids that hold nothing, and a sorted worklist of used
ids. -/
structure StateShape (s : AllocState) : Prop where
  ranges : ∀ j, RangeOk c s.slots (s.ranges j)
  junk : ∀ j, s.fresh ≤ j → ∀ reg, ¬ Holds c (s.ranges j) reg
  sorted : s.unallocated.Pairwise fun a b => (s.ranges b).start ≤ (s.ranges a).start
  nodup : s.unallocated.Nodup
  used : ∀ j ∈ s.unallocated, j < s.fresh

/-- What an operation on range `X` at loop position `pos` leaves: every other
used range as it was up to its spill slot; the ranges it creates holding no
register; `X` holding no new register and covering no new position; and the
worklist grown by queued ranges, `X` itself or new ones. -/
structure Cut (pos : Nat) (s s' : AllocState) (X : Nat) : Prop where
  base : StateShape c s'
  fresh : s.fresh ≤ s'.fresh
  slots : SlotsMono s.slots s'.slots
  keep : ∀ j < s.fresh, j ≠ X → SameBut c (s.ranges j) (s'.ranges j)
  junk : ∀ j, s.fresh ≤ j → ∀ reg, ¬ Holds c (s'.ranges j) reg
  holds : ∀ reg, Holds c (s'.ranges X) reg → Holds c (s.ranges X) reg
  covers : ∀ q, intervalsCover (s'.ranges X).intervals q = true →
    intervalsCover (s.ranges X).intervals q = true
  queue : ∀ j ∈ s'.unallocated, j ∈ s.unallocated ∨ ((j = X ∨ s.fresh ≤ j) ∧ OnWorklist c pos s' j)

/-- The range in hand at `pos`: off the worklist, holding nothing, starting at
`pos`, with its first interval pending and its register-use cache valid from
`pos`. -/
structure Ready (pos : Nat) (s : AllocState) (R : Nat) : Prop where
  fresh : R < s.fresh
  notQueued : R ∉ s.unallocated
  free : ∀ reg, ¬ Holds c (s.ranges R) reg
  start : (s.ranges R).start = pos
  nonempty : (s.ranges R).intervals ≠ []
  vreg : (s.ranges R).vreg ≠ kNoVirtualRegister
  pending : (s.ranges R).finger.pending = some 0
  cache : UseCacheValid (isRegisterUse s.slots) (s.ranges R).uses (s.ranges R).finger.registerUse pos

variable {c} {pos : Nat}

theorem RegInv.base {s : AllocState} (h : RegInv c pos s) : StateShape c s :=
  ⟨h.ranges, h.junk, h.sorted, h.nodup, fun j hj => (h.queued j hj).fresh⟩

/-- A range that holds a register is a used one. -/
theorem StateShape.lt_of_holds {s : AllocState} (h : StateShape c s) {j reg : Nat}
    (hj : Holds c (s.ranges j) reg) : j < s.fresh :=
  Nat.lt_of_not_le fun hle => h.junk j hle reg hj

theorem OnWorklist.sameBut {s s' : AllocState} {j : Nat} (q : OnWorklist c pos s j)
    (e : SameBut c (s.ranges j) (s'.ranges j)) (hf : s.fresh ≤ s'.fresh) : OnWorklist c pos s' j :=
  ⟨q.fresh.trans_le hf, e.start ▸ q.start, e.start ▸ q.positive, e.intervals ▸ q.nonempty,
    by rw [e.finger, q.reset, e.eq]; rfl, e.vreg ▸ q.vreg,
    fun reg => by rw [e.holds]; exact q.free reg⟩

theorem Occupant.sameBut {s s' : AllocState} {reg a : Nat} (o : Occupant c pos s reg a)
    (e : SameBut c (s.ranges a) (s'.ranges a)) (hs : SlotsMono s.slots s'.slots) :
    Occupant c pos s' reg a :=
  ⟨e.holds.2 o.holds, by rw [e.intervals, e.finger]; exact o.pending,
    by rw [e.uses, e.finger]; exact o.cache.slots hs, fun hv => e.start ▸ o.started (e.vreg ▸ hv)⟩

/-- Two operations compose when the second works on the same range or on one
the first created. -/
theorem Cut.trans {s₁ s₂ s₃ : AllocState} {X Y : Nat} (h₁ : Cut c pos s₁ s₂ X)
    (h₂ : Cut c pos s₂ s₃ Y) (hX : X < s₁.fresh) (hY : Y = X ∨ s₁.fresh ≤ Y)
    (hYq : Y ∉ s₂.unallocated) : Cut c pos s₁ s₃ X := by
  have hne : ∀ j < s₁.fresh, j ≠ X → j ≠ Y := fun j hj hjX => by
    rcases hY with rfl | hY <;> omega
  refine ⟨h₂.base, h₁.fresh.trans h₂.fresh, h₁.slots.trans h₂.slots,
    fun j hj hjX => (h₁.keep j hj hjX).trans (h₂.keep j (hj.trans_le h₁.fresh) (hne j hj hjX)),
    fun j hj reg hh => ?_, fun reg hh => ?_, fun q hq => ?_, fun j hj => ?_⟩
  · by_cases hjY : j = Y
    · subst hjY; exact h₁.junk j hj reg (h₂.holds reg hh)
    by_cases hj₂ : j < s₂.fresh
    · exact h₁.junk j hj reg ((h₂.keep j hj₂ hjY).holds.1 hh)
    · exact h₂.junk j (Nat.le_of_not_lt hj₂) reg hh
  · rcases hY with rfl | hY
    · exact h₁.holds reg (h₂.holds reg hh)
    · exact h₁.holds reg ((h₂.keep X (hX.trans_le h₁.fresh) (by omega)).holds.1 hh)
  · rcases hY with rfl | hY
    · exact h₁.covers q (h₂.covers q hq)
    · exact h₁.covers q ((h₂.keep X (hX.trans_le h₁.fresh) (by omega)).intervals ▸ hq)
  · rcases h₂.queue j hj with hj | ⟨hjn, hq⟩
    · rcases h₁.queue j hj with hj | ⟨hjn, hq⟩
      · exact .inl hj
      · exact .inr ⟨hjn, hq.sameBut (h₂.keep j hq.fresh fun e => hYq (e ▸ hj)) h₂.fresh⟩
    · refine .inr ⟨?_, hq⟩
      rcases hjn with rfl | hjn
      · exact hY
      · exact .inr (h₁.fresh.trans hjn)

/-- After an operation on `X`, a range that holds a register is a used range
that held it before and covers nothing new. -/
theorem Cut.old {s s' : AllocState} {X : Nat} (hc : Cut c pos s s' X) {j reg : Nat}
    (hj : Holds c (s'.ranges j) reg) :
    j < s.fresh ∧ Holds c (s.ranges j) reg ∧ ∀ q, intervalsCover (s'.ranges j).intervals q = true →
      intervalsCover (s.ranges j).intervals q = true := by
  have hlt : j < s.fresh := Nat.lt_of_not_le fun hle => hc.junk j hle reg hj
  by_cases hjX : j = X
  · subst hjX; exact ⟨hlt, hc.holds reg hj, hc.covers⟩
  · have e := hc.keep j hlt hjX
    exact ⟨hlt, e.holds.1 hj, fun q hq => e.intervals ▸ hq⟩

/-- An operation on a range off the worklist keeps the invariant once the range
is off the register lists and holds its register, if at all, only before
`pos`. -/
theorem RegInv.cut {s s' : AllocState} {X : Nat} (h : RegInv c pos s) (hc : Cut c pos s s' X)
    (hXq : X ∉ s.unallocated) (hregs : ∀ reg, s'.registers reg = (s.registers reg).filter (· ≠ X))
    (hself : ∀ reg, Holds c (s'.ranges X) reg →
      ∀ q, intervalsCover (s'.ranges X).intervals q = true → q < pos) :
    RegInv c pos s' := by
  have hocc : ∀ reg a, a ∈ s'.registers reg → a ∈ s.registers reg ∧ a ≠ X := fun reg a ha => by
    rw [hregs, List.mem_filter, decide_eq_true_iff] at ha; exact ha
  have hsame : ∀ reg a, a ∈ s'.registers reg → SameBut c (s.ranges a) (s'.ranges a) :=
    fun reg a ha => hc.keep a (h.base.lt_of_holds (h.occupants reg a (hocc reg a ha).1).holds)
      (hocc reg a ha).2
  refine ⟨hc.base.ranges, fun j hj => hc.junk j (hc.fresh.trans hj), hc.base.sorted, hc.base.nodup,
    fun j hj => ?_, fun reg hreg => by rw [hregs, h.outside reg hreg]; rfl,
    fun reg => hregs reg ▸ (h.regsNodup reg).filter _, fun reg a ha b hb hva hvb => ?_,
    fun reg a ha => (h.occupants reg a (hocc reg a ha).1).sameBut (hsame reg a ha) hc.slots,
    fun j reg hj hn q hq => ?_, fun reg j k hjk hj hk q hq => ?_⟩
  · rcases hc.queue j hj with hj | ⟨-, hq⟩
    · have q := h.queued j hj
      exact q.sameBut (hc.keep j q.fresh fun e => hXq (e ▸ hj)) hc.fresh
    · exact hq
  · rw [(hsame reg a ha).vreg] at hva
    rw [(hsame reg b hb).vreg] at hvb
    exact h.oneBlocking reg a (hocc reg a ha).1 b (hocc reg b hb).1 hva hvb
  · by_cases hjX : j = X
    · subst hjX; exact hself reg hj q hq
    obtain ⟨-, hh, hcov⟩ := hc.old hj
    refine h.retired j reg hh (fun hm => hn ?_) q (hcov q hq)
    rw [hregs, List.mem_filter, decide_eq_true_iff]
    exact ⟨hm, hjX⟩
  · obtain ⟨-, hj', hcj⟩ := hc.old hj
    obtain ⟨-, hk', hck⟩ := hc.old hk
    have := h.disjoint reg j k hjk hj' hk' q (hcj q hq)
    cases e : intervalsCover (s'.ranges k).intervals q
    · rfl
    · rw [hck q e] at this; cases this

end Cut

/-! ## Putting a range on a register -/

section Assign
variable {c : AllocCtx} {pos : Nat}

@[simp] theorem assignRegister_ranges (s : AllocState) (id reg j : Nat) :
    (assignRegister c s id reg).ranges j =
      if j = id then { s.ranges id with assigned := makeRegisterLocation c.registerKind reg }
      else s.ranges j := rfl
@[simp] theorem assignRegister_ranges_self (s : AllocState) (id reg : Nat) :
    (assignRegister c s id reg).ranges id =
      { s.ranges id with assigned := makeRegisterLocation c.registerKind reg } := by simp
@[simp] theorem assignRegister_registers (s : AllocState) (id reg r : Nat) :
    (assignRegister c s id reg).registers r = if r = reg then s.registers r ++ [id] else s.registers r := rfl
@[simp] theorem assignRegister_slots (s : AllocState) (id reg : Nat) :
    (assignRegister c s id reg).slots = s.slots := rfl
@[simp] theorem assignRegister_fresh (s : AllocState) (id reg : Nat) :
    (assignRegister c s id reg).fresh = s.fresh := rfl
@[simp] theorem assignRegister_unallocated (s : AllocState) (id reg : Nat) :
    (assignRegister c s id reg).unallocated = s.unallocated := rfl

theorem makeRegisterLocation_inj {k : RegisterKind} {a b : Nat} :
    makeRegisterLocation k a = makeRegisterLocation k b ↔ a = b := by
  cases k <;> simp [makeRegisterLocation]

theorem makeRegisterLocation_requiresRegisterPolicy (k : RegisterKind) (reg : Nat) :
    (makeRegisterLocation k reg).requiresRegisterPolicy = false := by
  cases k <;> rfl

/-- Everything a range covers lies at or after its start. -/
theorem LiveRange.start_le_of_cover {r : LiveRange} (h : IntervalsAscending r.intervals) {q : Nat}
    (hq : intervalsCover r.intervals q = true) : r.start ≤ q := by
  cases hr : r.intervals with
  | nil => rw [hr] at hq; cases hq
  | cons iv ivs =>
    rw [hr] at h hq
    simpa [LiveRange.start, hr] using h.start_le hq

/-- Putting the range in hand on a register of the class keeps the invariant
when no occupant of the register covers a position it covers. -/
theorem RegInv.assign {s : AllocState} {R reg : Nat} (h : RegInv c pos s) (hR : Ready c pos s R)
    (hreg : reg < c.numberOfRegisters)
    (hcompat : ∀ a ∈ s.registers reg, ∀ q, intervalsCover (s.ranges R).intervals q = true →
      intervalsCover (s.ranges a).intervals q = false) :
    RegInv c pos (assignRegister c s R reg) := by
  have hRnot : ∀ r, R ∉ s.registers r := fun r hm => hR.free r (h.occupants r R hm).holds
  have hne : ∀ j ∈ s.unallocated, j ≠ R := fun j hj e => hR.notQueued (e ▸ hj)
  have hsame : ∀ j, j ≠ R → (assignRegister c s R reg).ranges j = s.ranges j := fun j hj => by
    simp [hj]
  have hRholds : ∀ r, Holds c ((assignRegister c s R reg).ranges R) r ↔ r = reg := fun r => by
    simp [Holds, makeRegisterLocation_inj, eq_comm]
  -- the pair of the new occupant and another holder of its register
  have hpair : ∀ k, k ≠ R → Holds c (s.ranges k) reg → ∀ q,
      intervalsCover (s.ranges R).intervals q = true → intervalsCover (s.ranges k).intervals q = false := by
    intro k hkR hk q hq
    by_cases hm : k ∈ s.registers reg
    · exact hcompat k hm q hq
    · cases e : intervalsCover (s.ranges k).intervals q
      · rfl
      · have h₁ := h.retired k reg hk hm q e
        have h₂ := LiveRange.start_le_of_cover (h.ranges R).ascending hq
        have h₃ := hR.start
        omega
  refine ⟨fun j => ?_, fun j hj r => ?_, ?_, h.nodup, fun j hj => ?_, fun r hr => ?_, fun r => ?_,
    fun r a ha b hb hva hvb => ?_, fun r a ha => ?_, fun j r hj hn q hq => ?_,
    fun r j k hjk hj hk q hq => ?_⟩
  · by_cases hj : j = R
    · subst hj
      have := h.ranges j
      simp only [assignRegister_ranges_self, assignRegister_slots]
      exact ⟨this.ascending, this.bounded, this.usesSorted, this.safepointsSorted, this.usesCovered,
        this.evenUse, this.oddUse, this.loopPhi, this.temp, this.blocking, this.spillSlot,
        makeRegisterLocation_requiresRegisterPolicy _ _⟩
    · rw [hsame j hj]; exact h.ranges j
  · rw [hsame j (by have := hR.fresh; simp at hj; omega)]; exact h.junk j hj r
  · simp only [assignRegister_unallocated]
    exact h.sorted.imp_of_mem fun {a b} ha hb hab => by
      rw [hsame a (hne a ha), hsame b (hne b hb)]; exact hab
  · simp only [assignRegister_unallocated] at hj
    exact (h.queued j hj).sameBut (by rw [hsame j (hne j hj)]; exact SameBut.refl _) le_rfl
  · simp only [assignRegister_registers, if_neg (show r ≠ reg by omega)]; exact h.outside r hr
  · simp only [assignRegister_registers]
    split_ifs with e
    · subst e
      exact List.pairwise_append.2 ⟨h.regsNodup r, List.pairwise_singleton _ _,
        fun x hx y hy e => hRnot r (List.mem_singleton.1 hy ▸ e ▸ hx)⟩
    · exact h.regsNodup r
  · have hv : ∀ x, x ∈ (assignRegister c s R reg).registers r →
        ((assignRegister c s R reg).ranges x).vreg = kNoVirtualRegister → x ∈ s.registers r ∧ x ≠ R := by
      intro x hx hvx
      have hxR : x ≠ R := fun e => hR.vreg (by subst e; simpa using hvx)
      simp only [assignRegister_registers] at hx
      split_ifs at hx
      · exact ⟨(List.mem_append.1 hx).resolve_right fun e => hxR (List.mem_singleton.1 e), hxR⟩
      · exact ⟨hx, hxR⟩
    obtain ⟨ha', haR⟩ := hv a ha hva
    obtain ⟨hb', hbR⟩ := hv b hb hvb
    rw [hsame a haR] at hva
    rw [hsame b hbR] at hvb
    exact h.oneBlocking r a ha' b hb' hva hvb
  · simp only [assignRegister_registers] at ha
    by_cases haR : a = R
    · subst haR
      have hr : r = reg := by
        split_ifs at ha with e
        · exact e
        · exact absurd ha (hRnot r)
      subst hr
      refine ⟨(hRholds r).2 rfl, ?_, ?_, fun _ => ?_⟩
      · simp only [assignRegister_ranges_self, hR.pending]
        exact ⟨List.length_pos.2 hR.nonempty, by simp⟩
      · simp only [assignRegister_ranges_self, assignRegister_slots]
        exact hR.cache.mono (le_interferingFrom pos)
      · simp only [assignRegister_ranges_self]; exact hR.start.le
    · have ha' : a ∈ s.registers r := by
        split_ifs at ha
        · exact (List.mem_append.1 ha).resolve_right fun e => haR (List.mem_singleton.1 e)
        · exact ha
      exact (h.occupants r a ha').sameBut (by rw [hsame a haR]; exact SameBut.refl _)
        (SlotsMono.refl _)
  · by_cases hjR : j = R
    · subst hjR
      have hr := (hRholds r).1 hj
      subst hr
      exact absurd (by simp) hn
    · rw [hsame j hjR] at hj hq
      exact h.retired j r hj (fun hm => hn (by simp only [assignRegister_registers]; split_ifs <;> simp [hm])) q hq
  · by_cases hjR : j = R
    · subst hjR
      have hr := (hRholds r).1 hj
      subst hr
      have hkR : k ≠ j := Ne.symm hjk
      rw [hsame k hkR] at hk ⊢
      simp only [assignRegister_ranges_self] at hq
      exact hpair k hkR hk q hq
    · rw [hsame j hjR] at hj hq
      by_cases hkR : k = R
      · subst hkR
        have hr := (hRholds r).1 hk
        subst hr
        simp only [assignRegister_ranges_self]
        cases e : intervalsCover (s.ranges k).intervals q
        · rfl
        · rw [hpair j hjR hj q e] at hq; cases hq
      · rw [hsame k hkR] at hk ⊢
        exact h.disjoint r j k hjk hj hk q hq

end Assign

end LinearScan
