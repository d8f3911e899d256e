import LinearScan.AnyRegister

/-!
# `AdvanceActiveIntervals` makes the occupants live

> `Live pos s`: every range on a register list has, as its pending interval,
> its first interval that ends after `pos`.

`AllocateAnyRegister` reads the occupants' pending intervals as exact, and it
runs right after `AdvanceActiveIntervals(pos)`, which is what makes them so. Its
walk over one register moves every occupant's finger to that interval and
retires, off the list, the occupants with none left (`AdvanceOk`,
`advanceOk_step`); the walk of one register touches only that register's
occupants, so the registers visited before it stay live, and a range in hand
stays in hand (`advanceActiveIntervals_spec`).
-/

namespace LinearScan

open AllocState Finger

section Walk
variable {c : AllocCtx} {pos : Nat}

/-- A range in hand stays in hand when its range, the worklist and the id
counter stay, and slots only lose register policies. -/
theorem Ready.frame {s s' : AllocState} {R : Nat} (hR : Ready c pos s R) (hr : s'.ranges R = s.ranges R)
    (hslots : SlotsMono s.slots s'.slots) (hfresh : s'.fresh = s.fresh)
    (hunal : s'.unallocated = s.unallocated) : Ready c pos s' R := by
  refine ⟨hfresh ▸ hR.fresh, hunal ▸ hR.notQueued, ?_, ?_, ?_, ?_, ?_, ?_⟩ <;> rw [hr]
  exacts [hR.free, hR.start, hR.nonempty, hR.vreg, hR.pending, hR.cache.slots hslots]

variable (c) in
/-- The invariant of `AdvanceActiveIntervals`' walk over the occupants of `reg`
in `s₀`, with the indices `rest` still to visit: with the kept entries as the
register's list, the state keeps the invariant; a kept entry is the occupant at
its index, untouched while still to visit, and once visited it has an interval
ending after `pos`, the first of which is pending; nothing changes but those
occupants' fingers and the slots, which only lose register policies. -/
structure AdvanceOk (pos : Nat) (s₀ : AllocState) (reg : Nat) (rest : List Nat)
    (acc : AllocState × List (Option Nat)) : Prop where
  inv : RegInv c pos (removeEvicted acc.1 reg acc.2)
  frame : ∀ j ∉ s₀.registers reg, acc.1.ranges j = s₀.ranges j
  shape : ∀ j, ∃ f, acc.1.ranges j = { s₀.ranges j with finger := f }
  slots : SlotsMono s₀.slots acc.1.slots
  fresh : acc.1.fresh = s₀.fresh
  unallocated : acc.1.unallocated = s₀.unallocated
  registers : acc.1.registers = s₀.registers
  entries : ∀ (k x : Nat), acc.2[k]? = some (some x) → (s₀.registers reg)[k]? = some x
  todo : ∀ k ∈ rest, acc.2[k]? = some (some ((s₀.registers reg).getD k 0))
  live : ∀ (k x : Nat), k ∉ rest → acc.2[k]? = some (some x) →
    (acc.1.ranges x).finger.pending = freshPending (acc.1.ranges x).intervals pos ∧
      freshPending (acc.1.ranges x).intervals pos ≠ none
  nodup : rest.Nodup

variable {s₀ t : AllocState} {reg i : Nat} {rest : List Nat} {kept : List (Option Nat)}

/-- One visit of `AdvanceActiveIntervals`' walk keeps its invariant: the
occupant's finger moves to its first interval ending after `pos`, and an
occupant with none left, which covers only positions before `pos`, is retired. -/
theorem advanceOk_step (hocc : (s₀.registers reg).Nodup)
    (h : AdvanceOk c pos s₀ reg (i :: rest) (t, kept)) :
    AdvanceOk c pos s₀ reg rest (advanceOccupant c pos (s₀.registers reg) (t, kept) i) := by
  obtain ⟨hinv, hframe, hshape, hslots, hfresh, hunal, hregs, hent, htodo, hlive, hnd⟩ := h
  dsimp only at hinv hframe hshape hslots hfresh hunal hregs hent htodo hlive
  obtain ⟨hir, hnd⟩ := List.nodup_cons.1 hnd
  have htodo' : ∀ k ∈ rest, kept[k]? = some (some ((s₀.registers reg).getD k 0)) := fun k hk =>
    htodo k (List.mem_cons_of_mem _ hk)
  unfold advanceOccupant
  dsimp only
  have hki := htodo i (List.mem_cons_self _ _)
  generalize (s₀.registers reg).getD i 0 = a at hki ⊢
  have huniq := entry_unique hocc hent hki
  have ha₀ : a ∈ s₀.registers reg := List.getElem?_mem (hent i a hki)
  have ham : a ∈ (removeEvicted t reg kept).registers reg := by
    rw [removeEvicted_registers, if_pos rfl]; exact mem_filterMap_of_getElem? hki
  have o := hinv.occupants reg a ham
  have hpend : ((t.ranges a).finger.advance (t.ranges a).intervals pos).1.pending =
      freshPending (t.ranges a).intervals pos := advance_eq_freshPending o.pending le_rfl
  have hru : ((t.ranges a).finger.advance (t.ranges a).intervals pos).1.registerUse =
      (t.ranges a).finger.registerUse := rfl
  have hdone : ((t.ranges a).finger.advance (t.ranges a).intervals pos).2 =
      ((t.ranges a).finger.advance (t.ranges a).intervals pos).1.pending.isNone := rfl
  generalize (t.ranges a).finger.advance (t.ranges a).intervals pos = f at hpend hru hdone ⊢
  obtain ⟨f, done⟩ := f
  dsimp only at hpend hru hdone ⊢
  -- the finger moves to the first interval ending after `pos`
  have h₁ : RegInv c pos (removeEvicted (t.setRange a { t.ranges a with finger := f }) reg kept) :=
    hinv.setFinger ham (hpend ▸ pendingValid_freshPending) (hru ▸ o.cache)
  have hother : ∀ j, j ≠ a → (t.setRange a { t.ranges a with finger := f }).ranges j = t.ranges j :=
    fun j hj => setRange_ranges_ne _ _ hj
  have hframe₁ : ∀ j ∉ s₀.registers reg, (t.setRange a { t.ranges a with finger := f }).ranges j =
      s₀.ranges j := fun j hj => (hother j fun e => hj (e ▸ ha₀)).trans (hframe j hj)
  have hshape₁ : ∀ j, ∃ g, (t.setRange a { t.ranges a with finger := f }).ranges j =
      { s₀.ranges j with finger := g } := fun j => by
    by_cases hj : j = a
    · subst hj
      obtain ⟨g, hg⟩ := hshape j
      exact ⟨f, by rw [setRange_ranges_self, hg]⟩
    · rw [hother j hj]; exact hshape j
  cases done with
  | false =>
    rw [if_neg Bool.false_ne_true]
    have hne : freshPending (t.ranges a).intervals pos ≠ none := fun e => by
      rw [hpend, e] at hdone; cases hdone
    refine ⟨h₁, hframe₁, hshape₁, hslots, hfresh, hunal, hregs, hent, htodo', fun k x hk hx => ?_,
      hnd⟩
    by_cases hxa : x = a
    · subst hxa
      rw [setRange_ranges_self]
      exact ⟨hpend, hne⟩
    · rw [hother x hxa]
      refine hlive k x (fun hm => ?_) hx
      rcases List.mem_cons.1 hm with rfl | hm
      · rw [hki] at hx; cases hx; exact hxa rfl
      · exact hk hm
  | true =>
    -- nothing left after `pos`: the occupant is retired
    rw [if_pos rfl]
    have hv : PendingValid (t.ranges a).intervals none pos := by
      rw [← Option.isNone_iff_eq_none.1 hdone.symm, hpend]; exact pendingValid_freshPending
    have hcalm := calm_convertAllUses c (t.setRange a { t.ranges a with finger := f }) a
      (by rw [setRange_ranges_self]; exact (hinv.ranges a).assigned)
    obtain ⟨-, h₂⟩ := h₁.clearEntry hki huniq (Cut.of_calm h₁.base.of_removeEvicted hcalm a)
      hcalm.registers fun _ _ q hq => lt_of_intervalsCover hv
        (by rwa [convertAllUses_ranges, setRange_ranges_self] at hq)
    refine ⟨h₂, fun j hj => by rw [convertAllUses_ranges]; exact hframe₁ j hj,
      fun j => by rw [convertAllUses_ranges]; exact hshape₁ j, hslots.trans hcalm.slots, hcalm.fresh.trans hfresh, hcalm.unallocated.trans hunal,
      hcalm.registers.trans hregs, fun k x hx => hent k x (getElem?_set_none hx).2,
      fun k hk => ?_, fun k x hk hx => ?_, hnd⟩
    · rw [List.getElem?_set_ne fun (e : i = k) => hir (e ▸ hk)]
      exact htodo' k hk
    · obtain ⟨hki', hx⟩ := getElem?_set_none hx
      rw [convertAllUses_ranges, hother x fun e => hki' (huniq k (by rw [hx, e]))]
      exact hlive k x (by simp [hk, hki']) hx


variable (c) in
/-- What `AdvanceActiveIntervals(pos)` does to register `reg`, taking `s` to
`s'`: the invariant holds; the register keeps those of its occupants that still
have an interval ending after `pos`, with the first such pending; no other list
changes, no range changes but in its finger, and a range off the register not
at all. -/
structure RegisterAdvanced (pos : Nat) (s s' : AllocState) (reg : Nat) : Prop where
  inv : RegInv c pos s'
  live : ∀ a ∈ s'.registers reg,
    (s'.ranges a).finger.pending = freshPending (s'.ranges a).intervals pos ∧
      freshPending (s'.ranges a).intervals pos ≠ none
  sub : ∀ a ∈ s'.registers reg, a ∈ s.registers reg
  others : ∀ r, r ≠ reg → s'.registers r = s.registers r
  frame : ∀ j ∉ s.registers reg, s'.ranges j = s.ranges j
  shape : ∀ j, ∃ f, s'.ranges j = { s.ranges j with finger := f }
  slots : SlotsMono s.slots s'.slots
  fresh : s'.fresh = s.fresh
  unallocated : s'.unallocated = s.unallocated

/-- `AdvanceActiveIntervals(pos)` on one register does what `RegisterAdvanced`
says. -/
theorem advanceRegister_spec {s : AllocState} (h : RegInv c pos s) (reg : Nat) :
    RegisterAdvanced c pos s (advanceRegister c s pos reg) reg := by
  obtain ⟨hent, htodo, hnone⟩ := walk_start (s.registers reg)
  have hstart : AdvanceOk c pos s reg (List.range (s.registers reg).length).reverse
      (s, (s.registers reg).map some) :=
    ⟨by dsimp only; rw [removeEvicted_map_some]; exact h, fun _ _ => rfl,
      fun j => ⟨(s.ranges j).finger, rfl⟩, SlotsMono.refl _, rfl, rfl, rfl, hent, htodo,
      fun k x hk hx => absurd hx (hnone k x hk), List.nodup_reverse.2 (List.nodup_range _)⟩
  have hend := foldl_rest_inv (advanceOccupant c pos (s.registers reg)) (AdvanceOk c pos s reg)
    (fun _ _ _ hw => advanceOk_step (h.regsNodup reg) hw) _ _ hstart
  unfold advanceRegister walkOccupants
  generalize (List.range (s.registers reg).length).reverse.foldl
    (advanceOccupant c pos (s.registers reg)) (s, (s.registers reg).map some) = acc at hend ⊢
  obtain ⟨t, kept⟩ := acc
  have hkept : ∀ a ∈ (removeEvicted t reg kept).registers reg, ∃ k, kept[k]? = some (some a) :=
    fun a ha => by
      rw [removeEvicted_registers, if_pos rfl] at ha
      obtain ⟨k, hk⟩ := List.mem_iff_getElem?.1 (List.mem_filterMap.1 ha).choose_spec.1
      exact ⟨k, by rw [hk, (List.mem_filterMap.1 ha).choose_spec.2]⟩
  refine ⟨hend.inv, fun a ha => ?_, fun a ha => ?_,
    fun r hr => by rw [removeEvicted_registers, if_neg hr, hend.registers],
    hend.frame, hend.shape, hend.slots, hend.fresh, hend.unallocated⟩
  · obtain ⟨k, hk⟩ := hkept a ha
    exact hend.live k a (List.not_mem_nil k) hk
  · obtain ⟨k, hk⟩ := hkept a ha
    exact List.getElem?_mem (hend.entries k a hk)

end Walk

/-! ## Every register -/

section Registers
variable {c : AllocCtx} {pos : Nat} {s : AllocState}

variable (c) in
/-- `AdvanceActiveIntervals(pos)` run on `s` up to `t`, with the registers
`rest` still to visit: the invariant holds; every occupant of a visited
register has an interval ending after `pos`, the first of which is pending; the
lists only lost ranges, the ranges only moved their fingers, and a range in
hand stays in hand. -/
structure Advanced (pos : Nat) (s : AllocState) (rest : List Nat) (t : AllocState) : Prop where
  inv : RegInv c pos t
  live : ∀ reg ∈ c.regOrder, reg ∉ rest → ∀ a ∈ t.registers reg,
    (t.ranges a).finger.pending = freshPending (t.ranges a).intervals pos ∧
      freshPending (t.ranges a).intervals pos ≠ none
  sub : ∀ reg, ∀ a ∈ t.registers reg, a ∈ s.registers reg
  shape : ∀ j, ∃ f, t.ranges j = { s.ranges j with finger := f }
  ready : ∀ R, Ready c pos s R → Ready c pos t R

/-- The walk of one more register extends `Advanced`: its occupants become
live, and those of the registers visited before are off its list, so they keep
their fingers. -/
theorem Advanced.register {reg : Nat} {rest : List Nat} {t : AllocState}
    (h : Advanced c pos s (reg :: rest) t) : Advanced c pos s rest (advanceRegister c t pos reg) := by
  have H := advanceRegister_spec h.inv reg
  refine ⟨H.inv, fun reg' hr hn a ha => ?_, fun reg' a ha => ?_, fun j => ?_, fun R hR₀ => ?_⟩
  · by_cases e : reg' = reg
    · subst e; exact H.live a ha
    rw [H.others reg' e] at ha
    have ho := (h.inv.occupants reg' a ha).holds
    rw [H.frame a fun ha' => e (holds_inj c ho (h.inv.occupants reg a ha').holds)]
    exact h.live reg' hr (by simp [e, hn]) a ha
  · by_cases e : reg' = reg
    · subst e; exact h.sub reg' a (H.sub a ha)
    · rw [H.others reg' e] at ha; exact h.sub reg' a ha
  · obtain ⟨f, hf⟩ := H.shape j
    obtain ⟨g, hg⟩ := h.shape j
    exact ⟨f, by rw [hf, hg]⟩
  · have hRt := h.ready R hR₀
    exact hRt.frame (H.frame R fun hm => hRt.free reg (h.inv.occupants reg R hm).holds) H.slots
      H.fresh H.unallocated

/-- Once every register is visited, every occupant, of any register, has an
interval ending after `pos`, the first of which is pending. -/
theorem Advanced.occupants {t : AllocState} (h : Advanced c pos s [] t) (reg : Nat) :
    ∀ a ∈ t.registers reg, (t.ranges a).finger.pending = freshPending (t.ranges a).intervals pos ∧
      freshPending (t.ranges a).intervals pos ≠ none := by
  by_cases hn : reg < c.numberOfRegisters
  · exact h.live reg (mem_regOrder c hn) (List.not_mem_nil _)
  · rw [h.inv.outside reg (Nat.le_of_not_lt hn)]
    exact fun a ha => absurd ha (List.not_mem_nil a)

/-- `AdvanceActiveIntervals(pos)` does what `Advanced` says, over all the
registers. -/
theorem advanceActiveIntervals_spec (h : RegInv c pos s) :
    Advanced c pos s [] (advanceActiveIntervals c s pos) :=
  foldl_rest_inv (fun s reg => advanceRegister c s pos reg) (Advanced c pos s)
    (fun _ _ _ ht => ht.register) c.regOrder s
    ⟨h, fun _ hr hn => absurd hr hn, fun _ _ ha => ha, fun j => ⟨(s.ranges j).finger, rfl⟩,
      fun _ hR => hR⟩

/-- The occupants are live after `AdvanceActiveIntervals(pos)`. -/
theorem Advanced.toLive {t : AllocState} (h : Advanced c pos s [] t) : Live pos t :=
  fun reg a ha => (h.occupants reg a ha).1

/-- A range with an interval ending after `pos` covers a position at or after
`pos`. -/
theorem cover_of_freshPending {ivs : List UseInterval} (hasc : IntervalsAscending ivs)
    (h : freshPending ivs pos ≠ none) : ∃ q, pos ≤ q ∧ intervalsCover ivs q = true := by
  obtain ⟨k, hk⟩ := Option.ne_none_iff_exists'.1 h
  obtain ⟨hlt, hstop, -⟩ := List.findIdx?_eq_some_iff_getElem.1 hk
  rw [decide_eq_true_eq] at hstop
  have hiv := hasc.1 _ (List.getElem_mem hlt)
  refine ⟨max pos ivs[k].start, le_max_left _ _,
    List.any_eq_true.2 ⟨ivs[k], List.getElem_mem hlt, ?_⟩⟩
  simp only [UseInterval.contains, Bool.and_eq_true, decide_eq_true_eq]
  omega

/-- After `AdvanceActiveIntervals(pos)` a range is on a register's list exactly
when it was on it before and still covers a position at or after `pos`: the
walk retires every finished occupant, and no other. -/
theorem advanceActiveIntervals_registers_iff (h : RegInv c pos s) (reg a : Nat) :
    a ∈ (advanceActiveIntervals c s pos).registers reg ↔
      a ∈ s.registers reg ∧ ∃ q, pos ≤ q ∧ intervalsCover (s.ranges a).intervals q = true := by
  have H := advanceActiveIntervals_spec h
  obtain ⟨f, hf⟩ := H.shape a
  constructor
  · intro ha
    have hcov := cover_of_freshPending (H.inv.ranges a).ascending (H.occupants reg a ha).2
    rw [hf] at hcov
    exact ⟨H.sub reg a ha, hcov⟩
  · rintro ⟨ha, q, hq, hcov⟩
    by_contra hn
    have hold : Holds c ((advanceActiveIntervals c s pos).ranges a) reg := by
      rw [hf]; exact (h.occupants reg a ha).holds
    have := H.inv.retired a reg hold hn q (by rw [hf]; exact hcov)
    omega

end Registers

end LinearScan
