import Mathlib.Data.List.Nodup
import LinearScan.FreeRegister

/-!
# `AssignNonFreeRegister` keeps the occupancy invariant

`AllocateAnyRegister` takes a register from the ranges that hold it: the walk
of `AssignNonFreeRegister` evicts every occupant that may be spilled and meets
the range in hand. One eviction is a cut of the occupant after which it holds
the register only before the current position (`evictIntersection_cut`). The
walk keeps the invariant of the state whose list for the register is the
occupants kept so far (`WalkOk`, on `removeEvicted`), so that at its end every
occupant left shares no position with the range, and the range goes on the
register (`assignNonFreeRegister_inv`). What the walk needs of the occupants
it never evicts is `EvictOk`; `AllocateAnyRegister`'s scan provides it.
-/

namespace LinearScan

open AllocState Finger

/-! ## Covers and uses -/

theorem LiveRange.cover_start {r : LiveRange} (h : IntervalsAscending r.intervals)
    (hne : r.intervals ≠ []) : intervalsCover r.intervals r.start = true := by
  cases hr : r.intervals with
  | nil => exact absurd hr hne
  | cons iv ivs =>
    have := h.1 iv (hr ▸ List.mem_cons_self _ _)
    simp [intervalsCover, LiveRange.start, hr, UseInterval.contains, this]

theorem cover_of_pending {r : LiveRange} {q : Nat} (h : intervalsCover r.pendingIntervals q = true) :
    intervalsCover r.intervals q = true := by
  obtain ⟨iv, hiv, hq⟩ := List.any_eq_true.1 h
  exact List.any_eq_true.2 ⟨iv, (LiveRange.pendingIntervals_sublist r).subset hiv, hq⟩

/-- What a fresh use scan answers is a use from the position on that passes
the test. -/
theorem freshUse_some {test : UsePosition → Bool} {uses : List UsePosition} {after : Nat}
    {p : Nat × UsePosition} (h : freshUse test uses after = some p) :
    p.2 ∈ uses ∧ after ≤ p.2.pos ∧ test p.2 = true := by
  have hp := List.find?_some h
  rw [Bool.and_eq_true, decide_eq_true_eq] at hp
  exact ⟨List.snd_mem_of_mem_enum (List.mem_of_find?_eq_some h), hp⟩

/-! ## The range in hand and the kept occupants -/

section Hand
variable {c : AllocCtx} {pos : Nat}

/-- The range in hand stays in hand through an operation on another range. -/
theorem Ready.cut {s s' : AllocState} {R X : Nat} (hR : Ready c pos s R) (k : Cut c pos s s' X)
    (hXR : X ≠ R) : Ready c pos s' R := by
  have e := k.keep R hR.fresh (Ne.symm hXR)
  refine ⟨hR.fresh.trans_le k.fresh, fun hm => ?_, fun reg hh => hR.free reg (e.holds.1 hh),
    by rw [e.start]; exact hR.start, by rw [e.intervals]; exact hR.nonempty,
    by rw [e.vreg]; exact hR.vreg, by rw [e.finger]; exact hR.pending, ?_⟩
  · rcases k.queue R hm with hm | ⟨hn | hn, -⟩
    · exact hR.notQueued hm
    · exact hXR hn.symm
    · exact absurd hR.fresh (Nat.not_lt.2 hn)
  · rw [e.uses, e.finger]; exact hR.cache.slots k.slots

variable {t t' : AllocState} {reg : Nat} {kept kept' : List (Option Nat)}

@[simp] theorem removeEvicted_ranges : (removeEvicted t reg kept).ranges = t.ranges := rfl
@[simp] theorem removeEvicted_fresh : (removeEvicted t reg kept).fresh = t.fresh := rfl
@[simp] theorem removeEvicted_slots : (removeEvicted t reg kept).slots = t.slots := rfl
@[simp] theorem removeEvicted_unallocated :
    (removeEvicted t reg kept).unallocated = t.unallocated := rfl

theorem removeEvicted_registers (r : Nat) : (removeEvicted t reg kept).registers r =
    if r = reg then kept.filterMap (fun x => x) else t.registers r := rfl

/-- Keeping every occupant changes nothing. -/
theorem removeEvicted_map_some (s : AllocState) (reg : Nat) :
    removeEvicted s reg ((s.registers reg).map some) = s := by
  have e : (fun r => if r = reg then ((s.registers reg).map some).filterMap (fun x => x)
      else s.registers r) = s.registers := by
    funext r
    split_ifs with h
    · subst h
      rw [List.filterMap_map]
      exact List.filterMap_some _
    · rfl
  simp only [removeEvicted, e]

/-! The facts below move between a state and the same state with other
register lists; none of them reads the lists. -/

theorem StateShape.of_removeEvicted (h : StateShape c (removeEvicted t reg kept)) :
    StateShape c t :=
  ⟨h.ranges, h.junk, h.sorted, h.nodup, h.used⟩

theorem Occupant.of_removeEvicted {r a : Nat} (o : Occupant c pos (removeEvicted t reg kept) r a) :
    Occupant c pos t r a :=
  ⟨o.holds, o.pending, o.cache, o.started⟩

theorem Ready.removeEvicted {R : Nat} (hR : Ready c pos t R) :
    Ready c pos (removeEvicted t reg kept) R :=
  ⟨hR.fresh, hR.notQueued, hR.free, hR.start, hR.nonempty, hR.vreg, hR.pending, hR.cache⟩

theorem Cut.removeEvicted {X : Nat} (k : Cut c pos t t' X) :
    Cut c pos (removeEvicted t reg kept) (removeEvicted t' reg kept') X :=
  ⟨⟨k.base.ranges, k.base.junk, k.base.sorted, k.base.nodup, k.base.used⟩, k.fresh, k.slots,
    k.keep, k.junk, k.holds, k.covers, fun j hj => (k.queue j hj).imp id fun ⟨hn, q⟩ =>
      ⟨hn, q.fresh, q.start, q.positive, q.nonempty, q.reset, q.vreg, q.free⟩⟩

end Hand

/-- Clearing the one entry that holds `a` removes `a` from the kept list. -/
theorem filterMap_set_none {α : Type} [DecidableEq α] : ∀ {l : List (Option α)} {i : Nat} {a : α},
    l[i]? = some (some a) → (∀ k, l[k]? = some (some a) → k = i) →
    (l.set i none).filterMap (fun x => x) = (l.filterMap (fun x => x)).filter (· ≠ a)
  | [], _, _, hi, _ => by simp at hi
  | x :: l, 0, a, hi, hu => by
    simp only [List.getElem?_cons_zero, Option.some.injEq] at hi
    subst hi
    have hl : (l.filterMap (fun x => x)).filter (· ≠ a) = l.filterMap (fun x => x) :=
      List.filter_eq_self.2 fun y hy => by
        obtain ⟨z, hz, hzy⟩ := List.mem_filterMap.1 hy
        obtain ⟨k, hk⟩ := List.mem_iff_getElem?.1 hz
        refine decide_eq_true fun e => ?_
        have := hu (k + 1) (by rw [List.getElem?_cons_succ, hk, hzy, e])
        omega
    rw [List.set_cons_zero, List.filterMap_cons_none rfl, List.filterMap_cons_some (f := fun x => x) rfl,
      List.filter_cons_of_neg (by simp), hl]
  | x :: l, i + 1, a, hi, hu => by
    have ih := filterMap_set_none (l := l) (i := i) (by simpa using hi)
      fun k hk => by have := hu (k + 1) (by simpa using hk); omega
    have hx : x ≠ some a := fun e => by have := hu 0 (by simp [e]); omega
    cases x with
    | none => simp [ih]
    | some y => simp_all

/-- A fold whose invariant knows the elements still to come. -/
theorem foldl_rest_inv {α β : Type} (f : β → α → β) (P : List α → β → Prop)
    (h : ∀ a rest b, P (a :: rest) b → P rest (f b a)) :
    ∀ (l : List α) (b : β), P l b → P [] (l.foldl f b)
  | [], _, hb => hb
  | a :: l, b, hb => foldl_rest_inv f P h l (f b a) (h a l b hb)

theorem mem_filterMap_of_getElem? {l : List (Option Nat)} {k x : Nat} (h : l[k]? = some (some x)) :
    x ∈ l.filterMap (fun x => x) :=
  List.mem_filterMap.2 ⟨some x, List.getElem?_mem h, rfl⟩

/-- At the start of a walk every entry is the occupant at its index, the
indices to visit are those of the list, and no other index holds an entry. -/
theorem walk_start (occs : List Nat) :
    (∀ (k x : Nat), (occs.map some)[k]? = some (some x) → occs[k]? = some x) ∧
      (∀ k ∈ (List.range occs.length).reverse, (occs.map some)[k]? = some (some (occs.getD k 0))) ∧
      ∀ (k x : Nat), k ∉ (List.range occs.length).reverse → (occs.map some)[k]? ≠ some (some x) := by
  refine ⟨fun k x hx => by simpa [List.getElem?_map] using hx, fun k hk => ?_, fun k x hk hx => ?_⟩
  · rw [List.mem_reverse, List.mem_range] at hk
    simp [List.getElem?_map, List.getD_eq_getElem?_getD, List.getElem?_eq_getElem hk]
  · rw [List.mem_reverse, List.mem_range, Nat.not_lt] at hk
    simp [List.getElem?_map, List.getElem?_eq_none hk] at hx

/-- An entry left after clearing entry `i` was there before, at another index. -/
theorem getElem?_set_none {l : List (Option Nat)} {i k x : Nat} (h : (l.set i none)[k]? = some (some x)) :
    k ≠ i ∧ l[k]? = some (some x) := by
  by_cases hk : k = i
  · subst hk
    rw [List.getElem?_set_self'] at h
    simp at h
  · exact ⟨hk, by rwa [List.getElem?_set_ne (Ne.symm hk)] at h⟩

/-- Entries copied from a list without duplicates name each element once. -/
theorem entry_unique {occs : List Nat} {l : List (Option Nat)} (hocc : occs.Nodup)
    (hent : ∀ (k x : Nat), l[k]? = some (some x) → occs[k]? = some x) {i a : Nat}
    (hi : l[i]? = some (some a)) : ∀ k, l[k]? = some (some a) → k = i := fun k hk =>
  List.getElem?_inj (List.getElem?_eq_some_iff.1 (hent k a hk)).1 hocc
    ((hent k a hk).trans (hent i a hi).symm)

/-- A calm step after an operation on `X` keeps it a cut of `X`. -/
theorem Cut.calm {c : AllocCtx} {pos : Nat} {s s' s'' : AllocState} {X : Nat} (k : Cut c pos s s' X)
    (hc : Calm c s' s'') : Cut c pos s s'' X :=
  ⟨k.base.calm hc, hc.fresh ▸ k.fresh, k.slots.trans hc.slots,
    fun j hj hjX => (k.keep j hj hjX).trans (hc.ranges j),
    fun j hj reg hh => k.junk j hj reg ((hc.ranges j).holds.1 hh),
    fun reg hh => k.holds reg ((hc.ranges X).holds.1 hh),
    fun q hq => k.covers q ((hc.ranges X).intervals ▸ hq),
    fun j hj => (k.queue j (hc.unallocated ▸ hj)).imp id fun ⟨hn, q⟩ =>
      ⟨hn, q.sameBut (hc.ranges j) hc.fresh.ge⟩⟩

/-! ## One eviction -/

section Evict
variable {c : AllocCtx} (hc : c.LoopOrder) (hbe : ∀ p, c.blockStart p % 2 = 0)
  (hhe : ∀ l, (c.loops l).headerStart % 2 = 0) {pos : Nat}
include hc hbe hhe

/-- `EvictIntersection(a, range)` on an occupant `a` that may be spilled, for
the range in hand: nothing when they share no position, and then they share
none; otherwise a cut of `a`, after which it holds its register only before
`pos`. An occupant that covers `pos` must have its next register use after
`pos`, or `SpillBetween` could not move it off the register there. -/
theorem evictIntersection_cut {t : AllocState} {reg a R : Nat} (hs : StateShape c t)
    (ho : Occupant c pos t reg a) (haq : a ∉ t.unallocated) (hR : Ready c pos t R) (hpos : 0 < pos)
    (hv : 0 ≤ (t.ranges a).vreg)
    (huse : intervalsCover (t.ranges a).intervals pos = true → ∀ u ∈ (t.ranges a).uses,
      isRegisterUse t.slots u = true → interferingFrom pos ≤ u.pos → pos < u.pos) :
    Cut c pos t (evictIntersection c t a R).1 a ∧
      ((evictIntersection c t a R).2 = false → (evictIntersection c t a R).1 = t ∧
        ∀ q, intervalsCover (t.ranges R).intervals q = true →
          intervalsCover (t.ranges a).intervals q = false) ∧
      ((evictIntersection c t a R).2 = true → ∀ reg', Holds c ((evictIntersection c t a R).1.ranges a) reg' →
        ∀ q, intervalsCover ((evictIntersection c t a R).1.ranges a).intervals q = true → q < pos) := by
  have ha := hs.lt_of_holds ho.holds
  have hasc := (hs.ranges a).ascending.sublist (LiveRange.pendingIntervals_sublist (t.ranges a))
  have hRasc := (hs.ranges R).ascending
  have hvne : (t.ranges a).vreg ≠ kNoVirtualRegister := by unfold kNoVirtualRegister; omega
  have hsp : ((t.ranges R).intervals.head?.map (·.start)).getD 0 = pos := hR.start
  unfold evictIntersection
  simp only [LiveRange.pendingIntervals_of_zero hR.pending, hsp]
  by_cases hi : firstIntersection (t.ranges a).pendingIntervals (t.ranges R).intervals = kMaxPosition
  · -- no common position: nothing happens
    rw [if_pos hi]
    refine ⟨Cut.of_calm hs (Calm.refl t) a, fun _ => ⟨rfl, fun q hqR => ?_⟩, fun h => by cases h⟩
    cases e : intervalsCover (t.ranges a).intervals q
    · rfl
    have hq : pos ≤ q := hR.start ▸ LiveRange.start_le_of_cover hRasc hqR
    have hcom : commonCover (t.ranges a).pendingIntervals (t.ranges R).intervals q = true := by
      rw [commonCover, cover_pending ho.pending hq e, hqR]; rfl
    rcases firstIntersection_isFirstCommon hasc hRasc with ⟨-, hno⟩ | ⟨hci, -⟩
    · rw [hno q] at hcom; cases hcom
    · rw [hi, commonCover, Bool.and_eq_true] at hci
      exact absurd (lt_of_intervalsCover (hs.ranges R).bounded hci.2) (lt_irrefl _)
  -- the first common position lies inside the occupant, from `pos` on
  rw [if_neg hi]
  obtain ⟨hia, hiR⟩ : intervalsCover (t.ranges a).intervals
      (firstIntersection (t.ranges a).pendingIntervals (t.ranges R).intervals) = true ∧
      intervalsCover (t.ranges R).intervals
      (firstIntersection (t.ranges a).pendingIntervals (t.ranges R).intervals) = true := by
    rcases firstIntersection_isFirstCommon hasc hRasc with ⟨e, -⟩ | ⟨hci, -⟩
    · exact absurd e hi
    · rw [commonCover, Bool.and_eq_true] at hci
      exact ⟨cover_of_pending hci.1, hci.2⟩
  set i := firstIntersection (t.ranges a).pendingIntervals (t.ranges R).intervals
  have hpi : pos ≤ i := hR.start ▸ LiveRange.start_le_of_cover hRasc hiR
  have hstop : pos < (t.ranges a).stop :=
    hpi.trans_lt (LiveRange.lt_stop_of_cover (hs.ranges a).ascending hia)
  have hne : (t.ranges a).intervals ≠ [] := fun e => by rw [e] at hia; cases hia
  obtain ⟨hfu, -, -, -⟩ := firstRegisterUse_spec (hs.ranges a).usesSorted ho.cache le_rfl
  rw [← firstInterferingUse_eq] at hfu
  rcases hres : (t.ranges a).finger.firstInterferingUse (t.ranges a).uses t.slots pos with ⟨f, use⟩
  rw [hres] at hfu
  dsimp only at hfu ⊢
  have k₁ : Cut c pos t (t.setRange a { t.ranges a with finger := f }) a := cut_setFinger hs ha haq f
  have e₁ : (t.setRange a { t.ranges a with finger := f }).ranges a = { t.ranges a with finger := f } := by
    simp
  have ha₁ : a < (t.setRange a { t.ranges a with finger := f }).fresh := by simpa using ha
  have haq₁ : a ∉ (t.setRange a { t.ranges a with finger := f }).unallocated := by simpa using haq
  have hfrom₁ : ((t.setRange a { t.ranges a with finger := f }).ranges a).start ≤ pos := by
    rw [e₁]; exact ho.started hvne
  have hstop₁ : pos < ((t.setRange a { t.ranges a with finger := f }).ranges a).stop := by
    rw [e₁]; exact hstop
  cases use with
  | none =>
    dsimp only
    obtain ⟨k₂, hk₂⟩ := (spillAfter_cut hc k₁.base ha₁ haq₁ hfrom₁ hstop₁ : Cut c pos _ _ a ∧ _)
    exact ⟨k₁.trans k₂ ha (.inl rfl) haq₁, Bool.noConfusion, fun _ => hk₂⟩
  | some p =>
    dsimp only
    obtain ⟨hu, hup, hreg⟩ := freshUse_some hfu.symm
    -- the restore position is after `pos`, by the next register use when the occupant starts here
    have hto : pos < (if pos < i then min i p.2.pos else p.2.pos) →
        ∃ u ∈ ((t.setRange a { t.ranges a with finger := f }).ranges a).uses,
          isRegisterUse t.slots u = true ∧ (if pos < i then min i p.2.pos else p.2.pos) ≤ u.pos :=
      fun _ => ⟨p.2, by rw [e₁]; exact hu, hreg, by split_ifs <;> omega⟩
    have hfree : ((t.setRange a { t.ranges a with finger := f }).ranges a).start = pos →
        ¬ pos < (if pos < i then min i p.2.pos else p.2.pos) →
        ∀ reg', ¬ Holds c ((t.setRange a { t.ranges a with finger := f }).ranges a) reg' := by
      intro hst hnot
      rw [e₁] at hst
      have := huse (hst ▸ LiveRange.cover_start (hs.ranges a).ascending hne) p.2 hu hreg hup
      exact absurd (by split_ifs <;> omega) hnot
    obtain ⟨k₂, hk₂⟩ := (spillBetween_cut hc hbe hhe k₁.base ha₁ haq₁
      (by rw [e₁]; exact hne) hfrom₁ hstop₁ le_rfl hpos (by rw [e₁]; exact hvne) hto hfree :
      Cut c pos _ _ a ∧ _)
    exact ⟨k₁.trans k₂ ha (.inl rfl) haq₁, Bool.noConfusion, fun _ => hk₂⟩

end Evict

/-! ## The walk -/

section Walk
variable {c : AllocCtx} {pos : Nat}

/-- What the walk of `AssignNonFreeRegister` needs of the occupants of `reg`
for the range in hand `R`: an occupant it never evicts, one that blocks the
register or a temporary, shares no position with the range; an occupant it may
evict that covers `pos` has its register uses after `pos`. -/
structure EvictOk (pos : Nat) (s : AllocState) (R reg : Nat) : Prop where
  fixed : ∀ a ∈ s.registers reg, (s.ranges a).vreg < 0 → ∀ q,
    intervalsCover (s.ranges R).intervals q = true → intervalsCover (s.ranges a).intervals q = false
  uses : ∀ a ∈ s.registers reg, 0 ≤ (s.ranges a).vreg →
    intervalsCover (s.ranges a).intervals pos = true → ∀ u ∈ (s.ranges a).uses,
      isRegisterUse s.slots u = true → interferingFrom pos ≤ u.pos → pos < u.pos

variable (c) in
/-- The invariant of the walk over the occupants `occs` of `reg`, with the
indices `rest` still to visit: with the kept entries as the register's list,
the state keeps the invariant and `EvictOk`; the range is still in hand; a kept
entry is the occupant at its index, untouched while still to visit, and
sharing no position with the range once visited. -/
structure WalkOk (pos : Nat) (occs : List Nat) (R reg : Nat) (rest : List Nat)
    (acc : AllocState × List (Option Nat)) : Prop where
  inv : RegInv c pos (removeEvicted acc.1 reg acc.2)
  ready : Ready c pos acc.1 R
  ok : EvictOk pos (removeEvicted acc.1 reg acc.2) R reg
  entries : ∀ (k x : Nat), acc.2[k]? = some (some x) → occs[k]? = some x
  todo : ∀ k ∈ rest, acc.2[k]? = some (some (occs.getD k 0))
  done : ∀ (k x : Nat), k ∉ rest → acc.2[k]? = some (some x) → ∀ q,
    intervalsCover (acc.1.ranges R).intervals q = true →
      intervalsCover (acc.1.ranges x).intervals q = false
  nodup : rest.Nodup

variable {occs : List Nat} {R reg i : Nat} {rest : List Nat} {t t' : AllocState}
  {kept : List (Option Nat)}

theorem WalkOk.mem (h : WalkOk c pos occs R reg (i :: rest) (t, kept)) :
    occs.getD i 0 ∈ (removeEvicted t reg kept).registers reg := by
  rw [removeEvicted_registers, if_pos rfl]
  exact mem_filterMap_of_getElem? (h.todo i (List.mem_cons_self _ _))

/-- Visiting an entry and keeping its occupant, which shares no position with
the range. -/
theorem WalkOk.keep (h : WalkOk c pos occs R reg (i :: rest) (t, kept))
    (hcompat : ∀ q, intervalsCover (t.ranges R).intervals q = true →
      intervalsCover (t.ranges (occs.getD i 0)).intervals q = false) :
    WalkOk c pos occs R reg rest (t, kept) := by
  refine ⟨h.inv, h.ready, h.ok, h.entries, fun k hk => h.todo k (List.mem_cons_of_mem _ hk),
    fun k x hk hx => ?_, (List.nodup_cons.1 h.nodup).2⟩
  by_cases hki : k = i
  · subst hki
    rw [h.todo k (List.mem_cons_self _ _)] at hx
    cases hx
    exact hcompat
  · exact h.done k x (by simp [hk, hki]) hx

/-- Clearing the entry `i` of the occupant `a`, after a cut of `a` that holds
its register only before `pos`: the register's list loses `a` only, and the
state with the kept entries as that list keeps the invariant. -/
theorem RegInv.clearEntry {a : Nat} (hinv : RegInv c pos (removeEvicted t reg kept))
    (hki : kept[i]? = some (some a)) (huniq : ∀ k, kept[k]? = some (some a) → k = i)
    (k : Cut c pos t t' a) (hregs : t'.registers = t.registers)
    (hself : ∀ reg', Holds c (t'.ranges a) reg' →
      ∀ q, intervalsCover (t'.ranges a).intervals q = true → q < pos) :
    (∀ r, (removeEvicted t' reg (kept.set i none)).registers r =
      ((removeEvicted t reg kept).registers r).filter (· ≠ a)) ∧
      RegInv c pos (removeEvicted t' reg (kept.set i none)) := by
  have ham : a ∈ (removeEvicted t reg kept).registers reg := by
    rw [removeEvicted_registers, if_pos rfl]; exact mem_filterMap_of_getElem? hki
  have ho := hinv.occupants reg a ham
  have hregs' : ∀ r, (removeEvicted t' reg (kept.set i none)).registers r =
      ((removeEvicted t reg kept).registers r).filter (· ≠ a) := by
    intro r
    rw [removeEvicted_registers, removeEvicted_registers]
    split_ifs with hr
    · exact filterMap_set_none hki huniq
    · rw [hregs]
      refine (List.filter_eq_self.2 fun b hb => decide_eq_true (show b ≠ a from fun e => hr ?_)).symm
      have hb' : b ∈ (removeEvicted t reg kept).registers r := by
        rw [removeEvicted_registers, if_neg hr]; exact hb
      have hbh := (hinv.occupants r b hb').holds
      rw [e] at hbh
      exact holds_inj c hbh ho.holds
  exact ⟨hregs', hinv.cut k.removeEvicted (fun hm => (hinv.queued a hm).free reg ho.holds) hregs' hself⟩

/-- Visiting an entry and evicting its occupant by a cut after which it holds
its register only before `pos`. -/
theorem WalkOk.evict (hocc : occs.Nodup) (h : WalkOk c pos occs R reg (i :: rest) (t, kept))
    (k : Cut c pos t t' (occs.getD i 0)) (hregs : t'.registers = t.registers)
    (hself : ∀ reg', Holds c (t'.ranges (occs.getD i 0)) reg' →
      ∀ q, intervalsCover (t'.ranges (occs.getD i 0)).intervals q = true → q < pos) :
    WalkOk c pos occs R reg rest (t', kept.set i none) := by
  obtain ⟨hinv, hR, hok, hent, htodo, hdone, hnd⟩ := h
  dsimp only at hinv hR hok hent htodo hdone
  obtain ⟨hir, hnd⟩ := List.nodup_cons.1 hnd
  set a := occs.getD i 0
  have hki := htodo i (List.mem_cons_self _ _)
  have huniq := entry_unique hocc hent hki
  obtain ⟨hregs', hinv'⟩ := hinv.clearEntry hki huniq k hregs hself
  have ho := hinv.occupants reg a (by rw [removeEvicted_registers, if_pos rfl]; exact mem_filterMap_of_getElem? hki)
  have haR : a ≠ R := fun e => hR.free reg (e ▸ ho.holds)
  have hkeep : ∀ b ∈ (removeEvicted t reg kept).registers reg, b ≠ a →
      SameBut c (t.ranges b) (t'.ranges b) := fun b hb hba =>
    k.keep b (hinv.base.lt_of_holds (hinv.occupants reg b hb).holds) hba
  have hmem : ∀ b ∈ (removeEvicted t' reg (kept.set i none)).registers reg,
      b ∈ (removeEvicted t reg kept).registers reg ∧ b ≠ a := fun b hb => by
    rw [hregs' reg, List.mem_filter, decide_eq_true_iff] at hb; exact hb
  have eR := k.keep R hR.fresh (Ne.symm haR)
  refine ⟨hinv', hR.cut k haR, ⟨fun b hb hv q hq => ?_, fun b hb hv hcov u hu hreg hle => ?_⟩,
    fun k x hx => hent k x (getElem?_set_none hx).2,
    fun k hk => by
      rw [List.getElem?_set_ne fun (e : i = k) => hir (e ▸ hk)]; exact htodo k (List.mem_cons_of_mem _ hk),
    fun k x hk hx q hq => ?_, hnd⟩
  · obtain ⟨hb, hba⟩ := hmem b hb
    have e := hkeep b hb hba
    simp only [removeEvicted_ranges] at hv hq ⊢
    rw [e.vreg] at hv
    rw [eR.intervals] at hq
    rw [e.intervals]
    exact hok.fixed b hb hv q hq
  · obtain ⟨hb, hba⟩ := hmem b hb
    have e := hkeep b hb hba
    simp only [removeEvicted_ranges, removeEvicted_slots] at hv hcov hu hreg
    rw [e.vreg] at hv
    rw [e.intervals] at hcov
    rw [e.uses] at hu
    exact hok.uses b hb hv hcov u hu (k.slots _ hreg) hle
  · obtain ⟨hk', hx⟩ := getElem?_set_none hx
    have hxm : x ∈ (removeEvicted t reg kept).registers reg := by
      rw [removeEvicted_registers, if_pos rfl]; exact mem_filterMap_of_getElem? hx
    rw [(hkeep x hxm fun e => hk' (huniq k (by rw [hx, e]))).intervals]
    rw [eR.intervals] at hq
    exact hdone k x (by simp [hk, hk']) hx q hq

variable (hc : c.LoopOrder) (hbe : ∀ p, c.blockStart p % 2 = 0)
  (hhe : ∀ l, (c.loops l).headerStart % 2 = 0)

include hc hbe hhe in
/-- One visit of `AssignNonFreeRegister`'s walk keeps its invariant. -/
theorem walkOk_step (hocc : occs.Nodup) (hpos : 0 < pos) {acc : AllocState × List (Option Nat)}
    (h : WalkOk c pos occs R reg (i :: rest) acc) :
    WalkOk c pos occs R reg rest (evictOccupant c R occs acc i) := by
  obtain ⟨t, kept⟩ := acc
  have ham := h.mem
  have ho := (h.inv.occupants reg _ ham).of_removeEvicted
  unfold evictOccupant
  dsimp only
  by_cases hneg : (t.ranges (occs.getD i 0)).vreg < 0
  · rw [if_pos hneg]; exact h.keep (h.ok.fixed _ ham hneg)
  rw [if_neg hneg]
  obtain ⟨kc, hfalse, htrue⟩ := evictIntersection_cut hc hbe hhe h.inv.base.of_removeEvicted ho
    (fun hm => (h.inv.queued _ hm).free reg ho.holds) h.ready hpos (Int.not_lt.1 hneg)
    (h.ok.uses _ ham (Int.not_lt.1 hneg))
  cases hev : (evictIntersection c t (occs.getD i 0) R).2
  · obtain ⟨e, hcompat⟩ := hfalse hev
    rw [if_neg (by simp), e]
    exact h.keep hcompat
  rw [if_pos rfl]
  have hcalm := calm_convertAllUses c _ (occs.getD i 0) (kc.base.ranges (occs.getD i 0)).assigned
  have hsteady := (steady_evictIntersection c t (occs.getD i 0) R).registers
  split_ifs
  · exact h.evict hocc (kc.calm hcalm) (by rw [hcalm.registers, hsteady])
      fun reg' hh q hq => htrue hev reg' ((hcalm.ranges _).holds.1 hh) q
        (by rw [(hcalm.ranges _).intervals] at hq; exact hq)
  · exact h.evict hocc kc hsteady (htrue hev)

include hc hbe hhe in
/-- `AssignNonFreeRegister(range, reg)` keeps the invariant: after the walk,
the occupants left on `reg` share no position with the range. -/
theorem assignNonFreeRegister_inv {s : AllocState} (h : RegInv c pos s) (hR : Ready c pos s R)
    (hpos : 0 < pos) (hreg : reg < c.numberOfRegisters) (hok : EvictOk pos s R reg) :
    RegInv c pos (assignNonFreeRegister c s R reg) := by
  obtain ⟨hent, htodo, hnone⟩ := walk_start (s.registers reg)
  have hstart : WalkOk c pos (s.registers reg) R reg (List.range (s.registers reg).length).reverse
      (s, (s.registers reg).map some) :=
    ⟨by dsimp only; rw [removeEvicted_map_some]; exact h, hR,
      by dsimp only; rw [removeEvicted_map_some]; exact hok, hent, htodo,
      fun k x hk hx => absurd hx (hnone k x hk), List.nodup_reverse.2 (List.nodup_range _)⟩
  have hend := foldl_rest_inv (evictOccupant c R (s.registers reg))
    (WalkOk c pos (s.registers reg) R reg)
    (fun _ _ _ hw => walkOk_step hc hbe hhe (h.regsNodup reg) hpos hw) _ _ hstart
  unfold assignNonFreeRegister walkOccupants
  generalize (List.range (s.registers reg).length).reverse.foldl
    (evictOccupant c R (s.registers reg)) (s, (s.registers reg).map some) = acc at hend ⊢
  obtain ⟨t, kept⟩ := acc
  refine hend.inv.assign hend.ready.removeEvicted hreg fun x hx q hq => ?_
  rw [removeEvicted_registers, if_pos rfl] at hx
  obtain ⟨k, hk⟩ := List.mem_iff_getElem?.1 (List.mem_filterMap.1 hx).choose_spec.1
  exact hend.done k x (List.not_mem_nil k) (by rw [hk, (List.mem_filterMap.1 hx).choose_spec.2]) q hq

end Walk

end LinearScan
