import LinearScan.AllocateLoop

/-!
# `FirstIntersection` finds the first common position

`FirstIntersection(a, u)` (linearscan.cc 1944–1966) walks two interval lists
at once. At each step it asks `UseInterval::Intersect` for the first position
both current intervals hold, and otherwise drops the interval with the smaller
start. `FirstIntersectionWithAllocated(reg, unallocated)` (lines 2329–2346)
takes the minimum of that walk over the ranges on a register. It skips a range
whose pending interval starts at or after the best position found so far.

> `IsFirstCommon as us p`: `p` is `kMaxPosition` and the covers share no
> position, or `p` is the least position both cover.

The walk is right because of the order of the lists (`IntervalsAscending`).
When `Intersect` finds nothing, the interval with the smaller start ends before
the other one begins, and so before everything the other list still covers. It
can be dropped without losing a common position. The skip in
`FirstIntersectionWithAllocated` is right for the same reason: nothing a range
covers lies before its pending interval's start.

Mirroring notes vs the C++ source:
- The walk's loop is bounded by the lists' total length, which each step that
  does not return shortens by one. No bound on positions is needed: a common
  position, if there is one, is found before `kMaxPosition` is returned.
-/

namespace LinearScan

/-- The positions both lists cover. -/
def commonCover (as us : List UseInterval) (q : Nat) : Bool :=
  intervalsCover as q && intervalsCover us q

/-- What `FirstIntersection(as, us)` should return: `kMaxPosition` when the
covers share no position, else the least position they share. -/
def IsFirstCommon (as us : List UseInterval) (p : Nat) : Prop :=
  (p = kMaxPosition ∧ ∀ q, commonCover as us q = false) ∨
    (commonCover as us p = true ∧ ∀ q, commonCover as us q = true → p ≤ q)

theorem IsFirstCommon.congr {as us as' us' : List UseInterval} {p : Nat}
    (e : ∀ q, commonCover as us q = commonCover as' us' q) (h : IsFirstCommon as us p) :
    IsFirstCommon as' us' p := by
  simpa only [IsFirstCommon, e] using h

@[simp] theorem firstIntersectionAux_nil_left (n : Nat) (us : List UseInterval) :
    firstIntersectionAux n [] us = kMaxPosition := by
  cases n <;> simp [firstIntersectionAux]

@[simp] theorem firstIntersectionAux_nil_right (n : Nat) (as : List UseInterval) :
    firstIntersectionAux n as [] = kMaxPosition := by
  cases n <;> cases as <;> simp [firstIntersectionAux]

/-- Lists, one of which is empty, share nothing. -/
theorem isFirstCommon_kMaxPosition {as us : List UseInterval} (h : as = [] ∨ us = []) :
    IsFirstCommon as us kMaxPosition :=
  .inl ⟨rfl, fun q => by rcases h with rfl | rfl <;> simp [commonCover]⟩

/-! ## One step of the walk -/

/-- An interval that ends by the start of the other list shares nothing with
it, and can be dropped. -/
theorem commonCover_drop_left {a u : UseInterval} {as us : List UseInterval}
    (hu : IntervalsAscending (u :: us)) (h : a.stop ≤ u.start) (q : Nat) :
    commonCover (a :: as) (u :: us) q = commonCover as (u :: us) q := by
  unfold commonCover
  cases hq : intervalsCover (u :: us) q
  · simp
  · have := hu.start_le hq
    have ha : a.contains q = false := by simp [UseInterval.contains]; omega
    simp [ha]

theorem commonCover_comm (as us : List UseInterval) (q : Nat) :
    commonCover as us q = commonCover us as q := Bool.and_comm _ _

theorem commonCover_drop_right {a u : UseInterval} {as us : List UseInterval}
    (ha : IntervalsAscending (a :: as)) (h : u.stop ≤ a.start) (q : Nat) :
    commonCover (a :: as) (u :: us) q = commonCover (a :: as) us q := by
  rw [commonCover_comm, commonCover_drop_left ha h, commonCover_comm]

/-- A position `Intersect` returns is the least one the two lists share. -/
theorem isFirstCommon_of_intersect {a u : UseInterval} {as us : List UseInterval}
    (ha : IntervalsAscending (a :: as)) (hu : IntervalsAscending (u :: us)) {p : Nat}
    (h : a.intersect u = some p) : IsFirstCommon (a :: as) (u :: us) p := by
  have hla := ha.1 a (List.mem_cons_self _ _)
  have hlu := hu.1 u (List.mem_cons_self _ _)
  unfold UseInterval.intersect at h
  refine .inr ⟨?_, fun q hq => ?_⟩
  · simp only [commonCover, intervalsCover_cons, UseInterval.contains, Bool.and_eq_true,
      Bool.or_eq_true, decide_eq_true_eq]
    split_ifs at h <;> cases h
    all_goals exact ⟨.inl ⟨by omega, by omega⟩, .inl ⟨by omega, by omega⟩⟩
  · simp only [commonCover, Bool.and_eq_true] at hq
    have := ha.start_le hq.1
    have := hu.start_le hq.2
    split_ifs at h <;> cases h <;> omega

/-- When `Intersect` finds nothing, the interval with the smaller start ends by
the other's start. -/
theorem stop_le_of_intersect_none {a u : UseInterval} (ha : a.start < a.stop)
    (h : a.intersect u = none) :
    (a.start < u.start → a.stop ≤ u.start) ∧ (¬ a.start < u.start → u.stop ≤ a.start) := by
  unfold UseInterval.intersect at h
  constructor <;> intro hs <;> split_ifs at h <;> omega

/-! ## The walk -/

/-- `FirstIntersection`'s walk, given enough steps for both lists, returns the
first common position. -/
theorem firstIntersectionAux_isFirstCommon :
    ∀ (n : Nat) (as us : List UseInterval), as.length + us.length ≤ n →
      IntervalsAscending as → IntervalsAscending us →
      IsFirstCommon as us (firstIntersectionAux n as us)
  | 0, as, us, hn, _, _ => by
    have : as = [] := List.eq_nil_of_length_eq_zero (by omega)
    subst this
    simpa using @isFirstCommon_kMaxPosition [] us (.inl rfl)
  | _ + 1, [], us, _, _, _ => by simpa using @isFirstCommon_kMaxPosition [] us (.inl rfl)
  | _ + 1, _ :: _, [], _, _, _ => by simpa using isFirstCommon_kMaxPosition (.inr rfl)
  | n + 1, a :: as, u :: us, hn, ha, hu => by
    simp only [List.length_cons] at hn
    simp only [firstIntersectionAux]
    cases h : a.intersect u with
    | some p => exact isFirstCommon_of_intersect ha hu h
    | none =>
      obtain ⟨hl, hr⟩ := stop_le_of_intersect_none (ha.1 a (List.mem_cons_self _ _)) h
      dsimp only
      split_ifs with hs
      · exact (firstIntersectionAux_isFirstCommon n as (u :: us) (by simp; omega) ha.of_cons hu).congr
          fun q => (commonCover_drop_left hu (hl hs) q).symm
      · exact (firstIntersectionAux_isFirstCommon n (a :: as) us (by simp; omega) ha hu.of_cons).congr
          fun q => (commonCover_drop_right ha (hr hs) q).symm

/-- `FirstIntersection(a, u)` returns the least position both lists cover, or
`kMaxPosition` when there is none. -/
theorem firstIntersection_isFirstCommon {as us : List UseInterval} (ha : IntervalsAscending as)
    (hu : IntervalsAscending us) : IsFirstCommon as us (firstIntersection as us) :=
  firstIntersectionAux_isFirstCommon _ as us le_rfl ha hu

/-! ## Over the ranges on a register -/

section Allocated
variable (s : AllocState) (reg id : Nat)

/-- The skip of `FirstIntersectionWithAllocated` changes nothing: a range whose
pending interval starts at or after the best position so far cannot improve
on it. -/
theorem firstIntersectionWithAllocated_step {acc : Nat} (hacc : acc ≤ kMaxPosition) {a : Nat}
    (hu : IntervalsAscending (s.ranges id).pendingIntervals)
    (ha : IntervalsAscending (s.ranges a).pendingIntervals) :
    (match (s.ranges a).pendingIntervals with
      | [] => acc
      | head :: rest =>
        if acc ≤ head.start then acc
        else min acc (firstIntersection (s.ranges id).pendingIntervals (head :: rest))) =
      min acc (firstIntersection (s.ranges id).pendingIntervals (s.ranges a).pendingIntervals) := by
  split
  · next h => rw [h, firstIntersection, firstIntersectionAux_nil_right]; omega
  · next head rest h =>
    rw [h] at ha ⊢
    split_ifs with hle
    · rcases firstIntersection_isFirstCommon hu ha with ⟨he, -⟩ | ⟨hc, -⟩
      · omega
      · simp only [commonCover, Bool.and_eq_true] at hc
        have := ha.start_le hc.2
        omega
    · rfl

/-- `FirstIntersectionWithAllocated(reg, unallocated)` is the minimum, over the
ranges on `reg`, of the first position where a range's pending intervals meet
the unallocated range's. -/
theorem firstIntersectionWithAllocated_eq_min
    (hu : IntervalsAscending (s.ranges id).pendingIntervals)
    (ha : ∀ a ∈ s.registers reg, IntervalsAscending (s.ranges a).pendingIntervals) :
    firstIntersectionWithAllocated s reg id =
      ((s.registers reg).map fun a =>
        firstIntersection (s.ranges id).pendingIntervals (s.ranges a).pendingIntervals).foldl
        min kMaxPosition := by
  rw [firstIntersectionWithAllocated, List.foldl_map]
  suffices ∀ l : List Nat, (∀ a ∈ l, IntervalsAscending (s.ranges a).pendingIntervals) →
      ∀ acc ≤ kMaxPosition, l.foldl (fun acc a => match (s.ranges a).pendingIntervals with
        | [] => acc
        | head :: rest =>
          if acc ≤ head.start then acc
          else min acc (firstIntersection (s.ranges id).pendingIntervals (head :: rest))) acc =
      l.foldl (fun acc a => min acc
        (firstIntersection (s.ranges id).pendingIntervals (s.ranges a).pendingIntervals)) acc from
    this _ ha _ le_rfl
  intro l hl
  induction l with
  | nil => intro acc _; rfl
  | cons a l ih =>
    intro acc hacc
    simp only [List.foldl_cons]
    rw [firstIntersectionWithAllocated_step s id hacc hu (hl a (List.mem_cons_self _ _))]
    exact ih (fun b hb => hl b (List.mem_cons_of_mem _ hb)) _ ((min_le_left _ _).trans hacc)

end Allocated

/-- `FirstIntersection` returns the first position two ordered interval lists
share (`kMaxPosition` when they share none), and
`FirstIntersectionWithAllocated`, skips included, returns the minimum of that
position over the ranges on the register. -/
theorem firstIntersection_first_common :
    (∀ as us : List UseInterval, IntervalsAscending as → IntervalsAscending us →
      IsFirstCommon as us (firstIntersection as us)) ∧
    ∀ (s : AllocState) (reg id : Nat), IntervalsAscending (s.ranges id).pendingIntervals →
      (∀ a ∈ s.registers reg, IntervalsAscending (s.ranges a).pendingIntervals) →
      firstIntersectionWithAllocated s reg id =
        ((s.registers reg).map fun a =>
          firstIntersection (s.ranges id).pendingIntervals (s.ranges a).pendingIntervals).foldl
          min kMaxPosition :=
  ⟨fun _ _ => firstIntersection_isFirstCommon, firstIntersectionWithAllocated_eq_min⟩

/-- `[0, 4) [6, 8)` and `[4, 7)` first meet at `6`; a register holding a range
with the first list as its pending intervals gives the same position. -/
theorem firstIntersection_first_common_at :
    let r : LiveRange :=
      { LiveRange.make 0 .tagged with intervals := [⟨0, 4⟩, ⟨6, 8⟩], finger := ⟨some 0, none, none, none⟩ }
    let u : LiveRange :=
      { LiveRange.make 1 .tagged with intervals := [⟨4, 7⟩], finger := ⟨some 0, none, none, none⟩ }
    let s : AllocState := ⟨fun j => if j = 0 then r else u, 2, fun _ => .invalid, fun _ => 0, [],
      fun _ => [0], .empty, [], fun _ => ⟨[], []⟩⟩
    (IsFirstCommon [⟨0, 4⟩, ⟨6, 8⟩] [⟨4, 7⟩] (firstIntersection [⟨0, 4⟩, ⟨6, 8⟩] [⟨4, 7⟩]) ∧
      firstIntersection [⟨0, 4⟩, ⟨6, 8⟩] [⟨4, 7⟩] = 6) ∧
    firstIntersectionWithAllocated s 0 1 = 6 :=
  ⟨⟨firstIntersection_first_common.1 _ _ (by decide) (by decide), by decide⟩,
    (firstIntersection_first_common.2 _ 0 1 (by decide) (by decide)).trans (by decide)⟩

end LinearScan
