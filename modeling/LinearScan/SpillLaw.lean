import Mathlib.Data.List.GetD
import LinearScan.SpillSlots

/-!
# The spill-slot table law

`SpillSlots` models one request on the table of `AllocateSpillSlotFor`. This
module follows the table through a whole pass: first the reservations made
while live ranges are built (`AllocateSpillSlotForSuspendState`, then one
`AllocateSpillSlotForInitialDefinition` per incoming parameter on the stack),
then every request of one allocation pass, all under the `register_kind_` that
`PrepareForAllocation` set. The main result is `spillSlot_table_law`:

> the three arrays keep one length; quad slots come in disjoint adjacent pairs
> of equal expiry, and a quad request receives one such pair; every index goes
> only to a request whose flags it carries and whose start is at or after the
> end of every earlier holder of that index; a CPU request never receives one
> of the first `fixed_slot_count()` indices.

The proof carries `SlotInv`: the table's shape, the pairs (as the list of their
lower halves), and a log of holders, each `(index, end)`, whose ends the
table's expiries bound. The one real argument is the scan's: a quad request
never stops on the upper half of a pair, since the lower half, one index
earlier, carries the same flags and the same expiry.

Mirroring notes vs the C++ source:
- Reservations come before requests, as in `AllocateRegisters`: the suspend
  state is reserved before `BuildLiveRanges`, and the table is cleared between
  the CPU and the FPU pass. Requests that `BuildLiveRanges` itself makes, while
  `register_kind_` is still `kInvalid`, are not part of a pass.
- A request is what `AllocateSpillSlotFor` reads of the range: its start, the
  end of its last sibling and its representation. The holders' log is ghost
  state; the table does not record who holds a slot.
-/

namespace LinearScan

namespace SpillTable

/-- `spill_slots_[i]`, the position after which slot `i` is free. -/
def expiry (t : SpillTable) (i : Nat) : Nat := t.spillSlots.getD i 0

/-- `quad_spill_slots_[i]`. -/
def isQuad (t : SpillTable) (i : Nat) : Bool := t.quadSpillSlots.getD i false

/-- `untagged_spill_slots_[i]`. -/
def isUntagged (t : SpillTable) (i : Nat) : Bool := t.untaggedSpillSlots.getD i false

/-- The condition the scan of `AllocateSpillSlotFor` stops at. -/
def fits (t : SpillTable) (quad untagged : Bool) (start i : Nat) : Bool :=
  t.isQuad i == quad && t.isUntagged i == untagged && t.expiry i ≤ start

/-- The three arrays have one length. -/
def Sized (t : SpillTable) : Prop :=
  t.quadSpillSlots.length = t.spillSlots.length ∧ t.untaggedSpillSlots.length = t.spillSlots.length

/-! ## Reading the table after an update -/

theorem getD_append_singleton {α : Type} (l : List α) (x d : α) (i : Nat) :
    (l ++ [x]).getD i d = if i = l.length then x else l.getD i d := by
  split_ifs with h
  · simp [h]
  · rcases Nat.lt_or_gt_of_ne h with h | h
    · rw [List.getD_append _ _ _ _ h]
    · rw [List.getD_eq_default _ _ (by simp; omega), List.getD_eq_default _ _ (by omega)]

theorem getD_append_replicate {α : Type} (l : List α) (k : Nat) (x d : α) (i : Nat) :
    (l ++ List.replicate k x).getD i d =
      if l.length ≤ i ∧ i < l.length + k then x else l.getD i d := by
  split_ifs with h
  · rw [List.getD_append_right _ _ _ _ h.1, List.getD_eq_getElem _ _ (by simp; omega)]
    simp
  · by_cases hi : i < l.length
    · rw [List.getD_append _ _ _ _ hi]
    · rw [List.getD_eq_default _ _ (by simp; omega), List.getD_eq_default _ _ (by omega)]

theorem getD_set {α : Type} (l : List α) (j : Nat) (x d : α) (i : Nat) :
    (l.set j x).getD i d = if i = j ∧ i < l.length then x else l.getD i d := by
  by_cases hij : i = j
  · subst hij
    by_cases hi : i < l.length
    · simp [hi]
    · simp [hi, List.set_eq_of_length_le (Nat.le_of_not_lt hi)]
  · simp [List.getElem?_set, Ne.symm hij, hij]

@[simp] theorem expiry_push (t : SpillTable) (e : Nat) (q u : Bool) (i : Nat) :
    (t.push e q u).expiry i = if i = t.spillSlots.length then e else t.expiry i :=
  getD_append_singleton _ _ _ _

@[simp] theorem isQuad_push (t : SpillTable) (e : Nat) (q u : Bool) (i : Nat) :
    (t.push e q u).isQuad i = if i = t.quadSpillSlots.length then q else t.isQuad i :=
  getD_append_singleton _ _ _ _

@[simp] theorem isUntagged_push (t : SpillTable) (e : Nat) (q u : Bool) (i : Nat) :
    (t.push e q u).isUntagged i = if i = t.untaggedSpillSlots.length then u else t.isUntagged i :=
  getD_append_singleton _ _ _ _

@[simp] theorem expiry_padTo (t : SpillTable) (idx i : Nat) :
    (t.padTo idx).expiry i =
      if t.spillSlots.length ≤ i ∧ i < idx then kMaxPosition else t.expiry i := by
  simp only [expiry, padTo, getD_append_replicate]
  congr 1
  simp only [eq_iff_iff]
  omega

/-- Padding adds unflagged slots, and a missing slot reads as unflagged. -/
@[simp] theorem isQuad_padTo (t : SpillTable) (idx i : Nat) : (t.padTo idx).isQuad i = t.isQuad i := by
  simp only [isQuad, padTo, getD_append_replicate]
  split_ifs with h
  · exact (List.getD_eq_default _ _ h.1).symm
  · rfl

@[simp] theorem isUntagged_padTo (t : SpillTable) (idx i : Nat) :
    (t.padTo idx).isUntagged i = t.isUntagged i := by
  simp only [isUntagged, padTo, getD_append_replicate]
  split_ifs with h
  · exact (List.getD_eq_default _ _ h.1).symm
  · rfl

@[simp] theorem expiry_setExpiry (t : SpillTable) (j e i : Nat) :
    (t.setExpiry j e).expiry i = if i = j ∧ i < t.spillSlots.length then e else t.expiry i :=
  getD_set _ _ _ _ _

@[simp] theorem isQuad_setExpiry (t : SpillTable) (j e i : Nat) :
    (t.setExpiry j e).isQuad i = t.isQuad i := rfl

@[simp] theorem isUntagged_setExpiry (t : SpillTable) (j e i : Nat) :
    (t.setExpiry j e).isUntagged i = t.isUntagged i := rfl

@[simp] theorem push_quad_length (t : SpillTable) (e : Nat) (q u : Bool) :
    (t.push e q u).quadSpillSlots.length = t.quadSpillSlots.length + 1 := by
  simp [push]

@[simp] theorem push_untagged_length (t : SpillTable) (e : Nat) (q u : Bool) :
    (t.push e q u).untaggedSpillSlots.length = t.untaggedSpillSlots.length + 1 := by
  simp [push]

@[simp] theorem padTo_quad_length (t : SpillTable) (idx : Nat) :
    (t.padTo idx).quadSpillSlots.length = t.quadSpillSlots.length + (idx - t.spillSlots.length) := by
  simp [padTo]

@[simp] theorem padTo_untagged_length (t : SpillTable) (idx : Nat) :
    (t.padTo idx).untaggedSpillSlots.length =
      t.untaggedSpillSlots.length + (idx - t.spillSlots.length) := by
  simp [padTo]

/-- A flagged slot exists. -/
theorem lt_of_isQuad {t : SpillTable} {i : Nat} (h : t.isQuad i = true) : i < t.quadSpillSlots.length := by
  by_contra hi
  rw [isQuad, List.getD_eq_default _ _ (Nat.le_of_not_lt hi)] at h
  cases h

theorem padTo_of_le {t : SpillTable} {idx : Nat} (h : idx ≤ t.spillSlots.length) : t.padTo idx = t := by
  simp [padTo, Nat.sub_eq_zero_of_le h]

theorem Sized.push {t : SpillTable} (h : t.Sized) (e : Nat) (q u : Bool) : (t.push e q u).Sized := by
  simp only [Sized, push_length, push_quad_length, push_untagged_length, h.1, h.2, and_self]

theorem Sized.padTo {t : SpillTable} (h : t.Sized) (idx : Nat) : (t.padTo idx).Sized := by
  simp only [Sized, SpillTable.padTo, List.length_append, List.length_replicate, h.1, h.2, and_self]

theorem Sized.setExpiry {t : SpillTable} (h : t.Sized) (j e : Nat) : (t.setExpiry j e).Sized := by
  simpa [Sized, SpillTable.setExpiry] using h

end SpillTable

/-! ## The scan -/

open SpillTable

theorem findSlot_le (t : SpillTable) (q u : Bool) (start : Nat) :
    ∀ n i, findSlot t q u start i n ≤ i + n
  | 0, _ => le_rfl
  | n + 1, i => by
    have := findSlot_le t q u start n (i + 1)
    unfold findSlot
    split <;> omega

/-- Where the scan stops before its end, the slot fits. -/
theorem findSlot_fits (t : SpillTable) (q u : Bool) (start : Nat) :
    ∀ n i, findSlot t q u start i n < i + n → t.fits q u start (findSlot t q u start i n) = true
  | 0, _, h => absurd h (by simp [findSlot])
  | n + 1, i, h => by
    unfold findSlot at h ⊢
    split
    · assumption
    · split at h
      · contradiction
      · exact findSlot_fits t q u start n (i + 1) (by omega)

/-- No slot the scan passed fits. -/
theorem findSlot_skips (t : SpillTable) (q u : Bool) (start : Nat) :
    ∀ n i j, i ≤ j → j < findSlot t q u start i n → t.fits q u start j = false
  | 0, _, _, hij, hj => absurd hj (by simp [findSlot]; omega)
  | n + 1, i, j, hij, hj => by
    unfold findSlot at hj
    split at hj
    · omega
    · rename_i hfit
      rcases Nat.eq_or_lt_of_le hij with rfl | hlt
      · exact Bool.eq_false_iff.2 hfit
      · exact findSlot_skips t q u start n (i + 1) j hlt hj

/-- Where the scan of a request stops: a fitting slot, or the first index past
the table and the reserved slots. -/
def scanIndex (c : SpillCtx) (t : SpillTable) (start : Nat) (rep : Representation) : Nat :=
  findSlot t (needQuad c.registerKind rep) (needUntagged c.registerKind rep) start
    (firstSearchIndex c) (t.spillSlots.length - firstSearchIndex c)

/-- The end of `AllocateSpillSlotFor`: the slot's expiry becomes the range's
end, on both halves of a quad slot, and the higher half is returned. -/
def stampSlot (quad : Bool) (idx stop : Nat) (t : SpillTable) : Nat × SpillTable :=
  let t := t.setExpiry idx stop
  if quad then (idx + 1, t.setExpiry (idx + 1) stop) else (idx, t)

section Scan
variable (c : SpillCtx) (t : SpillTable) (start stop : Nat) (rep : Representation)

theorem firstSearchIndex_le_scanIndex : firstSearchIndex c ≤ scanIndex c t start rep :=
  findSlot_ge _ _ _ _ _ _

theorem scanIndex_fits (h : scanIndex c t start rep < t.spillSlots.length) :
    t.fits (needQuad c.registerKind rep) (needUntagged c.registerKind rep) start
      (scanIndex c t start rep) = true :=
  findSlot_fits _ _ _ _ _ _ (by
    have := firstSearchIndex_le_scanIndex c t start rep
    unfold scanIndex at h this
    omega)

theorem scanIndex_skips {j : Nat} (hj : firstSearchIndex c ≤ j) (hjs : j < scanIndex c t start rep) :
    t.fits (needQuad c.registerKind rep) (needUntagged c.registerKind rep) start j = false :=
  findSlot_skips _ _ _ _ _ _ _ hj hjs

/-- A request that finds a fitting slot stamps it. -/
theorem allocateSpillSlotIndex_of_lt (h : scanIndex c t start rep < t.spillSlots.length) :
    allocateSpillSlotIndex c t start stop rep =
      stampSlot (needQuad c.registerKind rep) (scanIndex c t start rep) stop t := by
  unfold scanIndex at h
  simp only [allocateSpillSlotIndex, stampSlot, scanIndex, padTo_of_le h.le, h.ne, if_false]

/-- A request that finds none pads the table up to the scan's index, appends a
slot (two for a quad) and stamps it. -/
theorem allocateSpillSlotIndex_of_le (h : t.spillSlots.length ≤ scanIndex c t start rep) :
    allocateSpillSlotIndex c t start stop rep =
      let quad := needQuad c.registerKind rep
      let untagged := needUntagged c.registerKind rep
      let t' := t.padTo (scanIndex c t start rep)
      stampSlot quad (scanIndex c t start rep) stop
        (if quad then (t'.push 0 quad untagged).push 0 quad untagged else t'.push 0 quad untagged) := by
  unfold scanIndex at h
  simp only [allocateSpillSlotIndex, stampSlot, scanIndex, padTo_length, max_eq_right h, if_true]

@[simp] theorem stampSlot_isQuad (q : Bool) (idx stop i : Nat) (t : SpillTable) :
    (stampSlot q idx stop t).2.isQuad i = t.isQuad i := by
  cases q <;> rfl

@[simp] theorem stampSlot_isUntagged (q : Bool) (idx stop i : Nat) (t : SpillTable) :
    (stampSlot q idx stop t).2.isUntagged i = t.isUntagged i := by
  cases q <;> rfl

@[simp] theorem stampSlot_length (q : Bool) (idx stop : Nat) (t : SpillTable) :
    (stampSlot q idx stop t).2.spillSlots.length = t.spillSlots.length := by
  cases q <;> simp [stampSlot]

end Scan

/-! ## The invariant -/

/-- Quad slots come in disjoint adjacent pairs `(j, j + 1)` of equal expiry;
`lows` lists the lower halves. -/
structure QuadPairs (t : SpillTable) (lows : List Nat) : Prop where
  isQuad_iff : ∀ i, t.isQuad i = true ↔ ∃ j ∈ lows, i = j ∨ i = j + 1
  apart : ∀ j ∈ lows, ∀ j' ∈ lows, j ≠ j' → j + 1 < j' ∨ j' + 1 < j
  expiry_eq : ∀ j ∈ lows, t.expiry j = t.expiry (j + 1)

/-- What the table keeps through reservations and requests: one length, the
quad pairs with equal untagged flags, and each holder `(index, end)` of the log
on an existing slot whose expiry is at or after the holder's end. -/
structure SlotInv (t : SpillTable) (lows : List Nat) (holders : List (Nat × Nat)) : Prop where
  sized : t.Sized
  pairs : QuadPairs t lows
  untagged_eq : ∀ j ∈ lows, t.isUntagged j = t.isUntagged (j + 1)
  holder_lt : ∀ h ∈ holders, h.1 < t.spillSlots.length
  holder_le : ∀ h ∈ holders, h.2 ≤ t.expiry h.1

theorem slotInv_empty : SlotInv .empty [] [] where
  sized := ⟨rfl, rfl⟩
  pairs := ⟨fun i => by simp [isQuad, SpillTable.empty], by simp, by simp⟩
  untagged_eq := by simp
  holder_lt := by simp
  holder_le := by simp

namespace SlotInv
variable {t : SpillTable} {lows : List Nat} {H : List (Nat × Nat)} (hI : SlotInv t lows H)
include hI

/-- Both halves of a pair are slots of the table. -/
theorem pair_lt {j : Nat} (hj : j ∈ lows) : j + 1 < t.spillSlots.length := by
  have := lt_of_isQuad ((hI.pairs.isQuad_iff (j + 1)).2 ⟨j, hj, .inr rfl⟩)
  rw [hI.sized.1] at this
  exact this

theorem isQuad_of_le {i : Nat} (hi : t.spillSlots.length ≤ i) : t.isQuad i = false := by
  cases h : t.isQuad i
  · rfl
  · have := lt_of_isQuad h
    rw [hI.sized.1] at this
    omega

theorem addHolder {i e : Nat} (hi : i < t.spillSlots.length) (he : e ≤ t.expiry i) :
    SlotInv t lows (H ++ [(i, e)]) :=
  { hI with
    holder_lt := fun h hh => (List.mem_append.1 hh).elim (hI.holder_lt h) fun hh => by
      rw [List.mem_singleton.1 hh]; exact hi
    holder_le := fun h hh => (List.mem_append.1 hh).elim (hI.holder_le h) fun hh => by
      rw [List.mem_singleton.1 hh]; exact he }

/-- Padding adds free, unflagged slots nobody holds. -/
theorem padTo (idx : Nat) : SlotInv (t.padTo idx) lows H where
  sized := hI.sized.padTo idx
  pairs := ⟨by simpa using hI.pairs.isQuad_iff, hI.pairs.apart, fun j hj => by
    have := hI.pair_lt hj
    simp only [expiry_padTo]
    split_ifs <;> first | omega | exact hI.pairs.expiry_eq j hj⟩
  untagged_eq := by simpa using hI.untagged_eq
  holder_lt := fun h hh => by have := hI.holder_lt h hh; simp; omega
  holder_le := fun h hh => by
    have := hI.holder_lt h hh
    simp only [expiry_padTo]
    split_ifs
    · omega
    · exact hI.holder_le h hh

/-- Appending an unflagged slot. -/
theorem push (e : Nat) (u : Bool) : SlotInv (t.push e false u) lows H where
  sized := hI.sized.push e false u
  pairs := ⟨fun i => by
      rw [isQuad_push, hI.sized.1]
      split_ifs with h
      · simpa [hI.isQuad_of_le h.ge] using hI.pairs.isQuad_iff i
      · exact hI.pairs.isQuad_iff i,
    hI.pairs.apart, fun j hj => by
      have := hI.pair_lt hj
      simp only [expiry_push]
      split_ifs <;> first | omega | exact hI.pairs.expiry_eq j hj⟩
  untagged_eq := fun j hj => by
    have := hI.pair_lt hj
    simp only [isUntagged_push, hI.sized.2]
    split_ifs <;> first | omega | exact hI.untagged_eq j hj
  holder_lt := fun h hh => by have := hI.holder_lt h hh; simp; omega
  holder_le := fun h hh => by
    have := hI.holder_lt h hh
    simp only [expiry_push]
    split_ifs
    · omega
    · exact hI.holder_le h hh

/-- Appending the two halves of a new quad pair. -/
theorem pushPair (e : Nat) (u : Bool) :
    SlotInv ((t.push e true u).push e true u) (lows ++ [t.spillSlots.length]) H where
  sized := (hI.sized.push e true u).push e true u
  pairs := by
    refine ⟨fun i => ?_, fun j hj j' hj' hne => ?_, fun j hj => ?_⟩
    · have hiff := hI.pairs.isQuad_iff i
      simp only [isQuad_push, push_quad_length, hI.sized.1, List.mem_append, List.mem_singleton]
      constructor
      · intro h
        split_ifs at h with h₁ h₂
        · exact ⟨_, .inr rfl, .inr h₁⟩
        · exact ⟨_, .inr rfl, .inl h₂⟩
        · obtain ⟨j, hj, hij⟩ := hiff.1 h
          exact ⟨j, .inl hj, hij⟩
      · rintro ⟨j, hj | rfl, hij⟩
        · have := hI.pair_lt hj
          split_ifs
          · rfl
          · rfl
          · exact hiff.2 ⟨j, hj, hij⟩
        · split_ifs <;> first | rfl | omega
    · simp only [List.mem_append, List.mem_singleton] at hj hj'
      rcases hj with hj | rfl <;> rcases hj' with hj' | rfl
      · exact hI.pairs.apart j hj j' hj' hne
      · have := hI.pair_lt hj; omega
      · have := hI.pair_lt hj'; omega
      · exact absurd rfl hne
    · simp only [List.mem_append, List.mem_singleton] at hj
      simp only [expiry_push, push_length]
      rcases hj with hj | rfl
      · have := hI.pair_lt hj
        split_ifs <;> first | omega | exact hI.pairs.expiry_eq j hj
      · simp
  untagged_eq := fun j hj => by
    simp only [List.mem_append, List.mem_singleton] at hj
    simp only [isUntagged_push, push_untagged_length, hI.sized.2]
    rcases hj with hj | rfl
    · have := hI.pair_lt hj
      split_ifs <;> first | omega | exact hI.untagged_eq j hj
    · simp
  holder_lt := fun h hh => by have := hI.holder_lt h hh; simp; omega
  holder_le := fun h hh => by
    have := hI.holder_lt h hh
    simp only [expiry_push, push_length]
    split_ifs
    · omega
    · omega
    · exact hI.holder_le h hh

/-- Raising the expiry of an unpaired slot. -/
theorem raise {i e : Nat} (hq : t.isQuad i = false)
    (he : t.expiry i ≤ e) : SlotInv (t.setExpiry i e) lows H where
  sized := hI.sized.setExpiry i e
  pairs := ⟨by simpa using hI.pairs.isQuad_iff, hI.pairs.apart, fun j hj => by
    have h₁ : j ≠ i := fun h => by
      rw [← h, (hI.pairs.isQuad_iff j).2 ⟨j, hj, .inl rfl⟩] at hq; cases hq
    have h₂ : j + 1 ≠ i := fun h => by
      rw [← h, (hI.pairs.isQuad_iff (j + 1)).2 ⟨j, hj, .inr rfl⟩] at hq; cases hq
    simp only [expiry_setExpiry, h₁, h₂, false_and, if_false]
    exact hI.pairs.expiry_eq j hj⟩
  untagged_eq := by simpa using hI.untagged_eq
  holder_lt := by simpa [SpillTable.setExpiry] using hI.holder_lt
  holder_le := fun h hh => by
    have := hI.holder_le h hh
    simp only [expiry_setExpiry]
    split_ifs with h'
    · rw [h'.1] at this; omega
    · exact this

/-- Raising the expiry of both halves of a pair. -/
theorem raisePair {j e : Nat} (hj : j ∈ lows) (he : t.expiry j ≤ e) :
    SlotInv ((t.setExpiry j e).setExpiry (j + 1) e) lows H where
  sized := (hI.sized.setExpiry j e).setExpiry (j + 1) e
  pairs := ⟨by simpa using hI.pairs.isQuad_iff, hI.pairs.apart, fun j' hj' => by
    have := hI.pair_lt hj
    simp only [expiry_setExpiry, setExpiry_length]
    by_cases hjj : j' = j
    · subst hjj; simp [this, Nat.lt_of_succ_lt this]
    · have := hI.pairs.apart j' hj' j hj hjj
      split_ifs <;> first | omega | exact hI.pairs.expiry_eq j' hj'⟩
  untagged_eq := by simpa using hI.untagged_eq
  holder_lt := by simpa [SpillTable.setExpiry] using hI.holder_lt
  holder_le := fun h hh => by
    have := hI.holder_le h hh
    have hpair := hI.pairs.expiry_eq j hj
    simp only [expiry_setExpiry, setExpiry_length]
    split_ifs with h₁ h₂
    · rw [h₁.1, ← hpair] at this; omega
    · rw [h₂.1] at this; omega
    · exact this

end SlotInv

/-! ## One request -/

/-- What `AllocateSpillSlotFor` reads of a range: `range->Start()`, the last
sibling's `End()` and the representation. -/
structure SpillRequest where
  start : Nat
  stop : Nat
  rep : Representation
  deriving DecidableEq, Repr

/-- A request with the index it received (the higher half for a quad slot). -/
structure SpillGrant where
  request : SpillRequest
  index : Nat
  deriving DecidableEq, Repr

/-- The slots a grant holds: both halves of a quad slot. -/
def SpillGrant.slots (c : SpillCtx) (g : SpillGrant) : List Nat :=
  if needQuad c.registerKind g.request.rep then [g.index - 1, g.index] else [g.index]

/-- The grant's entries in the holders' log. -/
def SpillGrant.holders (c : SpillCtx) (g : SpillGrant) : List (Nat × Nat) :=
  (g.slots c).map fun i => (i, g.request.stop)

/-- What one request guarantees about the slots it receives, against the table
`t` before it, the table `t'` after it and the log `H` of earlier holders. -/
structure GrantOk (c : SpillCtx) (t t' : SpillTable) (H : List (Nat × Nat)) (g : SpillGrant) : Prop where
  grows : t.spillSlots.length ≤ t'.spillSlots.length
  flags_stable : ∀ i < t.spillSlots.length, t'.isQuad i = t.isQuad i ∧ t'.isUntagged i = t.isUntagged i
  slot_lt : ∀ i ∈ g.slots c, i < t'.spillSlots.length
  slot_flags : ∀ i ∈ g.slots c, t'.isQuad i = needQuad c.registerKind g.request.rep ∧
    t'.isUntagged i = needUntagged c.registerKind g.request.rep
  after_holders : ∀ i ∈ g.slots c, ∀ h ∈ H, h.1 = i → h.2 ≤ g.request.start

theorem fits_eq_true {t : SpillTable} {q u : Bool} {start i : Nat} :
    t.fits q u start i = true ↔ t.isQuad i = q ∧ t.isUntagged i = u ∧ t.expiry i ≤ start := by
  simp [fits, and_assoc]

theorem firstSearchIndex_of_needQuad {c : SpillCtx} {rep : Representation}
    (h : needQuad c.registerKind rep = true) : firstSearchIndex c = 0 := by
  simp only [needQuad, Bool.and_eq_true, beq_iff_eq] at h
  simp [firstSearchIndex, h.1]

theorem padTo_length_of_le {t : SpillTable} {idx : Nat} (h : t.spillSlots.length ≤ idx) :
    (t.padTo idx).spillSlots.length = idx := by
  simp [h]

section Request
variable {c : SpillCtx} {t : SpillTable} {lows : List Nat} {H : List (Nat × Nat)} (hI : SlotInv t lows H)
  (q : SpillRequest)
include hI

/-- A quad request's scan never stops at the upper half of a pair: the lower
half, one index earlier, has the same flags and the same expiry. -/
theorem SlotInv.scanIndex_mem (hq : needQuad c.registerKind q.rep = true)
    (hlt : scanIndex c t q.start q.rep < t.spillSlots.length) : scanIndex c t q.start q.rep ∈ lows := by
  obtain ⟨hquad, huntagged, hexp⟩ := fits_eq_true.1 (scanIndex_fits c t q.start q.rep hlt)
  rw [hq] at hquad
  obtain ⟨j, hj, rfl | hidx⟩ := (hI.pairs.isQuad_iff _).1 hquad
  · exact hj
  · have hskip := scanIndex_skips c t q.start q.rep (j := j)
      (by rw [firstSearchIndex_of_needQuad hq]; exact Nat.zero_le _) (by omega)
    rw [hidx] at huntagged hexp
    rw [← hI.untagged_eq j hj] at huntagged
    rw [← hI.pairs.expiry_eq j hj] at hexp
    have := fits_eq_true.2 ⟨hq ▸ (hI.pairs.isQuad_iff j).2 ⟨j, hj, .inl rfl⟩, huntagged, hexp⟩
    rw [hskip] at this
    cases this

/-- A request that finds a fitting slot: an unpaired one for a word or double,
the lower half of a pair for a quad. -/
theorem SlotInv.request_of_lt (hss : q.start ≤ q.stop)
    (hlt : scanIndex c t q.start q.rep < t.spillSlots.length) :
    let r := allocateSpillSlotIndex c t q.start q.stop q.rep
    ∃ lows', SlotInv r.2 lows' (H ++ SpillGrant.holders c ⟨q, r.1⟩) ∧ (∀ j ∈ lows, j ∈ lows') ∧
      (needQuad c.registerKind q.rep = true → ∃ j ∈ lows', r.1 = j + 1) ∧ GrantOk c t r.2 H ⟨q, r.1⟩ := by
  dsimp only
  rw [allocateSpillSlotIndex_of_lt c t q.start q.stop q.rep hlt]
  obtain ⟨hquad, huntagged, hexp⟩ := fits_eq_true.1 (scanIndex_fits c t q.start q.rep hlt)
  have hpre : ∀ h ∈ H, h.1 = scanIndex c t q.start q.rep → h.2 ≤ q.start :=
    fun h hh he => (hI.holder_le h hh).trans (by rw [he]; exact hexp)
  cases hq : needQuad c.registerKind q.rep
  · rw [hq] at hquad
    simp only [stampSlot, SpillGrant.holders, SpillGrant.slots, hq, if_false, Bool.false_eq_true]
    refine ⟨lows, (hI.raise hquad (hexp.trans hss)).addHolder (by simpa using hlt) (by simp [hlt]),
      fun j hj => hj, fun h => absurd h (by simp), ?_⟩
    exact { grows := by simp
            flags_stable := by simp
            slot_lt := by simpa [SpillGrant.slots, hq] using hlt
            slot_flags := by simp [SpillGrant.slots, hq, hquad, huntagged]
            after_holders := by simpa [SpillGrant.slots, hq] using hpre }
  · have hmem := hI.scanIndex_mem q hq hlt
    have hpair := hI.pair_lt hmem
    have hexp' := hI.pairs.expiry_eq _ hmem
    have hpre' : ∀ h ∈ H, h.1 = scanIndex c t q.start q.rep + 1 → h.2 ≤ q.start :=
      fun h hh he => (hI.holder_le h hh).trans (by rw [he, ← hexp']; exact hexp)
    simp only [stampSlot, SpillGrant.holders, SpillGrant.slots, hq, if_true, Nat.add_sub_cancel]
    refine ⟨lows, ?_, fun j hj => hj, fun _ => ⟨_, hmem, rfl⟩, ?_⟩
    · have := ((hI.raisePair hmem (hexp.trans hss)).addHolder (i := scanIndex c t q.start q.rep)
        (e := q.stop) (by simp; omega) (by simp [hlt])).addHolder
        (i := scanIndex c t q.start q.rep + 1) (e := q.stop) (by simp; omega) (by simp [hpair])
      simpa using this
    · exact { grows := by simp
              flags_stable := by simp
              slot_lt := by simp [SpillGrant.slots, hq]; omega
              slot_flags := by
                simp only [SpillGrant.slots, hq, if_true, Nat.add_sub_cancel, List.mem_cons, List.mem_singleton, List.not_mem_nil, or_false,
                  forall_eq_or_imp, forall_eq, isQuad_setExpiry, isUntagged_setExpiry]
                exact ⟨⟨hquad.trans hq, huntagged⟩, (hI.pairs.isQuad_iff _).2 ⟨_, hmem, .inr rfl⟩,
                  (hI.untagged_eq _ hmem) ▸ huntagged⟩
              after_holders := by
                simp only [SpillGrant.slots, hq, if_true, Nat.add_sub_cancel, List.mem_cons,
                  List.mem_singleton, List.not_mem_nil, or_false, forall_eq_or_imp, forall_eq]
                exact ⟨hpre, hpre'⟩ }

/-- A request that finds no fitting slot: new slots past the table and the
reserved ones, which nobody held before. -/
theorem SlotInv.request_of_le (hle : t.spillSlots.length ≤ scanIndex c t q.start q.rep) :
    let r := allocateSpillSlotIndex c t q.start q.stop q.rep
    ∃ lows', SlotInv r.2 lows' (H ++ SpillGrant.holders c ⟨q, r.1⟩) ∧ (∀ j ∈ lows, j ∈ lows') ∧
      (needQuad c.registerKind q.rep = true → ∃ j ∈ lows', r.1 = j + 1) ∧ GrantOk c t r.2 H ⟨q, r.1⟩ := by
  dsimp only
  rw [allocateSpillSlotIndex_of_le c t q.start q.stop q.rep hle]
  dsimp only
  set idx := scanIndex c t q.start q.rep
  have hP := hI.padTo idx
  have hlen : (t.padTo idx).spillSlots.length = idx := padTo_length_of_le hle
  have hqlen : (t.padTo idx).quadSpillSlots.length = idx := by
    rw [hP.sized.1, hlen]
  have hulen : (t.padTo idx).untaggedSpillSlots.length = idx := by
    rw [hP.sized.2, hlen]
  have hnew : ∀ h ∈ H, h.1 < idx := fun h hh => (hI.holder_lt h hh).trans_le hle
  cases hq : needQuad c.registerKind q.rep
  · simp only [stampSlot, SpillGrant.holders, SpillGrant.slots, hq, if_false, Bool.false_eq_true]
    have h0 := hP.push 0 (needUntagged c.registerKind q.rep)
    refine ⟨lows, (h0.raise (by simp [hqlen]) (by simp [hlen])).addHolder (by simp [hlen])
      (by simp [hlen]), fun j hj => hj, fun h => absurd h (by simp), ?_⟩
    exact { grows := by simp; omega
            flags_stable := fun i hi => by
              have h₁ : i ≠ idx := by omega
              simp [hqlen, hulen, h₁]
            slot_lt := by simp [SpillGrant.slots, hq, hlen]
            slot_flags := by simp [SpillGrant.slots, hq, hqlen, hulen]
            after_holders := by
              simp only [SpillGrant.slots, hq, Bool.false_eq_true, if_false, List.mem_singleton,
                forall_eq]
              exact fun h hh he => absurd he (hnew h hh).ne }
  · simp only [stampSlot, SpillGrant.holders, SpillGrant.slots, hq, if_true, Nat.add_sub_cancel]
    have h0 := hP.pushPair 0 (needUntagged c.registerKind q.rep)
    rw [hlen] at h0
    have hmem : idx ∈ lows ++ [idx] := List.mem_append_right _ (List.mem_singleton_self _)
    refine ⟨lows ++ [idx], ?_, fun j hj => List.mem_append_left _ hj, fun _ => ⟨idx, hmem, rfl⟩, ?_⟩
    · have h₂ : idx < idx + 1 + 1 := by omega
      have := ((h0.raisePair (e := q.stop) hmem (by simp [hlen])).addHolder (i := idx) (e := q.stop)
        (by simp [hlen, h₂]) (by simp [hlen, h₂])).addHolder (i := idx + 1) (e := q.stop)
        (by simp [hlen]) (by simp [hlen])
      simpa using this
    · exact { grows := by simp; omega
              flags_stable := fun i hi => by
                have h₁ : i ≠ idx := by omega
                have h₂ : i ≠ idx + 1 := by omega
                simp [hqlen, hulen, h₁, h₂]
              slot_lt := by simp [SpillGrant.slots, hq, hlen]; omega
              slot_flags := by simp [SpillGrant.slots, hq, hqlen, hulen]
              after_holders := by
                simp only [SpillGrant.slots, hq, if_true, Nat.add_sub_cancel, List.mem_cons,
                  List.mem_singleton, List.not_mem_nil, or_false, forall_eq_or_imp, forall_eq]
                exact ⟨fun h hh he => absurd he (hnew h hh).ne,
                  fun h hh he => absurd he (by have := hnew h hh; omega)⟩ }

/-- One request keeps the invariant, and its grant gets what `GrantOk` says. -/
theorem SlotInv.request (hss : q.start ≤ q.stop) :
    let r := allocateSpillSlotIndex c t q.start q.stop q.rep
    ∃ lows', SlotInv r.2 lows' (H ++ SpillGrant.holders c ⟨q, r.1⟩) ∧ (∀ j ∈ lows, j ∈ lows') ∧
      (needQuad c.registerKind q.rep = true → ∃ j ∈ lows', r.1 = j + 1) ∧ GrantOk c t r.2 H ⟨q, r.1⟩ := by
  by_cases h : scanIndex c t q.start q.rep < t.spillSlots.length
  · exact hI.request_of_lt q hss h
  · exact hI.request_of_le q (Nat.le_of_not_lt h)

end Request

/-! ## A pass -/

/-- The requests of one pass, in order, each with the index it received. -/
def allocateSpillSlots (c : SpillCtx) : SpillTable → List SpillRequest → SpillTable × List SpillGrant
  | t, [] => (t, [])
  | t, q :: qs =>
    let r := allocateSpillSlotIndex c t q.start q.stop q.rep
    let rest := allocateSpillSlots c r.2 qs
    (rest.1, ⟨q, r.1⟩ :: rest.2)

/-- Every index of a pass is one `AllocateSpillSlotFor` computed for its request. -/
theorem allocateSpillSlots_index (c : SpillCtx) :
    ∀ (t : SpillTable) (qs : List SpillRequest), ∀ g ∈ (allocateSpillSlots c t qs).2,
      ∃ t' : SpillTable, g.index = (allocateSpillSlotIndex c t' g.request.start g.request.stop g.request.rep).1
  | _, [] => by simp [allocateSpillSlots]
  | t, q :: qs => by
    simp only [allocateSpillSlots, List.mem_cons, forall_eq_or_imp]
    exact ⟨⟨t, rfl⟩, allocateSpillSlots_index c _ qs⟩

/-- A pass keeps the invariant; every quad grant holds a pair; flags never
change once a slot exists; and each grant's slots carry its flags, with every
holder before it, in `H` or earlier in the pass, ending by its start. -/
theorem SlotInv.allocateSpillSlots {c : SpillCtx} :
    ∀ {t : SpillTable} {lows : List Nat} {H : List (Nat × Nat)} {qs : List SpillRequest},
    SlotInv t lows H → (∀ q ∈ qs, q.start ≤ q.stop) →
    let a := LinearScan.allocateSpillSlots c t qs
    ∃ lows', SlotInv a.1 lows' (H ++ a.2.flatMap (SpillGrant.holders c)) ∧ (∀ j ∈ lows, j ∈ lows') ∧
      (∀ g ∈ a.2, needQuad c.registerKind g.request.rep = true → ∃ j ∈ lows', g.index = j + 1) ∧
      (∀ i < t.spillSlots.length, a.1.isQuad i = t.isQuad i ∧ a.1.isUntagged i = t.isUntagged i) ∧
      ∀ pre g post, a.2 = pre ++ g :: post → ∀ i ∈ g.slots c,
        a.1.isQuad i = needQuad c.registerKind g.request.rep ∧
        a.1.isUntagged i = needUntagged c.registerKind g.request.rep ∧
        ∀ h ∈ H ++ pre.flatMap (SpillGrant.holders c), h.1 = i → h.2 ≤ g.request.start
  | t, lows, H, [], hI, _ => ⟨lows, by simpa [LinearScan.allocateSpillSlots] using hI, fun _ h => h,
      by simp [LinearScan.allocateSpillSlots], fun _ _ => ⟨rfl, rfl⟩,
      fun pre g post h => by simp [LinearScan.allocateSpillSlots] at h⟩
  | t, lows, H, q :: qs, hI, hq => by
    obtain ⟨l₁, hI₁, hsub₁, hquad₁, hok⟩ := hI.request q (hq q (List.mem_cons_self _ _))
    obtain ⟨l₂, hI₂, hsub₂, hquad₂, hstable, hgrants⟩ :=
      hI₁.allocateSpillSlots (show ∀ q' ∈ qs, q'.start ≤ q'.stop from
        fun q' hq' => hq q' (List.mem_cons_of_mem _ hq'))
    refine ⟨l₂, by simpa [LinearScan.allocateSpillSlots] using hI₂, fun j hj => hsub₂ j (hsub₁ j hj),
      ?_, fun i hi => ?_, fun pre g post hsplit => ?_⟩
    · simp only [LinearScan.allocateSpillSlots, List.mem_cons, forall_eq_or_imp]
      refine ⟨fun h => ?_, hquad₂⟩
      obtain ⟨j, hj, he⟩ := hquad₁ h
      exact ⟨j, hsub₂ j hj, he⟩
    · obtain ⟨h₁, h₂⟩ := hstable i (hi.trans_le hok.grows)
      obtain ⟨h₃, h₄⟩ := hok.flags_stable i hi
      exact ⟨h₁.trans h₃, h₂.trans h₄⟩
    · cases pre with
      | nil =>
        simp only [LinearScan.allocateSpillSlots, List.nil_append, List.cons.injEq] at hsplit
        obtain ⟨rfl, -⟩ := hsplit
        intro i hi
        obtain ⟨h₁, h₂⟩ := hstable i (hok.slot_lt i hi)
        obtain ⟨h₃, h₄⟩ := hok.slot_flags i hi
        exact ⟨h₁.trans h₃, h₂.trans h₄, by simpa using hok.after_holders i hi⟩
      | cons g₀ pre =>
        simp only [LinearScan.allocateSpillSlots, List.cons_append, List.cons.injEq] at hsplit
        obtain ⟨rfl, hrest⟩ := hsplit
        simpa [List.append_assoc] using hgrants pre g post hrest

/-! ## Reservations -/

/-- A reservation made while live ranges are built. -/
inductive SpillReservation
  /-- `AllocateSpillSlotForInitialDefinition(slot_index, range_end)`. -/
  | initialDefinition (slotIndex rangeEnd : Nat)
  /-- `AllocateSpillSlotForSuspendState()`, for a function with or without a
  `:suspend_state` variable. -/
  | suspendState (hasSuspendState : Bool)
  deriving DecidableEq, Repr

/-- The reservation's effect on the table. -/
def SpillReservation.apply : SpillReservation → SpillTable → SpillTable
  | .initialDefinition i e, t => allocateSpillSlotForInitialDefinition t i e
  | .suspendState b, t => allocateSpillSlotForSuspendState b t

/-- The holder a reservation adds to the log: the reserved index and the end
of its use. -/
def SpillReservation.holders : SpillReservation → SpillTable → List (Nat × Nat)
  | .initialDefinition i e, _ => [(i, e)]
  | .suspendState b, t => if b then [(t.spillSlots.length, kMaxPosition)] else []

/-- The reservations in order, from the empty table, with their holders. -/
def reserveSpillSlots (rs : List SpillReservation) : SpillTable × List (Nat × Nat) :=
  rs.foldl (fun acc r => (r.apply acc.1, acc.2 ++ r.holders acc.1)) (.empty, [])

/-- Before the first request the table has no quad slots, so a reservation
keeps the invariant with no pairs. -/
theorem SlotInv.reserve {t : SpillTable} {H : List (Nat × Nat)} (hI : SlotInv t [] H)
    (r : SpillReservation) : SlotInv (r.apply t) [] (H ++ r.holders t) := by
  have hq : ∀ i, t.isQuad i = false := fun i => by
    simpa using (hI.pairs.isQuad_iff i).not.2 (by simp)
  cases r with
  | initialDefinition i e =>
    simp only [SpillReservation.apply, SpillReservation.holders, allocateSpillSlotForInitialDefinition]
    split_ifs with hi
    · exact (hI.raise (hq i) (le_max_left _ e)).addHolder (by simpa using hi)
        (by simp only [expiry_setExpiry, hi, and_self, if_true]; exact le_max_right _ _)
    · have hlen := padTo_length_of_le (Nat.le_of_not_lt hi)
      exact ((hI.padTo i).push e false).addHolder (by simp [hlen]) (by simp [hlen])
  | suspendState b =>
    cases b
    · simpa [SpillReservation.apply, SpillReservation.holders, allocateSpillSlotForSuspendState] using hI
    · exact (hI.push kMaxPosition false).addHolder (by simp) (by simp)

theorem slotInv_reserveSpillSlots (rs : List SpillReservation) :
    SlotInv (reserveSpillSlots rs).1 [] (reserveSpillSlots rs).2 := by
  unfold reserveSpillSlots
  suffices ∀ acc : SpillTable × List (Nat × Nat), SlotInv acc.1 [] acc.2 →
      SlotInv (rs.foldl (fun acc r => (r.apply acc.1, acc.2 ++ r.holders acc.1)) acc).1 []
        (rs.foldl (fun acc r => (r.apply acc.1, acc.2 ++ r.holders acc.1)) acc).2 from
    this _ slotInv_empty
  induction rs with
  | nil => exact fun _ h => h
  | cons r rs ih => exact fun acc h => ih _ (h.reserve r)

/-! ## The law -/

/-- The spill-slot table law over a pass: reservations from the empty table,
then every request of one pass, each ending at or after its start. The three
arrays keep one length; quad slots form disjoint adjacent pairs of equal expiry
and every quad request receives one; each grant's slots carry the request's
flags, and every earlier holder of them, reserved or granted, ends by the
request's start; a CPU pass never hands out a slot below `fixed_slot_count()`. -/
theorem spillSlot_table_law (c : SpillCtx) (rs : List SpillReservation) (qs : List SpillRequest)
    (hq : ∀ q ∈ qs, q.start ≤ q.stop) :
    let r := reserveSpillSlots rs
    let a := allocateSpillSlots c r.1 qs
    a.1.Sized ∧
      (∃ lows, QuadPairs a.1 lows ∧
        ∀ g ∈ a.2, needQuad c.registerKind g.request.rep = true → ∃ j ∈ lows, g.index = j + 1) ∧
      (∀ pre g post, a.2 = pre ++ g :: post → ∀ i ∈ g.slots c,
        a.1.isQuad i = needQuad c.registerKind g.request.rep ∧
        a.1.isUntagged i = needUntagged c.registerKind g.request.rep ∧
        (∀ h ∈ r.2, h.1 = i → h.2 ≤ g.request.start) ∧
        ∀ g' ∈ pre, i ∈ g'.slots c → g'.request.stop ≤ g.request.start) ∧
      (c.registerKind = .register → ∀ g ∈ a.2, c.fixedSlotCount ≤ g.index) := by
  obtain ⟨lows, hI, -, hquad, -, hgrants⟩ := (slotInv_reserveSpillSlots rs).allocateSpillSlots hq
  refine ⟨hI.sized, ⟨lows, hI.pairs, hquad⟩, fun pre g post hsplit i hi => ?_, fun hk g hg => ?_⟩
  · obtain ⟨h₁, h₂, h₃⟩ := hgrants pre g post hsplit i hi
    refine ⟨h₁, h₂, fun h hh => h₃ h (List.mem_append_left _ hh), fun g' hg' hi' => ?_⟩
    exact h₃ (i, g'.request.stop)
      (List.mem_append_right _ (List.mem_flatMap.2 ⟨g', hg', List.mem_map_of_mem _ hi'⟩)) rfl
  · obtain ⟨t', he⟩ := allocateSpillSlots_index c _ qs g hg
    rw [he]
    exact allocateSpillSlotIndex_ge_fixedSlotCount c t' _ _ _ hk

/-- An FPU pass: a quad value live over `[0, 10)`, a double over `[2, 6)`, and a
quad over `[12, 20)`. The double cannot share the pair, so it gets slot `2`; the
second quad reuses the pair `(0, 1)`, whose holder ended at `10`. -/
theorem spillSlot_table_law_fpu :
    let c : SpillCtx := ⟨.fpuRegister, 0, 0, ⟨-1, 2⟩⟩
    let qs : List SpillRequest :=
      [⟨0, 10, .unboxedFloat32x4⟩, ⟨2, 6, .unboxedDouble⟩, ⟨12, 20, .unboxedFloat64x2⟩]
    (allocateSpillSlots c (reserveSpillSlots []).1 qs).2.map SpillGrant.index = [1, 2, 1] ∧
      (allocateSpillSlots c (reserveSpillSlots []).1 qs).1.Sized :=
  ⟨by decide, (spillSlot_table_law _ [] _ (by decide)).1⟩

end LinearScan
