import Mathlib

/-!
# Tallies between borders

Values are counted in the slots between sorted borders : a slot is above the border before it and up
to its own border, and the last slot has no border. The slot of a value is found by binary search
(`slot`), and `tally` counts the values of a list slot by slot.

`slot_le_iff` and `slot_eq_iff` : a value is in a slot or an earlier one exactly if it is not above
the border, and in the slot exactly if it is above the border before as well. Hence a count is the
number of values in the range of the slot (`getElem?_tally`), and a sum of the first counts is the
number of values up to a border (`sum_take_tally`).
-/

namespace Tally

open List

/-! ## Binary search -/

/-- The first number from `i` up to `j` for which `p` holds, found by bisection, where `p` holds
from some number on. -/
def search (p : ℕ → Bool) : ℕ → ℕ → ℕ → ℕ
  | 0, i, _ => i
  | fuel + 1, i, j =>
    if i < j then
      let h := (i + j) / 2
      if p h then search p fuel i h else search p fuel (h + 1) j
    else i

theorem search_spec {p : ℕ → Bool} {n : ℕ} (hp : ∀ k l, k ≤ l → l < n → p k → p l) :
    ∀ (fuel i j : ℕ), i ≤ j → j ≤ n → j - i ≤ fuel →
      i ≤ search p fuel i j ∧ search p fuel i j ≤ j ∧
        ∀ k, i ≤ k → k < j → (p k ↔ search p fuel i j ≤ k)
  | 0, i, j, hij, _, hfuel => by
    rw [search]
    exact ⟨Nat.le_refl i, hij, fun k hk hkj => by omega⟩
  | fuel + 1, i, j, hij, hjn, hfuel => by
    unfold search
    simp only
    split_ifs with hlt hmid
    · obtain ⟨hle, hge, hiff⟩ :=
        search_spec hp fuel i ((i + j) / 2) (by omega) (by omega) (by omega)
      refine ⟨hle, by omega, fun k hk hkj => ?_⟩
      by_cases hkm : k < (i + j) / 2
      · exact hiff k hk hkm
      · exact iff_of_true (hp _ k (by omega) (by omega) hmid) (by omega)
    · obtain ⟨hle, hge, hiff⟩ := search_spec hp fuel ((i + j) / 2 + 1) j (by omega) hjn (by omega)
      refine ⟨by omega, hge, fun k hk hkj => ?_⟩
      by_cases hkm : (i + j) / 2 + 1 ≤ k
      · exact hiff k hkm hkj
      · refine iff_of_false (fun hpk => hmid ?_) (by omega)
        exact hp k _ (by omega) (by omega) hpk
    · exact ⟨Nat.le_refl i, hij, fun k hk hkj => by omega⟩

/-! ## Slots -/

variable {α : Type*} [LinearOrder α]

/-- The slot of a value : the index of the first border that it is not above. -/
def slot (b : List α) (v : α) : ℕ :=
  search (fun i => (b[i]?).any fun u => v ≤ u) b.length 0 b.length

/-- The border before a slot. -/
def lower (b : List α) (i : ℕ) : Option α :=
  if i = 0 then none else b[i - 1]?

variable {b : List α} (hb : b.Pairwise (· ≤ ·))
include hb

theorem slot_spec (v : α) :
    slot b v ≤ b.length ∧ ∀ i (hi : i < b.length), v ≤ b[i] ↔ slot b v ≤ i := by
  have hmono : ∀ k l, k ≤ l → l < b.length → (b[k]?.any fun u => v ≤ u) →
      b[l]?.any fun u => v ≤ u := by
    intro k l hkl hl hk
    rw [getElem?_eq_getElem (by omega), Option.any_some, decide_eq_true_iff] at hk
    rw [getElem?_eq_getElem hl, Option.any_some, decide_eq_true_iff]
    rcases Nat.eq_or_lt_of_le hkl with rfl | hlt
    · exact hk
    · exact hk.trans (pairwise_iff_getElem.1 hb k l _ _ hlt)
  obtain ⟨-, hle, hiff⟩ := search_spec hmono b.length 0 b.length (Nat.zero_le _) (Nat.le_refl _)
    (Nat.le_refl _)
  refine ⟨hle, fun i hi => ?_⟩
  rw [slot, ← hiff i (Nat.zero_le i) hi, getElem?_eq_getElem hi, Option.any_some,
    decide_eq_true_iff]

theorem slot_le_length (v : α) : slot b v ≤ b.length :=
  (slot_spec hb v).1

variable {i : ℕ}

/-- A value is in a slot or an earlier one exactly if it is not above the border. -/
theorem slot_le_iff (hi : i ≤ b.length) (v : α) : slot b v ≤ i ↔ ∀ u ∈ b[i]?, v ≤ u := by
  obtain ⟨hle, hiff⟩ := slot_spec hb v
  rcases Nat.eq_or_lt_of_le hi with rfl | hlt
  · simp [hle]
  · simp [getElem?_eq_getElem hlt, hiff i hlt]

/-- A value is in a slot exactly if it is above the border before and not above the border. -/
theorem slot_eq_iff (hi : i ≤ b.length) (v : α) :
    slot b v = i ↔ (∀ l ∈ lower b i, l < v) ∧ ∀ u ∈ b[i]?, v ≤ u := by
  rw [← slot_le_iff hb hi]
  cases i with
  | zero => simp [lower]
  | succ i =>
    have hlower : (∀ l ∈ lower b (i + 1), l < v) ↔ ¬slot b v ≤ i := by
      rw [slot_le_iff hb (by omega)]
      simp [lower, getElem?_eq_getElem (show i < b.length by omega)]
    rw [hlower]
    omega

omit hb

/-! ## Counts -/

/-- The numbers of values in the slots. -/
def tally (b : List α) (vs : List α) : List ℕ :=
  vs.foldl (fun counts v => counts.modify (slot b v) (· + 1)) (replicate (b.length + 1) 0)

theorem tally_concat (b vs : List α) (v : α) :
    tally b (vs ++ [v]) = (tally b vs).modify (slot b v) (· + 1) :=
  foldl_append

@[simp] theorem length_tally (b vs : List α) : (tally b vs).length = b.length + 1 := by
  induction vs using reverseRecOn with
  | nil => exact length_replicate
  | append_singleton vs v ih => rw [tally_concat, length_modify, ih]

theorem getElem?_tally (b vs : List α) (hi : i ≤ b.length) :
    (tally b vs)[i]? = some (vs.countP fun v => slot b v = i) := by
  induction vs using reverseRecOn with
  | nil => exact (getElem?_replicate.trans (if_pos (Nat.lt_succ_of_le hi)))
  | append_singleton vs v ih =>
    rw [tally_concat, getElem?_modify, ih, countP_append, countP_singleton]
    by_cases hv : slot b v = i <;> simp [hv]

/-- The first counts sum up to the number of values up to a border. -/
theorem sum_take_tally (b vs : List α) : ∀ {i : ℕ}, i ≤ b.length →
    ((tally b vs).take (i + 1)).sum = vs.countP fun v => slot b v ≤ i
  | 0, hi => by
    rw [take_add_one, getElem?_tally b vs hi]
    simp
  | i + 1, hi => by
    rw [take_add_one, sum_append, sum_take_tally b vs (by omega), getElem?_tally b vs hi,
      Option.toList_some, sum_singleton]
    clear hi
    induction vs with
    | nil => rfl
    | cons v =>
      simp only [countP_cons, decide_eq_true_eq]
      have hsplit : (if slot b v ≤ i then 1 else 0) + (if slot b v = i + 1 then 1 else 0) =
          if slot b v ≤ i + 1 then 1 else 0 := by
        split_ifs <;> omega
      omega

end Tally
