import Mathlib.Data.List.Nodup

/-!
# Writes to the cells of a list

A loop that assigns to the cells of a list is a list of writes, and what a cell holds after
it is the last write to that cell, or what it held before.
-/

open List

namespace Writes

variable {β : Type*}

/-- The list after the writes, in order. Writes beyond the end are ignored. -/
def apply (ws : List (ℕ × β)) (row : List β) : List β :=
  ws.foldl (fun row w => row.set w.1 w.2) row

/-- The value last written to the cell `j`. -/
def last : List (ℕ × β) → ℕ → Option β
  | [], _ => none
  | (i, v) :: ws, j => (last ws j).or (if i = j then some v else none)

theorem apply_append (ws ws' : List (ℕ × β)) (row : List β) :
    apply (ws ++ ws') row = apply ws' (apply ws row) :=
  foldl_append

@[simp] theorem length_apply : ∀ (ws : List (ℕ × β)) (row : List β),
    (apply ws row).length = row.length
  | [], _ => rfl
  | w :: ws, row => (length_apply ws (row.set w.1 w.2)).trans length_set

/-- A cell after the writes. -/
theorem getElem?_apply : ∀ (ws : List (ℕ × β)) (row : List β) (j : ℕ),
    (apply ws row)[j]? = row[j]?.map fun x => (last ws j).getD x
  | [], row, j => by simp [apply, last]
  | (i, v) :: ws, row, j => by
    have h := getElem?_apply ws (row.set i v) j
    rw [apply, foldl_cons]
    refine h.trans ?_
    rw [getElem?_set, last]
    by_cases hij : i = j
    · subst hij
      by_cases hlt : i < row.length
      · cases last ws i <;> simp [hlt]
      · simp [hlt]
    · simp [hij]

theorem last_append (ws ws' : List (ℕ × β)) (j : ℕ) :
    last (ws ++ ws') j = (last ws' j).or (last ws j) := by
  induction ws with
  | nil => simp [last]
  | cons w ws ih =>
    obtain ⟨i, v⟩ := w
    rw [cons_append, last, last, ih, Option.or_assoc]

variable {ws : List (ℕ × β)} {j : ℕ}

theorem last_eq_none (h : ∀ w ∈ ws, w.1 ≠ j) : last ws j = none := by
  induction ws with
  | nil => rfl
  | cons w ws ih =>
    obtain ⟨i, v⟩ := w
    rw [last, ih fun w hw => h w (mem_cons_of_mem _ hw), if_neg (h (i, v) mem_cons_self)]
    rfl

variable {v : β}

theorem mem_of_last (h : last ws j = some v) : (j, v) ∈ ws := by
  induction ws with
  | nil => cases h
  | cons w ws ih =>
    obtain ⟨i, u⟩ := w
    rw [last] at h
    cases hlast : last ws j with
    | some =>
      rw [hlast] at h
      exact mem_cons_of_mem _ (ih (hlast.trans h))
    | none =>
      rw [hlast, Option.none_or] at h
      split_ifs at h with hij
      · rw [← Option.some.inj h, hij]
        exact mem_cons_self

/-- A cell that is written to holds one of the values written to it. -/
theorem exists_last (h : (j, v) ∈ ws) : ∃ u, last ws j = some u := by
  induction ws with
  | nil => cases h
  | cons w ws ih =>
    obtain ⟨i, u⟩ := w
    rw [last]
    rcases mem_cons.1 h with heq | h
    · cases heq
      cases last ws j <;> simp
    · obtain ⟨u', hu'⟩ := ih h
      exact ⟨u', by rw [hu']; rfl⟩

/-- Where no cell is written to twice, every value written stays. -/
theorem last_of_mem (hnodup : (ws.map Prod.fst).Nodup) (h : (j, v) ∈ ws) : last ws j = some v := by
  obtain ⟨u, hu⟩ := exists_last h
  have hmem := mem_of_last hu
  rw [hu, Option.some.injEq]
  exact congrArg Prod.snd (inj_on_of_nodup_map hnodup hmem h rfl)

end Writes
