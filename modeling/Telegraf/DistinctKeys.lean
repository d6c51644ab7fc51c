import Telegraf.KeyedLists

/-!
# Distinct keys

The distinct elements of a list in the order of their first occurrence (`List.eraseDups`), when an
element is added at the end, and an association list that has their positions, under codes of the
elements (`positions`).
-/

open List hiding getElem?_eq_some_iff

namespace DistinctKeys

open KeyedLists

variable {α β κ ν : Type*}

/-- The positions of elements, from a number on, under their codes. -/
def positions (code : κ → ν) (n : ℕ) (ks : List κ) : List (ν × ℕ) :=
  (ks.zipIdx n).map fun p => (code p.1, p.2)

theorem positions_cons (code : κ → ν) (n : ℕ) (k : κ) (ks : List κ) :
    positions code n (k :: ks) = (code k, n) :: positions code (n + 1) ks :=
  rfl

theorem positions_concat (code : κ → ν) (n : ℕ) (ks : List κ) (k : κ) :
    positions code n (ks ++ [k]) = positions code n ks ++ [(code k, n + ks.length)] := by
  simp [positions, zipIdx_append]

variable [DecidableEq κ]

theorem eraseDups_concat (ks : List κ) (k : κ) :
    (ks ++ [k]).eraseDups = if k ∈ ks then ks.eraseDups else ks.eraseDups ++ [k] := by
  rw [eraseDups_append, removeAll]
  by_cases h : k ∈ ks
  · simp [h]
  · simp [h, eraseDups_cons]

theorem nodup_eraseDups (ks : List κ) : ks.eraseDups.Nodup := by
  induction ks using reverseRecOn with
  | nil => exact nodup_nil
  | append_singleton ks k ih =>
    rw [eraseDups_concat]
    split_ifs with h
    · exact ih
    · refine nodup_append.2 ⟨ih, nodup_singleton k, ?_⟩
      rintro a ha b hb rfl
      rw [mem_singleton.1 hb] at ha
      exact h (mem_eraseDups.1 ha)

/-- Repetitions of an element that follow each other do not matter. -/
theorem eraseDups_flatMap_replicate (key : α → κ) (n : α → ℕ) (l : List α) :
    (l.flatMap fun x => List.replicate (n x) (key x)).eraseDups =
      ((l.filter fun x => n x ≠ 0).map key).eraseDups := by
  have hreplicate : ∀ (ks : List κ) (k : κ) (m : ℕ), (ks ++ replicate (m + 1) k).eraseDups =
      (ks ++ [k]).eraseDups := by
    intro ks k m
    induction m with
    | zero => rfl
    | succ m ih =>
      rw [replicate_succ', ← append_assoc, eraseDups_concat, if_pos (by simp), ih]
  induction l using reverseRecOn with
  | nil => rfl
  | append_singleton l x ih =>
    rw [flatMap_append, flatMap_singleton, filter_append, map_append]
    cases hn : n x with
    | zero => simpa [hn] using ih
    | succ =>
      have hmem : key x ∈ (l.flatMap fun x => replicate (n x) (key x)) ↔
          key x ∈ (l.filter fun x => n x ≠ 0).map key := by
        rw [← mem_eraseDups, ih, mem_eraseDups]
      rw [hreplicate, eraseDups_concat, ih]
      simp only [hmem]
      rw [← eraseDups_concat]
      simp [hn]

/-- An element with a code of its own is found at its position. -/
theorem get_positions [DecidableEq ν] {code : κ → ν} {k : κ} : ∀ {ks : List κ} (n : ℕ),
    (∀ k' ∈ ks, code k' = code k → k' = k) →
    get (positions code n ks) (code k) = if k ∈ ks then some (n + ks.idxOf k) else none
  | [], _, _ => rfl
  | k' :: ks, n, h => by
    rw [positions_cons, get_cons]
    by_cases hk : k' = k
    · rw [if_pos (by rw [hk]), if_pos (by rw [hk]; exact mem_cons_self), hk,
        idxOf_cons_self, Nat.add_zero]
    · have hcode : code k ≠ code k' := fun heq => hk (h k' mem_cons_self heq.symm)
      rw [if_neg hcode, get_positions (n + 1) fun k'' hk'' => h k'' (mem_cons_of_mem _ hk''),
        idxOf_cons_ne _ hk]
      have hmem : k ∈ k' :: ks ↔ k ∈ ks := by
        rw [mem_cons]
        exact ⟨fun hor => hor.resolve_left (Ne.symm hk), .inr⟩
      simp only [hmem, Nat.succ_eq_add_one]
      split_ifs
      · rw [Nat.add_assoc, Nat.add_comm 1]
      · rfl

/-- A function that changes for one element changes the list of its values at one position. -/
theorem map_eq_set_idxOf {f g : κ → β} {k : κ} {ks : List κ} (hnodup : ks.Nodup) (hk : k ∈ ks)
    (h : ∀ k' ∈ ks, k' ≠ k → g k' = f k') : ks.map g = (ks.map f).set (ks.idxOf k) (g k) := by
  refine ext_getElem? fun i => ?_
  rw [getElem?_map, getElem?_set, getElem?_map, length_map]
  by_cases hi : ks.idxOf k = i
  · have hlt := idxOf_lt_length_of_mem hk
    rw [if_pos hi, if_pos hlt, ← hi, getElem?_eq_getElem hlt, getElem_idxOf]
    rfl
  · rw [if_neg hi]
    cases hget : ks[i]? with
    | none => rfl
    | some k' =>
      refine congrArg some (h k' (mem_of_getElem? hget) ?_)
      rintro rfl
      obtain ⟨hlt, hget⟩ := List.getElem?_eq_some_iff.1 hget
      exact hi (by rw [← hget, hnodup.idxOf_getElem])

end DistinctKeys
