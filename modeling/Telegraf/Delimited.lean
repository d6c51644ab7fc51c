import Mathlib.Data.List.Basic

/-!
# Delimited lists

Several lists written one after the other with a delimiter between them. Cutting the result at
the delimiter gives the pieces of the lists, which are the lists themselves only if the
delimiter does not occur in them.
-/

set_option linter.unusedSectionVars false

open List

namespace Delimited

variable {α : Type*} [BEq α] [LawfulBEq α] {c : α}

/-- A piece has no delimiter, and nothing that was not in the list. -/
theorem mem_splitOn : ∀ {xs q : List α}, q ∈ xs.splitOn c → c ∉ q ∧ ∀ x ∈ q, x ∈ xs
  | [], q, h => by
    have hq : q = [] := by simpa using h
    simp [hq]
  | x :: xs, q, h => by
    rw [splitOn_cons_eq_if_modifyHead] at h
    split_ifs at h with hx
    · rcases mem_cons.1 h with rfl | hmem
      · simp
      · obtain ⟨hc, hsub⟩ := mem_splitOn hmem
        exact ⟨hc, fun y hy => mem_cons_of_mem _ (hsub y hy)⟩
    · obtain ⟨p, _, hps⟩ := exists_cons_of_ne_nil (splitOn_ne_nil c xs)
      rw [hps, modifyHead_cons] at h
      rcases mem_cons.1 h with rfl | hmem
      · obtain ⟨hc, hsub⟩ := mem_splitOn (hps ▸ mem_cons_self : p ∈ xs.splitOn c)
        refine ⟨fun hmem => ?_, fun y hy => ?_⟩
        · rcases mem_cons.1 hmem with rfl | hmem
          · simp at hx
          · exact hc hmem
        · rcases mem_cons.1 hy with rfl | hy
          · exact mem_cons_self
          · exact mem_cons_of_mem _ (hsub y hy)
      · obtain ⟨hc, hsub⟩ := mem_splitOn (hps ▸ mem_cons_of_mem _ hmem : q ∈ xs.splitOn c)
        exact ⟨hc, fun y hy => mem_cons_of_mem _ (hsub y hy)⟩

/-- What stands in the joined lists is the delimiter or stands in one of them. -/
theorem mem_intercalate {x : α} : ∀ {ls : List (List α)},
    x ∈ [c].intercalate ls → x = c ∨ ∃ l ∈ ls, x ∈ l
  | [], h => by simp at h
  | [l], h => .inr ⟨l, List.mem_singleton_self l, by simpa using h⟩
  | l :: m :: ls, h => by
    rw [intercalate_cons_cons, append_assoc, mem_append, singleton_append,
      mem_cons] at h
    rcases h with hl | hc | hrest
    · exact .inr ⟨l, mem_cons_self, hl⟩
    · exact .inl hc
    · refine (mem_intercalate hrest).imp_right ?_
      rintro ⟨k, hk, hx⟩
      exact ⟨k, mem_cons_of_mem l hk, hx⟩

/-- The pieces of the joined lists are the pieces of each list. -/
theorem splitOn_intercalate_eq_flatMap : ∀ {ls : List (List α)}, ls ≠ [] →
    ([c].intercalate ls).splitOn c = ls.flatMap (List.splitOn c)
  | [l], _ => by simp
  | l :: m :: ls, _ => by
    rw [intercalate_cons_cons, append_assoc, singleton_append,
      splitOn_append_cons_self]
    exact congrArg _ (splitOn_intercalate_eq_flatMap (cons_ne_nil m ls))

variable {ls : List (List α)}

/-- Cutting the lists further does not change what they join to. -/
theorem intercalate_flatMap_splitOn (h : ls ≠ []) :
    [c].intercalate (ls.flatMap (List.splitOn c)) = [c].intercalate ls := by
  rw [← splitOn_intercalate_eq_flatMap h, intercalate_splitOn]

/-- Lists without the delimiter are their own pieces. -/
theorem flatMap_splitOn_eq_self (h : ∀ l ∈ ls, c ∉ l) : ls.flatMap (List.splitOn c) = ls := by
  by_cases hne : ls = []
  · simp [hne]
  · rw [← splitOn_intercalate_eq_flatMap hne, splitOn_intercalate c h hne]

theorem length_splitOn : ∀ xs : List α, (xs.splitOn c).length = xs.count c + 1
  | [] => by simp
  | x :: xs => by
    rw [splitOn_cons_eq_if_modifyHead, count_cons]
    split_ifs with hx
    · rw [length_cons, length_splitOn xs]
    · rw [length_modifyHead, length_splitOn xs, Nat.add_zero]

/-- The lists are determined by their pieces and by the number of delimiters in each. -/
theorem eq_of_flatMap_splitOn_eq : ∀ {ls ms : List (List α)},
    ls.flatMap (List.splitOn c) = ms.flatMap (List.splitOn c) →
    ls.map (List.count c) = ms.map (List.count c) → ls = ms
  | [], [], _, _ => rfl
  | [], _ :: _, _, hcount => by simp at hcount
  | _ :: _, [], _, hcount => by simp at hcount
  | l :: ls, m :: ms, hpieces, hcount => by
    rw [map_cons, map_cons, cons.injEq] at hcount
    rw [flatMap_cons, flatMap_cons] at hpieces
    have hlen : (l.splitOn c).length = (m.splitOn c).length := by
      rw [length_splitOn, length_splitOn, hcount.1]
    obtain ⟨hhead, htail⟩ := append_inj hpieces hlen
    have hl : l = m := by
      have hjoin : [c].intercalate (l.splitOn c) = l := intercalate_splitOn c
      rw [← hjoin, hhead, intercalate_splitOn]
    rw [hl, eq_of_flatMap_splitOn_eq htail hcount.2]

/-- With a delimiter after each list, two texts are the same if and only if their pieces are. -/
theorem flatMap_snoc_eq_iff {ls ms : List (List α)} :
    ls.flatMap (· ++ [c]) = ms.flatMap (· ++ [c]) ↔
      ls.flatMap (List.splitOn c) = ms.flatMap (List.splitOn c) := by
  have htext : ∀ ls : List (List α), ls.flatMap (· ++ [c]) = [c].intercalate (ls ++ [[]]) := by
    intro ls
    induction ls with
    | nil => simp
    | cons l ls ih =>
      rw [flatMap_cons, ih, cons_append, intercalate_cons_of_ne_nil (by simp)]
  have hpieces : ∀ ls : List (List α),
      (ls.flatMap (· ++ [c])).splitOn c = ls.flatMap (splitOn c) ++ [[]] := by
    intro ls
    rw [htext, splitOn_intercalate_eq_flatMap (by simp), flatMap_append]
    simp
  constructor
  · intro heq
    have hsplit := congrArg (splitOn c) heq
    rw [hpieces, hpieces] at hsplit
    exact append_cancel_right hsplit
  · intro heq
    have hjoin : [c].intercalate ((ls.flatMap (· ++ [c])).splitOn c) = ls.flatMap (· ++ [c]) :=
      intercalate_splitOn c
    rw [← hjoin, hpieces, heq, ← hpieces, intercalate_splitOn]

end Delimited
