import Telegraf.Slices

/-!
# Slices that share nothing

A family of slices with neither arrays nor objects in common. An operation on one of them
leaves the others as they are (`Separated.update`), and a new slice joins the family
(`Separated.snoc`).
-/

open Option

namespace Slices

open List

variable {α : Type*}

/-- A slice with its pointers and objects. -/
structure Owner (α : Type*) where
  slice : Slice
  pointers : List ℕ
  objects : List α

/-- Slices that share neither arrays nor objects. -/
structure Family (h : Heap α) (os : List (Owner α)) : Prop where
  owns : ∀ (i : ℕ) (o : Owner α), os[i]? = some o → Owns h o.slice o.pointers o.objects
  apart : ∀ (i j : ℕ) (o o' : Owner α), i ≠ j → os[i]? = some o → os[j]? = some o' →
    o.slice.array ≠ o'.slice.array ∧ o.pointers.Disjoint o'.pointers

/-- The slices `ss` hold the lists `xss`, and share nothing. -/
def Separated (h : Heap α) (ss : List Slice) (xss : List (List α)) : Prop :=
  ∃ os : List (Owner α), os.map Owner.slice = ss ∧ os.map Owner.objects = xss ∧ Family h os

variable {h h' : Heap α} {s s' : Slice} {xs xs' : List α} {ss : List Slice}
  {xss : List (List α)} {os : List (Owner α)} {i : ℕ} {o o' : Owner α}

/-- One slice is new, or has changed within what was its own, and the others are as before. -/
theorem Family.of_cases (hf : Family h os) (ho : Owns h' o'.slice o'.pointers o'.objects)
    {ps : List ℕ} (hw : Within h s ps h' o'.slice o'.pointers) {os' : List (Owner α)}
    (hcases : ∀ (j : ℕ) (u : Owner α), os'[j]? = some u → j = i ∧ u = o' ∨
      os[j]? = some u ∧ u.slice.array ≠ s.array ∧ u.pointers.Disjoint ps) : Family h' os' := by
  have hother : ∀ (j : ℕ) (u : Owner α), os[j]? = some u → u.slice.array ≠ s.array →
      u.pointers.Disjoint ps →
      u.slice.array ≠ o'.slice.array ∧ u.pointers.Disjoint o'.pointers := by
    intro j u hu hne hdis
    have hown := hf.owns j u hu
    exact ⟨hown.array_ne_of_within hw hne, hown.disjoint_of_within hw hdis⟩
  constructor
  · intro j u hu
    rcases hcases j u hu with ⟨-, rfl⟩ | ⟨hold, hne, hdis⟩
    · exact ho
    · exact (hf.owns j u hold).frame hw hne hdis
  · intro j k u v hjk hu hv
    rcases hcases j u hu with ⟨rfl, rfl⟩ | ⟨hold, hne, hdis⟩
    · rcases hcases k v hv with ⟨rfl, -⟩ | ⟨hold, hne, hdis⟩
      · exact absurd rfl hjk
      · obtain ⟨hne', hdis'⟩ := hother k v hold hne hdis
        exact ⟨hne'.symm, disjoint_symm hdis'⟩
    · rcases hcases k v hv with ⟨-, rfl⟩ | ⟨hold', -⟩
      · exact hother j u hold hne hdis
      · exact hf.apart j k u v hjk hold hold'

theorem Family.update (hf : Family h os) (hi : os[i]? = some o)
    (ho : Owns h' o'.slice o'.pointers o'.objects)
    (hw : Within h o.slice o.pointers h' o'.slice o'.pointers) : Family h' (os.set i o') := by
  refine hf.of_cases (i := i) ho hw fun j u hu => ?_
  by_cases hji : j = i
  · subst hji
    rw [getElem?_set_self (List.getElem?_eq_some_iff.1 hi).1, some.injEq] at hu
    exact .inl ⟨rfl, hu.symm⟩
  · rw [getElem?_set_ne (Ne.symm hji)] at hu
    exact .inr ⟨hu, hf.apart j i u o hji hu hi⟩

theorem Family.snoc (hf : Family h os) (ho : Owns h' o'.slice o'.pointers o'.objects)
    (hw : Within h h.nowhere [] h' o'.slice o'.pointers) : Family h' (os ++ [o']) := by
  refine hf.of_cases (i := os.length) ho hw fun j u hu => ?_
  rcases Nat.lt_trichotomy j os.length with hlt | rfl | _
  · rw [getElem?_append_left hlt] at hu
    exact .inr ⟨hu, Nat.ne_of_lt (hf.owns j u hu).valid.array_lt, disjoint_nil_right _⟩
  · rw [getElem?_concat_length, some.injEq] at hu
    exact .inl ⟨rfl, hu.symm⟩
  · rw [getElem?_eq_none (by simp; omega)] at hu
    cases hu

theorem separated_empty : Separated (Heap.empty : Heap α) [] [] :=
  ⟨[], rfl, rfl, ⟨fun _ _ ho => (nomatch ho), fun _ _ _ _ _ ho => (nomatch ho)⟩⟩

section

variable (hsep : Separated h ss xss) (hs : ss[i]? = some s) (hx : xss[i]? = some xs)

include hsep hs hx

theorem Separated.exists_owns : ∃ ps, Owns h s ps xs := by
  obtain ⟨_, rfl, rfl, hf⟩ := hsep
  rw [getElem?_map, map_eq_some_iff] at hs hx
  obtain ⟨o, ho, rfl⟩ := hs
  obtain ⟨o', ho', rfl⟩ := hx
  obtain rfl : o = o' := some.inj (ho.symm.trans ho')
  exact ⟨o.pointers, hf.owns i o ho⟩

theorem Separated.values_eq : h.values s = some xs := by
  obtain ⟨_, ho⟩ := hsep.exists_owns hs hx
  exact ho.values_eq

/-- An operation on one of the slices leaves the others as they are. -/
theorem Separated.update {r : Option (Heap α × Slice)}
    (hr : ∀ ps, Owns h s ps xs → Becomes h s ps r xs') :
    ∃ h' s', r = some (h', s') ∧ Separated h' (ss.set i s') (xss.set i xs') := by
  obtain ⟨os, rfl, rfl, hf⟩ := hsep
  rw [getElem?_map, map_eq_some_iff] at hs hx
  obtain ⟨o, ho, rfl⟩ := hs
  obtain ⟨o', ho', rfl⟩ := hx
  obtain rfl : o = o' := some.inj (ho.symm.trans ho')
  obtain ⟨h', s', ps', rfl, howns, hwithin⟩ := hr o.pointers (hf.owns i o ho)
  refine ⟨h', s', rfl, os.set i ⟨s', ps', xs'⟩, ?_, ?_, hf.update ho howns hwithin⟩
  · rw [map_set]
  · rw [map_set]

end

/-- A new slice shares nothing with the others. -/
theorem Separated.snoc (hsep : Separated h ss xss) {r : Option (Heap α × Slice)}
    (hr : Becomes h h.nowhere [] r xs') :
    ∃ h' s', r = some (h', s') ∧ Separated h' (ss ++ [s']) (xss ++ [xs']) := by
  obtain ⟨os, rfl, rfl, hf⟩ := hsep
  obtain ⟨h', s', ps', rfl, howns, hwithin⟩ := hr
  refine ⟨h', s', rfl, os ++ [⟨s', ps', xs'⟩], ?_, ?_, hf.snoc howns hwithin⟩
  · rw [map_append]
    rfl
  · rw [map_append]
    rfl

end Slices
