import Mathlib.Data.Int.Notation
import Mathlib.Data.List.Basic
import Mathlib.Data.List.Induction
import Mathlib.Order.Defs.LinearOrder

/-!
# Ancestry by parent links

A partial function `parent` makes a type a forest. `OnTop parent a l b` : the members of `l` lead
from `a` up to `b`, one child after another. With heights that grow from a parent to its child, the
members of a path are ordered by height and a path is no longer than the difference of the heights
of its ends.
-/

open List

namespace Ancestry

variable {α : Type*} (parent : α → Option α)

/-- The members of `l` lead from `a` up to `b`. -/
def OnTop : α → List α → α → Prop
  | a, [], b => a = b
  | a, x :: l, b => parent x = some a ∧ OnTop x l b

/-- `a` is `b` or below it. -/
def Ancestor (a b : α) : Prop :=
  ∃ l, OnTop parent a l b

variable {parent} {a b c : α} {l : List α}

@[simp] theorem onTop_nil : OnTop parent a [] b ↔ a = b :=
  Iff.rfl

variable {x : α}

@[simp] theorem onTop_cons : OnTop parent a (x :: l) b ↔ parent x = some a ∧ OnTop parent x l b :=
  Iff.rfl

theorem onTop_append {l' : List α} :
    OnTop parent a (l ++ l') c ↔ ∃ b, OnTop parent a l b ∧ OnTop parent b l' c := by
  induction l generalizing a with
  | nil => simp
  | cons x l ih => simp [ih, and_assoc]

theorem onTop_snoc :
    OnTop parent a (l ++ [x]) c ↔ x = c ∧ ∃ b, OnTop parent a l b ∧ parent x = some b := by
  rw [onTop_append]
  constructor
  · rintro ⟨b, hl, hparent, hx⟩
    exact ⟨hx, b, hl, hparent⟩
  · rintro ⟨hx, b, hl, hparent⟩
    exact ⟨b, hl, hparent, hx⟩

theorem Ancestor.refl (a : α) : Ancestor parent a a :=
  ⟨[], rfl⟩

theorem Ancestor.trans (hab : Ancestor parent a b) (hbc : Ancestor parent b c) :
    Ancestor parent a c := by
  obtain ⟨l, hl⟩ := hab
  obtain ⟨l', hl'⟩ := hbc
  exact ⟨l ++ l', onTop_append.2 ⟨b, hl, hl'⟩⟩

theorem Ancestor.of_parent (h : parent b = some a) : Ancestor parent a b :=
  ⟨[b], h, rfl⟩

section

variable (h : OnTop parent a l b)

include h

theorem OnTop.ancestor_of_mem (hx : x ∈ l) : Ancestor parent x b := by
  induction l generalizing a with
  | nil => cases hx
  | cons y l ih =>
    rcases mem_cons.1 hx with rfl | hx
    · exact ⟨l, h.2⟩
    · exact ih h.2 hx

theorem OnTop.mem_of_ne_nil (hne : l ≠ []) : b ∈ l := by
  rw [← dropLast_append_getLast hne] at h
  obtain ⟨hlast, -⟩ := onTop_snoc.1 h
  rw [← hlast]
  exact getLast_mem hne

/-- What is below the end of a path is on it or below its beginning. -/
theorem OnTop.mem_or_ancestor (hx : Ancestor parent x b) : x ∈ l ∨ Ancestor parent x a := by
  induction l using reverseRecOn generalizing b with
  | nil =>
    obtain rfl : a = b := h
    exact .inr hx
  | append_singleton l y ih =>
    obtain ⟨rfl, c, hl, hparent⟩ := onTop_snoc.1 h
    obtain ⟨l', hl'⟩ := hx
    rcases eq_nil_or_concat' l' with rfl | ⟨l', z, rfl⟩
    · obtain rfl : x = y := hl'
      exact .inl (by simp)
    · obtain ⟨rfl, _, hl', hparent'⟩ := onTop_snoc.1 hl'
      obtain rfl := Option.some.inj (hparent.symm.trans hparent')
      exact (ih hl ⟨l', hl'⟩).imp_left (mem_append_left _)

theorem OnTop.isChain : l.IsChain fun x y => parent y = some x := by
  induction l generalizing a with
  | nil => exact List.IsChain.nil
  | cons x l ih =>
    cases l with
    | nil => exact List.IsChain.singleton x
    | cons => exact List.IsChain.cons_cons h.2.1 (ih h.2)

end

section Height

variable {height : α → ℤ} (hheight : ∀ t p, parent t = some p → height p < height t)

include hheight

theorem OnTop.height_add_length_le (h : OnTop parent a l b) : height a + l.length ≤ height b := by
  induction l generalizing a with
  | nil =>
    obtain rfl : a = b := h
    simp
  | cons x l ih =>
    have hlt := hheight x a h.1
    have hle := ih h.2
    rw [length_cons]
    omega

theorem Ancestor.height_le (h : Ancestor parent a b) : height a ≤ height b := by
  obtain ⟨l, hl⟩ := h
  have hle := hl.height_add_length_le hheight
  omega

theorem not_ancestor_parent (h : parent b = some a) : ¬Ancestor parent b a := by
  intro hanc
  have hle := hanc.height_le hheight
  have hlt := hheight b a h
  omega

theorem OnTop.height_lt_of_mem (h : OnTop parent a l b) (hx : x ∈ l) : height a < height x := by
  induction l generalizing a with
  | nil => cases hx
  | cons y l ih =>
    have hlt := hheight y a h.1
    rcases mem_cons.1 hx with rfl | hx
    · exact hlt
    · exact Int.lt_trans hlt (ih h.2 hx)

theorem OnTop.pairwise_height (h : OnTop parent a l b) : l.Pairwise (height · < height ·) := by
  induction l generalizing a with
  | nil => exact List.Pairwise.nil
  | cons x l ih =>
    exact pairwise_cons.2 ⟨fun y hy => h.2.height_lt_of_mem hheight hy, ih h.2⟩

end Height

end Ancestry
