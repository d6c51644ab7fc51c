import Mathlib.Data.List.Induction
import Mathlib.Tactic.FieldSimp
import Mathlib.Tactic.LinearCombination
import Mathlib.Tactic.Ring

/-!
# Welford's algorithm

The running mean and sum of squared deviations of a list, value by value, in any field of
characteristic zero. `foldl_next` : after a list they are the mean of the list and the sum of the
squared deviations from it.
-/

namespace Welford

open List

variable {F : Type*} [Field F]

/-- The number of values, their mean and the sum of the squared deviations from it. -/
structure Accumulator (F : Type*) where
  count : F
  mean : F
  m2 : F

/-- The first value. -/
def first (x : F) : Accumulator F :=
  ⟨1, x, 0⟩

/-- The next value. -/
def next (a : Accumulator F) (x : F) : Accumulator F :=
  let n := a.count + 1
  let mean := a.mean + (x - a.mean) / n
  ⟨n, mean, a.m2 + (x - a.mean) * (x - mean)⟩

def mean (l : List F) : F :=
  l.sum / l.length

/-- The sum of the squared deviations from the mean. -/
def squares (l : List F) : F :=
  (l.map fun x => (x - mean l) ^ 2).sum

theorem sum_sq_sub (c : F) (l : List F) :
    (l.map fun x => (x - c) ^ 2).sum =
      (l.map fun x => x ^ 2).sum - 2 * c * l.sum + l.length * c ^ 2 := by
  induction l with
  | nil => simp
  | cons x l ih =>
    rw [map_cons, sum_cons, ih, map_cons, sum_cons, sum_cons,
      length_cons]
    push_cast
    ring

variable [CharZero F] {l : List F}

theorem length_ne_zero (hl : l ≠ []) : (l.length : F) ≠ 0 :=
  Nat.cast_ne_zero.2 (mt length_eq_zero_iff.1 hl)

theorem sum_eq (hl : l ≠ []) : l.sum = l.length * mean l := by
  rw [mean, mul_div_cancel₀ _ (length_ne_zero hl)]

theorem squares_eq (hl : l ≠ []) :
    squares l = (l.map fun x => x ^ 2).sum - l.length * mean l ^ 2 := by
  rw [squares, sum_sq_sub, sum_eq hl]
  ring

theorem mean_concat (hl : l ≠ []) (x : F) :
    mean (l ++ [x]) = mean l + (x - mean l) / (l.length + 1) := by
  have hn : (l.length : F) + 1 ≠ 0 := Nat.cast_add_one_ne_zero _
  rw [mean, sum_append, sum_singleton, sum_eq hl, length_append,
    length_singleton]
  push_cast
  field_simp
  ring

theorem squares_concat (hl : l ≠ []) (x : F) :
    squares (l ++ [x]) = squares l + (x - mean l) * (x - mean (l ++ [x])) := by
  have hn : (l.length : F) + 1 ≠ 0 := Nat.cast_add_one_ne_zero _
  rw [squares_eq (by simp), squares_eq hl, mean_concat hl, map_append, sum_append,
    length_append, map_singleton, sum_singleton, length_singleton]
  push_cast
  field_simp
  ring

/-- The accumulator after a list. -/
theorem foldl_next (x : F) (l : List F) :
    l.foldl next (first x) = ⟨(x :: l).length, mean (x :: l), squares (x :: l)⟩ := by
  induction l using reverseRecOn with
  | nil => simp [first, mean, squares]
  | append_singleton l y ih =>
    rw [foldl_append, ih, ← cons_append, squares_concat (cons_ne_nil x l),
      mean_concat (cons_ne_nil x l), length_append]
    simp [next]

end Welford
