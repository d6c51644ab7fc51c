import Mathlib.Data.List.DropRight
import Mathlib.Data.List.Rotate
import Mathlib.Data.Int.ModEq

/-!
# Circular lists

A list of `n` slots read as a ring. A position is any natural number, its slot is the
position modulo `n`, and `l.rotate p` is the ring read from position `p`. Reading or
writing the slot of a position up to `n` past `p` is reading or writing `l.rotate p`
at the offset (`getElem?_mod`, `rotate_set_mod`), so an argument about a ring is one
about the list `l.rotate p`, with no wrap-around in it.

`shiftBlock` moves a block of slots forward over the `r` slots after it, one slot at a
time from the back, leaving each slot it reads empty. Its closed form is
`shiftBlock_append`.

A ring that drops its oldest element when full keeps the last `n` elements it was given,
`l.rtake n`; the last section has its algebra.
-/

open List

namespace Circular

variable {α : Type*}

/-! ## Positions and slots -/

/-- Two positions of one turn share a slot only if they are equal. -/
theorem eq_of_mod_eq {n p q : ℕ} (hle : p ≤ q) (hlt : q < p + n) (h : p % n = q % n) : p = q := by
  have := Nat.eq_zero_of_dvd_of_lt ((Nat.modEq_iff_dvd' hle).1 h) (by omega)
  omega

variable {n : ℕ}

theorem length_of_rotate {l l' : List α} (h : l.rotate n = l') : l.length = l'.length := by
  rw [← h, length_rotate]

variable {F p : ℕ}

/-- The slot of `p`, read from `F`. -/
theorem getElem?_mod (l : List α) (hF : F ≤ p) (hp : p < F + l.length) :
    l[p % l.length]? = (l.rotate F)[p - F]? := by
  rw [getElem?_rotate (by omega), Nat.sub_add_cancel hF]

/-- Writing the slot of `p`, read from `F`. -/
theorem rotate_set_mod (l : List α) (hF : F ≤ p) (hp : p < F + l.length) (x : α) :
    (l.set (p % l.length) x).rotate F = (l.rotate F).set (p - F) x := by
  have hl : 0 < l.length := by omega
  refine ext_getElem? fun i => ?_
  rcases Nat.lt_or_ge i l.length with hi | hi
  · have hslot : p % l.length = (i + F) % l.length ↔ p - F = i := by
      constructor
      · intro h
        rcases Nat.le_total p (i + F) with hle | hle
        · have := eq_of_mod_eq hle (by omega) h
          omega
        · have := eq_of_mod_eq hle (by omega) h.symm
          omega
      · rintro rfl
        rw [Nat.sub_add_cancel hF]
    rw [getElem?_rotate (by simpa using hi), length_set, getElem?_set,
      getElem?_set, getElem?_rotate hi, length_rotate]
    simp only [hslot, Nat.mod_lt _ hl, if_true]
    rw [if_pos (by omega : p - F < l.length)]
  · rw [getElem?_eq_none (by simpa using hi), getElem?_eq_none (by simpa using hi)]

/-- Stepping a slot forward with a wrap at `n`. -/
theorem succ_mod (hn : 0 < n) (p : ℕ) : (if p % n + 1 = n then 0 else p % n + 1) = (p + 1) % n := by
  have hlt := Nat.mod_lt p hn
  rw [← Nat.mod_add_mod p n 1]
  split_ifs with h
  · rw [h, Nat.mod_self]
  · rw [Nat.mod_eq_of_lt (a := p % n + 1) (by omega)]

/-- Stepping a slot back with a wrap at `0`. -/
theorem pred_mod (hn : 0 < n) (p : ℕ) :
    (if (p + 1) % n = 0 then n - 1 else (p + 1) % n - 1) = p % n := by
  rw [← succ_mod hn p]
  by_cases h : p % n + 1 = n
  · rw [if_pos h, if_pos rfl]
    omega
  · rw [if_neg h, if_neg (Nat.succ_ne_zero _), Nat.add_sub_cancel]

/-! ## Moving the base -/

variable {l xs ys : List α}

/-- Past a prefix, the ring reads the rest and then the prefix. -/
theorem rotate_add_of_append {F : ℕ} (h : l.rotate F = xs ++ ys) :
    l.rotate (F + xs.length) = ys ++ xs := by
  rw [← rotate_rotate, h, rotate_append_length_eq]

/-- Back over a suffix, the ring reads the suffix and then the rest. -/
theorem rotate_of_add_append {F : ℕ}
    (h : l.rotate (F + xs.length) = ys ++ xs) : l.rotate F = xs ++ ys := by
  rw [← rotate_rotate, ← rotate_append_length_eq xs ys] at h
  exact rotate_injective _ h

variable {l : List α}

/-- Bases of the same slot read the ring alike. -/
theorem rotate_congr {F G : ℕ} (h : F % l.length = G % l.length) : l.rotate F = l.rotate G := by
  rw [← rotate_mod l F, h, rotate_mod]

/-! ## Shifting a block -/

/-- Move slots `i - 1, …, 0` forward by `r`, from the back, emptying each slot read. The
second component is what was overwritten, in order. -/
def shiftBlock (r : ℕ) : ℕ → List (Option α) → List (Option α) × List (Option α)
  | 0, w => (w, [])
  | i + 1, w =>
    let next := shiftBlock r i ((w.set (i + r) (w[i]?).join).set i none)
    (next.1, (w[i + r]?).join :: next.2)

/-- The block `A` moves past the `r` slots `X` : what it leaves behind is `X` pushed back
by as many empty slots, cut to `r`, and the cut part is overwritten, last slot first. -/
theorem shiftBlock_append {r : ℕ} (hr : 0 < r) (A : List (Option α)) :
    ∀ X R : List (Option α), X.length = r →
      shiftBlock r A.length (A ++ X ++ R) =
        ((List.replicate A.length none ++ X).take r ++ A ++ R,
          ((List.replicate A.length none ++ X).drop r).reverse) := by
  induction A using reverseRecOn with
  | nil =>
    rintro X R rfl
    simp [shiftBlock]
  | append_singleton A a ih =>
    rintro X R rfl
    obtain ⟨Y, z, rfl⟩ : ∃ Y z, X = Y ++ [z] := ⟨X.dropLast, X.getLast (ne_nil_of_length_pos hr),
        (dropLast_append_getLast _).symm⟩
    have hset : ((A ++ [a] ++ (Y ++ [z]) ++ R).set (A.length + (Y ++ [z]).length) a).set
        A.length none = A ++ (none :: Y) ++ (a :: R) := by
      simp
    have hget : (A ++ [a] ++ (Y ++ [z]) ++ R)[A.length + (Y ++ [z]).length]? = some z := by
      simp
    have ha : (A ++ [a] ++ (Y ++ [z]) ++ R)[A.length]? = some a := by
      simp
    have hA : (A ++ [a]).length = A.length + 1 := by simp
    rw [hA, shiftBlock]
    simp only [hget, ha, Option.join_some, hset]
    have hlen : (none :: Y : List (Option α)).length = (Y ++ [z]).length := by simp
    rw [ih (none :: Y) (a :: R) hlen]
    have hrep : replicate (A.length + 1) (none : Option α) ++ (Y ++ [z]) =
        (replicate A.length none ++ none :: Y) ++ [z] := by
      rw [replicate_succ']
      simp
    have hle : (Y ++ [z]).length ≤
        (replicate A.length (none : Option α) ++ none :: Y).length := by
      simp
    rw [hrep, take_append_of_le_length hle, drop_append_of_le_length hle]
    simp

/-! ## The last elements of a list -/

theorem length_rtake (l : List α) (n : ℕ) : (l.rtake n).length = min l.length n := by
  rw [rtake, length_drop]
  omega

theorem length_rtake_of_le (h : n ≤ l.length) : (l.rtake n).length = n := by
  rw [length_rtake, Nat.min_eq_right h]

theorem rtake_of_length_le (h : l.length ≤ n) : l.rtake n = l := by
  rw [rtake, Nat.sub_eq_zero_of_le h, drop_zero]

/-- The last elements of an append are those of its end, and what is left of its start. -/
theorem rtake_append (xs ys : List α) (n : ℕ) :
    (xs ++ ys).rtake n = xs.rtake (n - ys.length) ++ ys.rtake n := by
  simp only [rtake, drop_append, length_append]
  rcases Nat.le_total n ys.length with h | h
  · rw [drop_of_length_le (by omega : xs.length ≤ xs.length + ys.length - n),
      drop_of_length_le (by omega : xs.length ≤ xs.length - (n - ys.length)),
      show xs.length + ys.length - n - xs.length = ys.length - n by omega]
  · rw [show xs.length + ys.length - n = xs.length - (n - ys.length) by omega,
      show xs.length - (n - ys.length) - xs.length = ys.length - n by omega]

theorem rtake_rtake (l : List α) (m n : ℕ) : (l.rtake n).rtake m = l.rtake (min m n) := by
  simp only [rtake, drop_drop, length_drop]
  congr 1
  omega

/-- Keeping the last `n` after each batch of arrivals is keeping them at the end. -/
theorem rtake_rtake_append (xs ys : List α) (n : ℕ) :
    (xs.rtake n ++ ys).rtake n = (xs ++ ys).rtake n := by
  rw [rtake_append, rtake_append xs ys, rtake_rtake, Nat.min_eq_left (Nat.sub_le _ _)]

/-- The last elements and the ones before them. -/
theorem take_append_rtake (l : List α) (n : ℕ) : l.take (l.length - n) ++ l.rtake n = l :=
  take_append_drop _ l

theorem map_rtake {β : Type*} (f : α → β) (l : List α) (n : ℕ) :
    (l.map f).rtake n = (l.rtake n).map f := by
  rw [rtake, rtake, length_map, map_drop]

end Circular
