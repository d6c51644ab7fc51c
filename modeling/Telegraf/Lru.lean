import Mathlib.Data.Int.Notation
import Mathlib.Data.List.Basic

/-!
# Caches that may forget

A cache is known by what is in it : nothing at first, what was in it before a lookup, and what was
in it before a value was added or the new entry. A lookup finds only what is in it. What the cache
forgets, and when, is left open.

`Lru.entries` is a cache that forgets what was used least recently.
-/

open List

/-- A kind of caches, for a number of entries. -/
structure Cache (κ ν : Type) where
  Store : Type
  new : ℤ → Store
  get : Store → κ → Store × Option ν
  add : Store → κ → ν → Store
  Mem : Store → κ × ν → Prop
  not_mem_new : ∀ maxEntries e, ¬Mem (new maxEntries) e
  mem_of_get : ∀ c key value, (get c key).2 = some value → Mem c (key, value)
  mem_get : ∀ c key e, Mem (get c key).1 e → Mem c e
  mem_add : ∀ c key value e, Mem (add c key value) e → e = (key, value) ∨ Mem c e

namespace Lru

variable {κ ν : Type}

/-- Entries, the most recent one first, and how many there may be, or 0 if there is no bound. -/
structure Entries (κ ν : Type) where
  maxEntries : ℤ
  entries : List (κ × ν)

variable [DecidableEq κ]

/-- The entry becomes the first one. -/
def Entries.front (c : Entries κ ν) (e : κ × ν) : Entries κ ν :=
  { c with entries := e :: c.entries.filter fun e' => e'.1 ≠ e.1 }

/-- Without the last entry, if there are too many. -/
def Entries.trim (c : Entries κ ν) : Entries κ ν :=
  if c.maxEntries ≠ 0 ∧ c.maxEntries < c.entries.length then
    { c with entries := c.entries.dropLast }
  else c

theorem mem_front {c : Entries κ ν} {e e' : κ × ν} (h : e' ∈ (c.front e).entries) :
    e' = e ∨ e' ∈ c.entries :=
  (mem_cons.1 h).imp_right mem_of_mem_filter

/-- The cache that drops the last entry. -/
def entries (κ ν : Type) [DecidableEq κ] : Cache κ ν where
  Store := Entries κ ν
  new maxEntries := ⟨maxEntries, []⟩
  get c key :=
    match c.entries.find? fun e => e.1 = key with
    | none => (c, none)
    | some e => (c.front e, some e.2)
  add c key value := (c.front (key, value)).trim
  Mem c e := e ∈ c.entries
  not_mem_new _ _ := not_mem_nil
  mem_of_get c key value h := by
    cases hfind : c.entries.find? fun e => e.1 = key with
    | none => simp [hfind] at h
    | some e =>
      have hkey : e.1 = key := by simpa using find?_some hfind
      have hvalue : e.2 = value := by simpa [hfind] using h
      rw [← hkey, ← hvalue]
      exact mem_of_find?_eq_some hfind
  mem_get c key e h := by
    cases hfind : c.entries.find? fun e => e.1 = key with
    | none => simpa [hfind] using h
    | some =>
      rw [hfind] at h
      rcases mem_front h with rfl | h
      · exact mem_of_find?_eq_some hfind
      · exact h
  mem_add c key value e h := by
    refine mem_front ?_
    unfold Entries.trim at h
    split_ifs at h
    · exact (dropLast_sublist _).subset h
    · exact h

end Lru
