import Telegraf.Circular

/-!
# A bounded store served newest first

A store of at most `cap` elements : arrivals go to its end and push the oldest out when it
is full, and a service takes the `n` newest. What is left of the elements that were there
at the start depends on the numbers of arrivals and services only. `Gauge` keeps the level
the store would have without a bound below or above, the lowest level so far, and the
excess over `cap` of the highest one. Services have taken the old elements above `low`, and
arrivals have pushed out the oldest `high`, so that old elements are left exactly as long
as `high < low` (`remains_run`).
-/

open List

namespace NewestFirst

variable {α : Type*}

/-- An arrival, or a service of a number of elements. -/
inductive Op (α : Type*) where
  | arrive (x : α)
  | serve (n : ℕ)

/-- What the store holds, oldest first. -/
def step (cap : ℕ) (live : List α) : Op α → List α
  | .arrive x => (live ++ [x]).rtake cap
  | .serve n => live.take (live.length - n)

def run (cap : ℕ) (old : List α) (ops : List (Op α)) : List α :=
  ops.foldl (step cap) old

/-- The elements that arrived. -/
def arrived (ops : List (Op α)) : List α :=
  ops.filterMap fun
    | .arrive x => some x
    | .serve _ => none

/-- The level of the store, its lowest value, and the excess of its highest value. -/
structure Gauge where
  level : ℤ
  low : ℤ
  high : ℤ
deriving Repr, DecidableEq

namespace Gauge

/-- The gauge of a store with `n` elements. -/
def start (n : ℕ) : Gauge :=
  ⟨n, n, 0⟩

def step (cap : ℕ) (g : Gauge) : Op α → Gauge
  | .arrive _ => ⟨g.level + 1, g.low, max g.high (g.level + 1 - cap)⟩
  | .serve n => ⟨g.level - n, min g.low (g.level - n), g.high⟩

def run (cap n : ℕ) (ops : List (Op α)) : Gauge :=
  ops.foldl (step cap) (start n)

end Gauge

/-- What a gauge says about a store that started with `old` and then got `new` : either all
of `old` is gone, or the elements from `high` to `low` are left, under newer ones. -/
inductive Remains (old : List α) (g : Gauge) (new live : List α) : Prop
  | gone (h : g.low ≤ g.high) (hlive : live.Sublist new)
  | left (L D : ℕ) (N : List α) (hlow : g.low = L) (hhigh : g.high = D) (hlt : D < L)
      (hle : L ≤ old.length) (hlevel : g.level = N.length + L) (hN : N.Sublist new)
      (hlive : live = (old.take L).drop D ++ N)

section Steps

variable {old new live : List α} {g : Gauge} {cap : ℕ}

theorem length_step_le (hlen : live.length ≤ cap) (op : Op α) :
    (step cap live op).length ≤ cap := by
  cases op with
  | arrive =>
    rw [step, Circular.length_rtake]
    exact Nat.min_le_right _ _
  | serve =>
    rw [step, length_take]
    omega

/-- An arrival drops the oldest element if the store is full. -/
theorem Remains.arrive (h : Remains old g new live) (hlen : live.length ≤ cap) (x : α) :
    Remains old (g.step cap (.arrive x)) (new ++ [x]) (step cap live (.arrive x)) := by
  cases h with
  | gone h hlive =>
    refine .gone (Int.le_trans h (Int.le_max_left _ _)) ?_
    exact (drop_sublist _ _).trans (hlive.append_right [x])
  | left L D N hlow hhigh hlt hle hlevel hN hlive =>
    have hleft : ((old.take L).drop D).length = L - D := by
      rw [length_drop, length_take, Nat.min_eq_left hle]
    have hsize : live.length = L - D + N.length := by rw [hlive, length_append, hleft]
    have hN' : (N ++ [x]).Sublist (new ++ [x]) := hN.append_right [x]
    rcases Nat.lt_or_ge live.length cap with hroom | _
    · have hhigh' : max g.high (g.level + 1 - cap) = D := by omega
      refine .left L D (N ++ [x]) hlow hhigh' hlt hle ?_ hN' ?_
      · simp only [Gauge.step, length_append, length_singleton]
        omega
      · rw [step, Circular.rtake_of_length_le (by rw [length_append]; exact hroom), hlive,
          append_assoc]
    · have hhigh' : max g.high (g.level + 1 - cap) = (D + 1 : ℕ) := by omega
      have hlive' : step cap live (.arrive x) = (old.take L).drop (D + 1) ++ (N ++ [x]) := by
        have hone : (live ++ [x]).length - cap = 1 := by
          rw [length_append, length_singleton]
          omega
        rw [step, rtake, hone, hlive, append_assoc, drop_append_of_le_length (by omega), drop_drop]
      rcases Nat.lt_or_ge (D + 1) L with hlt' | _
      · refine .left L (D + 1) (N ++ [x]) hlow hhigh' hlt' hle ?_ hN' hlive'
        simp only [Gauge.step, length_append, length_singleton]
        omega
      · refine .gone (by simp only [Gauge.step]; omega) ?_
        rw [hlive', drop_of_length_le (by rw [length_take]; omega), nil_append]
        exact hN'

/-- A service takes the newer elements first. -/
theorem Remains.serve (h : Remains old g new live) (n : ℕ) :
    Remains old (g.step cap (.serve n : Op α)) new (step cap live (.serve n)) := by
  cases h with
  | gone h hlive =>
    exact .gone (Int.le_trans (Int.min_le_left _ _) h) ((take_sublist _ _).trans hlive)
  | left L D N hlow hhigh hlt hle hlevel hN hlive =>
    have hleft : ((old.take L).drop D).length = L - D := by
      rw [length_drop, length_take, Nat.min_eq_left hle]
    have hlive' : step cap live (.serve n) =
        ((old.take L).drop D ++ N).take (L - D + N.length - n) := by
      rw [step, hlive, length_append, hleft]
    rcases Nat.lt_or_ge N.length n with _ | _
    · rcases Nat.lt_or_ge (D + n) (N.length + L) with _ | _
      · -- some old elements are taken, and the newer ones are gone
        refine .left (N.length + L - n) D [] ?_ hhigh (by omega) (by omega) ?_ (by simp) ?_
        · simp only [Gauge.step]
          omega
        · simp only [Gauge.step, length_nil]
          omega
        · rw [hlive', take_append_of_le_length (by omega), append_nil, take_drop,
            take_take, Nat.min_eq_left (by omega)]
          congr 2
          omega
      · refine .gone (by simp only [Gauge.step]; omega) ?_
        rw [hlive', show L - D + N.length - n = 0 by omega, take_zero]
        exact nil_sublist _
    · refine .left L D (N.take (N.length - n)) ?_ hhigh hlt hle ?_ ((take_sublist _ _).trans hN) ?_
      · simp only [Gauge.step]
        omega
      · simp only [Gauge.step, length_take]
        omega
      · rw [hlive', show L - D + N.length - n = ((old.take L).drop D).length + (N.length - n) by
          omega, take_length_add_append]

end Steps

/-! ## Runs -/

theorem run_snoc (cap : ℕ) (old : List α) (ops : List (Op α)) (op : Op α) :
    run cap old (ops ++ [op]) = step cap (run cap old ops) op := by
  rw [run, foldl_append]
  rfl

theorem Gauge.run_snoc (cap n : ℕ) (ops : List (Op α)) (op : Op α) :
    Gauge.run cap n (ops ++ [op]) = (Gauge.run cap n ops).step cap op := by
  rw [Gauge.run, foldl_append]
  rfl

theorem arrived_snoc (ops : List (Op α)) (op : Op α) :
    arrived (ops ++ [op]) = arrived ops ++ arrived [op] := by
  rw [arrived, filterMap_append]
  rfl

/-- The gauge tells what is left of the elements that were there at the start. -/
theorem remains_run {cap : ℕ} {old : List α} (hlen : old.length ≤ cap) (ops : List (Op α)) :
    Remains old (Gauge.run cap old.length ops) (arrived ops) (run cap old ops) ∧
      (run cap old ops).length ≤ cap := by
  induction ops using reverseRecOn with
  | nil =>
    refine ⟨?_, hlen⟩
    cases old with
    | nil => exact .gone (Int.le_refl 0) (List.Sublist.refl [])
    | cons x old =>
      exact .left (old.length + 1) 0 [] rfl rfl (Nat.succ_pos _) (Nat.le_refl _)
        (Int.zero_add _).symm (List.Sublist.refl []) (by simp [run])
  | append_singleton ops op ih =>
    obtain ⟨hrem, hle⟩ := ih
    rw [run_snoc, Gauge.run_snoc, arrived_snoc]
    refine ⟨?_, length_step_le hle op⟩
    cases op with
    | arrive x => exact hrem.arrive hle x
    | serve n => simpa [arrived] using hrem.serve n

end NewestFirst
