import Mathlib

/-!
# Times

`time.Time` with its monotonic clock reading, and the alignment to an interval of
`internal/internal.go`. `Truncate` and `Add` are exact.
-/

namespace Telegraf

/-- A `time.Time` : nanoseconds since the zero time, and whether there is a monotonic clock
reading with them. -/
structure GoTime where
  wall : ℤ
  monotonic : Bool
deriving Repr, DecidableEq

namespace GoTime

/-- `Truncate`, which drops the monotonic clock reading. -/
def truncate (t : GoTime) (d : ℤ) : GoTime :=
  ⟨if d ≤ 0 then t.wall else t.wall - t.wall % d, false⟩

/-- `Add`, which moves both clock readings. -/
def add (t : GoTime) (d : ℤ) : GoTime :=
  ⟨t.wall + d, t.monotonic⟩

@[simp] theorem wall_add (t : GoTime) (d : ℤ) : (t.add d).wall = t.wall + d :=
  rfl

/-- `internal.AlignTime`. The comparison includes the monotonic clock reading. -/
def alignTime (tm : GoTime) (interval : ℤ) : GoTime :=
  if tm.truncate interval = tm then tm else ⟨(tm.truncate interval).wall + interval, false⟩

/-- `internal.AlignDuration`. -/
def alignDuration (tm : GoTime) (interval : ℤ) : ℤ :=
  (tm.alignTime interval).wall - tm.wall

/-- A time is aligned already, or the next aligned one is at most an interval away. -/
theorem alignTime_cases (tm : GoTime) {interval : ℤ} (hinterval : 0 < interval) :
    (tm.monotonic = false ∧ interval ∣ tm.wall) ∧ tm.alignTime interval = tm ∨
      ¬(tm.monotonic = false ∧ interval ∣ tm.wall) ∧
        tm.alignTime interval = ⟨tm.wall - tm.wall % interval + interval, false⟩ := by
  have htrunc : tm.truncate interval = ⟨tm.wall - tm.wall % interval, false⟩ := by
    rw [truncate, if_neg (by omega)]
  rw [alignTime, htrunc]
  split_ifs with heq
  · refine .inl ⟨⟨by rw [← heq], ?_⟩, rfl⟩
    have hwall : tm.wall - tm.wall % interval = tm.wall := congrArg wall heq
    exact Int.dvd_of_emod_eq_zero (by omega)
  · refine .inr ⟨fun ⟨hmono, hdvd⟩ => heq ?_, rfl⟩
    rw [Int.emod_eq_zero_of_dvd hdvd, Int.sub_zero, ← hmono]

end GoTime

end Telegraf
