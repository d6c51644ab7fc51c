import Mathlib.Data.List.Infix

/-!
# Scanners

A scanner reads a list element by element. At an element it goes on (`Reaction.go`) or stops with
a result, before the element or after it. A scan that was not stopped can be continued with more
elements as if they had been there from the beginning (`scan_append`).

`Gives` is what a caller gets that calls again and again until a result is the last one.
-/

namespace Scanner

variable {σ τ α ρ : Type*}

/-! ## One scan -/

/-- What a scanner does at an element. -/
inductive Reaction (σ ρ : Type*) where
  | go (s : σ)
  | before (s : σ) (r : ρ)
  | after (s : σ) (r : ρ)
deriving Repr, DecidableEq

namespace Reaction

/-- The state after the reaction. -/
def state : Reaction σ ρ → σ
  | .go s | .before s _ | .after s _ => s

def map (f : σ → τ) : Reaction σ ρ → Reaction τ ρ
  | .go s => .go (f s)
  | .before s r => .before (f s) r
  | .after s r => .after (f s) r

@[simp] theorem map_go (f : σ → τ) (s : σ) : (go s : Reaction σ ρ).map f = .go (f s) := rfl

end Reaction

/-- How a scan ends : the list is used up, or there is a result and a rest. -/
inductive Scan (σ α ρ : Type*) where
  | out (s : σ)
  | stop (s : σ) (r : ρ) (rest : List α)
deriving Repr, DecidableEq

def scan (react : σ → α → Reaction σ ρ) : σ → List α → Scan σ α ρ
  | s, [] => .out s
  | s, a :: l =>
    match react s a with
    | .go s' => scan react s' l
    | .before s' r => .stop s' r (a :: l)
    | .after s' r => .stop s' r l

section

variable {react : σ → α → Reaction σ ρ} {s s' : σ} {a : α} {l t rest : List α} {r : ρ}

@[simp] theorem scan_nil : scan react s [] = .out s := rfl

theorem scan_cons_of_go (h : react s a = .go s') : scan react s (a :: l) = scan react s' l := by
  rw [scan, h]

theorem scan_cons_of_before (h : react s a = .before s' r) :
    scan react s (a :: l) = .stop s' r (a :: l) := by
  rw [scan, h]

theorem scan_cons_of_after (h : react s a = .after s' r) :
    scan react s (a :: l) = .stop s' r l := by
  rw [scan, h]

/-- A scan that was not stopped is continued. -/
theorem scan_append (h : scan react s l = .out s') : scan react s (l ++ t) = scan react s' t := by
  induction l generalizing s with
  | nil =>
    obtain rfl : s = s' := by simpa using h
    rfl
  | cons a l ih =>
    cases ha : react s a with
    | go =>
      rw [scan_cons_of_go ha] at h
      rw [List.cons_append, scan_cons_of_go ha, ih h]
    | before => simp [scan_cons_of_before ha] at h
    | after => simp [scan_cons_of_after ha] at h

/-- The element at which a scan is stopped. -/
theorem exists_of_scan_stop (h : scan react s l = .stop s' r rest) :
    ∃ pre a post s₁, l = pre ++ a :: post ∧ scan react s pre = .out s₁ ∧
      (react s₁ a = .before s' r ∧ rest = a :: post ∨ react s₁ a = .after s' r ∧ rest = post) := by
  induction l generalizing s with
  | nil => simp at h
  | cons a l ih =>
    cases ha : react s a with
    | go =>
      rw [scan_cons_of_go ha] at h
      obtain ⟨pre, b, post, s₁, rfl, hpre, hb⟩ := ih h
      exact ⟨a :: pre, b, post, s₁, rfl, (scan_cons_of_go ha).trans hpre, hb⟩
    | before =>
      rw [scan_cons_of_before ha, Scan.stop.injEq] at h
      obtain ⟨rfl, rfl, rfl⟩ := h
      exact ⟨[], a, l, s, rfl, rfl, .inl ⟨ha, rfl⟩⟩
    | after =>
      rw [scan_cons_of_after ha, Scan.stop.injEq] at h
      obtain ⟨rfl, rfl, rfl⟩ := h
      exact ⟨[], a, l, s, rfl, rfl, .inr ⟨ha, rfl⟩⟩

/-- What is behind the place where a scan is stopped does not matter. -/
theorem scan_append_of_stop (h : scan react s l = .stop s' r rest) :
    scan react s (l ++ t) = .stop s' r (rest ++ t) := by
  obtain ⟨pre, a, post, s₁, rfl, hpre, ⟨ha, rfl⟩ | ⟨ha, rfl⟩⟩ := exists_of_scan_stop h
  · rw [List.append_assoc, scan_append hpre]
    exact scan_cons_of_before ha
  · rw [List.append_assoc, scan_append hpre, List.cons_append, scan_cons_of_after ha]

end

/-! ## Calls -/

/-- What calls of `next` give, one after the other, up to a last result. -/
inductive Gives (next : σ → ρ → σ → Prop) (last : ρ → Prop) : σ → List ρ → Prop
  | last {s s' : σ} {r : ρ} (h : next s r s') (hr : last r) : Gives next last s [r]
  | cons {s s' : σ} {r : ρ} {rs : List ρ} (h : next s r s') (hr : ¬last r)
      (hrs : Gives next last s' rs) : Gives next last s (r :: rs)

end Scanner
