import Mathlib.Algebra.Order.BigOperators.Group.List
import Mathlib.Algebra.Order.Ring.Nat
import Mathlib.Data.List.Infix

/-!
# Replacing patterns in lists

`replace σ s` goes through `s` once, from left to right. Where a pattern of `σ` stands it
writes the pattern's replacement and goes on behind it, and of several patterns that stand at
one place the first in `σ` counts. What was written is not looked at again.

Patterns that begin with a mark, and have it nowhere else, do not overlap (`Marked`). Replacing
them one after the other is replacing them at once (`replace_replace`) if no replacement
contains a later pattern or joins with what is next to it to make one (`Inert`).
-/

set_option linter.unusedSectionVars false

open List

namespace Replacer

variable {α : Type*} [DecidableEq α]

/-- The first entry of `σ` whose pattern stands at the beginning of `s`. -/
def matchAt (σ : List (List α × List α)) (s : List α) : Option (List α × List α) :=
  σ.find? fun e => e.1.isPrefixOf s

/-- Replacement in a list whose first `n` elements belong to a pattern already replaced. -/
def replaceFrom (σ : List (List α × List α)) : ℕ → List α → List α
  | _, [] => []
  | n + 1, _ :: s => replaceFrom σ n s
  | 0, c :: s =>
    match matchAt σ (c :: s) with
    | some e => e.2 ++ replaceFrom σ (e.1.length - 1) s
    | none => c :: replaceFrom σ 0 s

def replace (σ : List (List α × List α)) (s : List α) : List α :=
  replaceFrom σ 0 s

/-- Does one of the elements occur? -/
def containsAny (s elems : List α) : Bool :=
  s.any (· ∈ elems)

variable {σ : List (List α × List α)}

@[simp] theorem replace_nil : replace σ [] = [] := rfl

theorem replaceFrom_eq_drop : ∀ (n : ℕ) (s : List α), replaceFrom σ n s = replace σ (s.drop n)
  | 0, _ => by rw [List.drop_zero, replace]
  | _ + 1, [] => rfl
  | n + 1, _ :: s => by
    rw [replaceFrom, drop_succ_cons]
    exact replaceFrom_eq_drop n s

variable {s : List α} {e : List α × List α}

theorem matchAt_eq_some (h : matchAt σ s = some e) : e ∈ σ ∧ e.1 <+: s := by
  have hmatch : e.1.isPrefixOf s = true := by simpa using find?_some h
  exact ⟨mem_of_find?_eq_some h, isPrefixOf_iff_prefix.1 hmatch⟩

theorem matchAt_eq_none : matchAt σ s = none ↔ ∀ e ∈ σ, ¬e.1 <+: s := by
  simp [matchAt, find?_eq_none, isPrefixOf_iff_prefix]

theorem matchAt_cons_singleton (a b : α) (v : List α) :
    matchAt (([a], v) :: σ) [b] = if a = b then some ([a], v) else matchAt σ [b] := by
  by_cases hab : a = b
  · simp [matchAt, hab]
  · simp [matchAt, hab]

variable {c : α}

/-- Where no pattern stands an element stays. -/
theorem replace_cons (h : ∀ e ∈ σ, ¬e.1 <+: c :: s) : replace σ (c :: s) = c :: replace σ s := by
  rw [replace, replaceFrom, matchAt_eq_none.2 h]
  rfl

/-- Where a pattern stands its replacement is written. -/
theorem replace_of_matchAt {p v s : List α} (h : matchAt σ (p ++ s) = some (p, v))
    (hne : p ≠ []) : replace σ (p ++ s) = v ++ replace σ s := by
  obtain ⟨c, p, rfl⟩ := exists_cons_of_ne_nil hne
  rw [cons_append] at h ⊢
  rw [replace, replaceFrom, h]
  simp [replaceFrom_eq_drop]

theorem replace_ne_nil (h : ∀ e ∈ σ, e.2 ≠ []) (hne : s ≠ []) : replace σ s ≠ [] := by
  obtain ⟨c, s, rfl⟩ := exists_cons_of_ne_nil hne
  rw [replace, replaceFrom]
  cases hm : matchAt σ (c :: s) with
  | none => exact cons_ne_nil _ _
  | some e => exact append_ne_nil_of_left_ne_nil (h e (matchAt_eq_some hm).1) _

variable {s t : List α}

/-- A list in which no pattern begins stays. -/
theorem replace_append (h : ∀ y, y ≠ [] → y <:+ s → ∀ e ∈ σ, ¬e.1 <+: y ++ t) :
    replace σ (s ++ t) = s ++ replace σ t := by
  induction s with
  | nil => rfl
  | cons c s ih =>
    have hc : ∀ e ∈ σ, ¬e.1 <+: c :: (s ++ t) := h (c :: s) (cons_ne_nil c s) suffix_rfl
    rw [cons_append, replace_cons hc,
      ih fun y hy hsuff => h y hy (hsuff.trans (suffix_cons c s)), cons_append]

theorem matchAt_congr (h : ∀ e ∈ σ, e.1.isPrefixOf s = e.1.isPrefixOf t) :
    matchAt σ s = matchAt σ t := by
  induction σ with
  | nil => rfl
  | cons e σ ih =>
    have hrest := ih fun e he => h e (mem_cons_of_mem _ he)
    rw [matchAt, matchAt, find?_cons, find?_cons, h e mem_cons_self]
    simp only [matchAt] at hrest
    rw [hrest]

/-- Patterns of one element are replaced element by element. -/
theorem replace_eq_flatMap_of_length_eq_one (h : ∀ e ∈ σ, e.1.length = 1) (s : List α) :
    replace σ s = s.flatMap fun c => ((matchAt σ [c]).map Prod.snd).getD [c] := by
  have hmatch : ∀ (c : α) (s : List α), matchAt σ (c :: s) = matchAt σ [c] := by
    intro c s
    refine matchAt_congr fun e he => ?_
    obtain ⟨a, ha⟩ := length_eq_one_iff.1 (h e he)
    simp [ha, isPrefixOf]
  induction s with
  | nil => rfl
  | cons c s ih =>
    rw [flatMap_cons, ← hmatch c s]
    cases hm : matchAt σ (c :: s) with
    | none => rw [replace_cons (matchAt_eq_none.1 hm), ih]; rfl
    | some e =>
      obtain ⟨he, t, ht⟩ := matchAt_eq_some hm
      obtain ⟨a, ha⟩ := length_eq_one_iff.1 (h e he)
      obtain ⟨rfl, rfl⟩ : a = c ∧ t = s := by simpa [ha] using ht
      rw [← ht] at hm ⊢
      rw [replace_of_matchAt hm (by simp [ha]), ih]
      rfl

/-! ## Patterns that begin with a mark -/

/-- The mark stands at the beginning of every pattern and nowhere else in it. -/
def Marked (o : α) (σ : List (List α × List α)) : Prop :=
  ∀ e ∈ σ, ∃ p, e.1 = o :: p ∧ o ∉ p

variable {o : α}

theorem Marked.ne_nil (h : Marked o σ) (he : e ∈ σ) : e.1 ≠ [] := by
  obtain ⟨p, hp, -⟩ := h e he
  simp [hp]

theorem Marked.not_startsWith (h : Marked o σ) (hc : c ≠ o) : ∀ e ∈ σ, ¬e.1 <+: c :: s := by
  intro e he hpre
  obtain ⟨p, hp, -⟩ := h e he
  rw [hp, cons_prefix_cons] at hpre
  exact hc hpre.1.symm

/-- A list without the mark stays. -/
theorem Marked.replace_append (h : Marked o σ) (hs : o ∉ s) (t : List α) :
    replace σ (s ++ t) = s ++ replace σ t := by
  refine Replacer.replace_append fun y hy hsuff => ?_
  obtain ⟨c, y, rfl⟩ := exists_cons_of_ne_nil hy
  refine h.not_startsWith fun hc => hs ?_
  exact hsuff.subset (hc ▸ mem_cons_self)

/-- What a replaced list begins with, the original begins with, if no replacement can. -/
theorem prefix_of_prefix_replace {w : List α} (hw : ∀ e ∈ σ, ∃ x v, e.2 = x :: v ∧ x ∉ w) :
    ∀ {s : List α}, (∀ e ∈ σ, e.1 ≠ []) → w <+: replace σ s → w <+: s := by
  induction w with
  | nil => exact fun _ _ => nil_prefix
  | cons b w ih =>
    intro s hne hpre
    cases s with
    | nil => simp at hpre
    | cons c s =>
      cases hm : matchAt σ (c :: s) with
      | some e =>
        obtain ⟨he, t, ht⟩ := matchAt_eq_some hm
        obtain ⟨x, v, hv, hx⟩ := hw e he
        rw [← ht] at hm hpre
        rw [replace_of_matchAt hm (hne _ he), hv, cons_append, cons_prefix_cons] at hpre
        exact absurd (hpre.1 ▸ mem_cons_self) hx
      | none =>
        rw [replace_cons (matchAt_eq_none.1 hm), cons_prefix_cons] at hpre
        rw [cons_prefix_cons]
        refine ⟨hpre.1, ih (fun e he => ?_) hne hpre.2⟩
        obtain ⟨x, v, hv, hx⟩ := hw e he
        exact ⟨x, v, hv, fun hmem => hx (mem_cons_of_mem b hmem)⟩

/-- A replacement in which the pattern `p` does not occur, and that makes none with what stands
before or behind it. -/
structure Inert (p v : List α) : Prop where
  notContained : ¬p <:+: v
  head : ∃ x w, v = x :: w ∧ x ∉ p
  last : ∃ x w, v = w ++ [x] ∧ x ∉ p.dropLast

variable {p v : List α}

/-- A pattern does not begin inside an inert text. -/
theorem Inert.not_startsWith (h : Inert p v) {y : List α} (hy : y ≠ [])
    (hsuff : y <:+ v) (t : List α) : ¬p <+: y ++ t := by
  intro hpre
  rcases Nat.lt_or_ge y.length p.length with hlt | hge
  · -- the pattern reaches over the end, so the last element is inside it
    obtain ⟨x, w, hv, hx⟩ := h.last
    have hyp : y <+: p.dropLast := by
      have hy' : y <+: p := prefix_of_prefix_length_le (prefix_append y t) hpre hlt.le
      exact prefix_of_prefix_length_le hy' ( dropLast_prefix p) (by rw [length_dropLast]; omega)
    obtain ⟨z, hz⟩ := hsuff
    obtain ⟨y, _, rfl⟩ := (eq_nil_or_concat y).resolve_left hy
    rw [hv, concat_eq_append, ← append_assoc] at hz
    obtain ⟨-, rfl⟩ := append_singleton_inj.1 hz
    exact hx (hyp.subset (by simp))
  · have hpy : p <+: y := prefix_of_prefix_length_le hpre (prefix_append y t) hge
    exact h.notContained (hpy.isInfix.trans hsuff.isInfix)

/-- Replacing one more pattern afterwards is replacing it with the others. -/
theorem replace_replace (hσ : Marked o σ) (hp : Marked o [(p, v)]) (hinert : ∀ e ∈ σ, Inert p e.2)
    (s : List α) : replace [(p, v)] (replace σ s) = replace (σ ++ [(p, v)]) s := by
  have hall : Marked o (σ ++ [(p, v)]) := forall_mem_append.2 ⟨hσ, hp⟩
  obtain ⟨b, rfl, hb⟩ := hp (p, v) (mem_singleton_self _)
  induction hn : s.length using Nat.strong_induction_on generalizing s with
  | h n ih =>
    subst hn
    cases s with
    | nil => rfl
    | cons c s =>
      cases hm : matchAt σ (c :: s) with
      | some e =>
        -- an earlier pattern : its replacement is not touched
        obtain ⟨he, t, ht⟩ := matchAt_eq_some hm
        have hmem : e ∈ σ ++ [(o :: b, v)] := mem_append_left _ he
        have hm' : matchAt (σ ++ [(o :: b, v)]) (e.1 ++ t) = some e := by
          rw [matchAt, find?_append, ht, ← matchAt, hm, Option.some_or]
        rw [← ht] at hm ⊢
        rw [replace_of_matchAt hm (hσ.ne_nil he), replace_of_matchAt hm' (hall.ne_nil hmem),
          replace_append]
        · congr 1
          refine ih t.length ?_ t rfl
          have := length_pos_iff.2 (hσ.ne_nil he)
          rw [← ht, length_append]
          omega
        · intro y hy hsuff _ he'
          obtain rfl := mem_singleton.1 he'
          exact (hinert e he).not_startsWith hy hsuff _
      | none =>
        have hnone := matchAt_eq_none.1 hm
        by_cases hpat : o :: b <+: c :: s
        · -- the new pattern : no earlier one begins inside it
          obtain ⟨t, ht⟩ := hpat
          have hm' : matchAt (σ ++ [(o :: b, v)]) (o :: b ++ t) = some (o :: b, v) := by
            rw [matchAt, find?_append, ht, ← matchAt, hm, ← ht]
            simp
          have hlast : matchAt [(o :: b, v)] (o :: b ++ replace σ t) = some (o :: b, v) := by
            simp [matchAt]
          have hσt : replace σ (o :: b ++ t) = o :: b ++ replace σ t := by
            rw [← ht, cons_append] at hnone
            rw [cons_append, replace_cons hnone, hσ.replace_append hb, cons_append]
          rw [← ht, hσt, replace_of_matchAt hlast (cons_ne_nil o b),
            replace_of_matchAt hm' (cons_ne_nil o b)]
          congr 1
          refine ih t.length ?_ t rfl
          rw [← ht, length_append, length_cons]
          omega
        · -- no pattern, and replacing behind the element makes none
          have hpat' : ¬o :: b <+: c :: replace σ s := by
            intro hpre
            rw [cons_prefix_cons] at hpre
            refine hpat (cons_prefix_cons.2 ⟨hpre.1, ?_⟩)
            refine prefix_of_prefix_replace (fun e he => ?_) (fun e he => hσ.ne_nil he) hpre.2
            obtain ⟨x, w, hv, hx⟩ := (hinert e he).head
            exact ⟨x, w, hv, fun hmem => hx (mem_cons_of_mem o hmem)⟩
          rw [replace_cons hnone, replace_cons (by simpa using hpat'), replace_cons]
          · exact congrArg _ (ih s.length (by simp) s rfl)
          · exact forall_mem_append.2 ⟨hnone, by simpa using hpat⟩

/-! ## Texts with holes -/

/-- A piece of a text : an element of it, or the place of the pattern with a number. -/
inductive Piece (α : Type*) where
  | text (c : α)
  | hole (i : ℕ)
deriving Repr, DecidableEq

/-- The pieces of a list whose first `n` elements belong to a pattern already found. -/
def piecesFrom (ps : List (List α)) : ℕ → List α → List (Piece α)
  | _, [] => []
  | n + 1, _ :: s => piecesFrom ps n s
  | 0, c :: s =>
    match ps.findIdx? fun p => p.isPrefixOf (c :: s) with
    | some i => .hole i :: piecesFrom ps ((ps.getD i []).length - 1) s
    | none => .text c :: piecesFrom ps 0 s

/-- The pieces of a text, with holes where the patterns `ps` stand. -/
def pieces (ps : List (List α)) (s : List α) : List (Piece α) :=
  piecesFrom ps 0 s

/-- What is written for a piece, if `vs` are the replacements. -/
def Piece.fill (vs : List (List α)) : Piece α → List α
  | .text c => [c]
  | .hole i => vs.getD i []

theorem matchAt_eq_findIdx? (σ : List (List α × List α)) (s : List α) :
    matchAt σ s = ((σ.map Prod.fst).findIdx? fun p => p.isPrefixOf s).bind fun i => σ[i]? := by
  induction σ with
  | nil => rfl
  | cons e σ ih =>
    rw [matchAt, find?_cons, map_cons, findIdx?_cons]
    cases he : e.1.isPrefixOf s with
    | true => simp
    | false => simpa [matchAt, Option.bind_map, Function.comp_def] using ih

theorem replaceFrom_eq_flatMap (σ : List (List α × List α)) : ∀ (n : ℕ) (s : List α),
    replaceFrom σ n s =
      (piecesFrom (σ.map Prod.fst) n s).flatMap (Piece.fill (σ.map Prod.snd))
  | _, [] => by simp [replaceFrom, piecesFrom]
  | n + 1, _ :: s => replaceFrom_eq_flatMap σ n s
  | 0, c :: s => by
    rw [replaceFrom, piecesFrom, matchAt_eq_findIdx?]
    cases hi : (σ.map Prod.fst).findIdx? fun p => p.isPrefixOf (c :: s) with
    | none => simp [replaceFrom_eq_flatMap σ 0 s, Piece.fill]
    | some =>
      obtain ⟨hlt, -⟩ := findIdx?_eq_some_iff_getElem.1 hi
      rw [length_map] at hlt
      simp [getElem?_eq_getElem hlt, replaceFrom_eq_flatMap σ _ s, Piece.fill]

/-- A replacement fills the holes and leaves the rest. -/
theorem replace_eq_flatMap (σ : List (List α × List α)) (s : List α) :
    replace σ s = (pieces (σ.map Prod.fst) s).flatMap (Piece.fill (σ.map Prod.snd)) :=
  replaceFrom_eq_flatMap σ 0 s

section Fill

variable {vs ws : List (List α)} {ps : List (Piece α)}

/-- Only the replacements whose holes occur matter. -/
theorem fill_congr (h : ∀ i, .hole i ∈ ps → vs.getD i [] = ws.getD i []) :
    ps.flatMap (Piece.fill vs) = ps.flatMap (Piece.fill ws) := by
  refine flatMap_congr fun p hp => ?_
  cases p with
  | text => rfl
  | hole i => exact h i hp

section

variable (h : ∀ i, (vs.getD i []).length ≤ (ws.getD i []).length)

include h

theorem length_fill_le (p : Piece α) : (p.fill vs).length ≤ (p.fill ws).length := by
  cases p with
  | text => exact Nat.le_refl _
  | hole i => exact h i

/-- Longer replacements make a longer text, if the hole of one occurs. -/
theorem length_fill_lt {i : ℕ}
    (hi : .hole i ∈ ps) (hlt : (vs.getD i []).length < (ws.getD i []).length) :
    (ps.flatMap (Piece.fill vs)).length < (ps.flatMap (Piece.fill ws)).length := by
  rw [length_flatMap, length_flatMap]
  exact sum_lt_sum _ _ (fun p _ => length_fill_le h p) ⟨_, hi, hlt⟩

end

end Fill

end Replacer
