import Mathlib.Data.List.Nodup
import Mathlib.Data.List.Pairwise
import Mathlib.Data.List.Perm.Basic

/-!
# Draining queues in rounds

A list of queues is drained in rounds : a round takes the first element of each of the first `n`
queues, and a queue that is empty after it leaves the list. `Rounds n qs rs` says that `rs` are
the rounds that drain `qs`.

Every element is taken once (`Rounds.flatten_perm`) and every round has between one and `n`
elements (`Rounds.length_bounds`). Where the elements have keys, one for each queue, a round has
no two elements of one key (`Rounds.pairwise_ne`), and the elements of a key are taken in the
order of their queue (`Rounds.pairwise_order`). Where there are at most `n` queues the first
round takes the first element of each (`mem_round_of_length_le`).
-/

namespace RoundRobin

open scoped List

variable {α κ : Type*}

/-- What a round takes. -/
def round : ℕ → List (List α) → List α
  | n + 1, (a :: _) :: qs => a :: round n qs
  | n + 1, [] :: qs => round n qs
  | _, _ => []

/-- The queues after a round. -/
def next : ℕ → List (List α) → List (List α)
  | n + 1, (_ :: b :: q) :: qs => (b :: q) :: next n qs
  | n + 1, _ :: qs => next n qs
  | _, qs => qs

@[simp] theorem round_zero (qs : List (List α)) : round 0 qs = [] := by
  cases qs <;> rfl

@[simp] theorem round_nil (n : ℕ) : round n ([] : List (List α)) = [] := by
  cases n <;> rfl

@[simp] theorem round_succ_cons (n : ℕ) (a : α) (q : List α) (qs : List (List α)) :
    round (n + 1) ((a :: q) :: qs) = a :: round n qs :=
  rfl

@[simp] theorem next_zero (qs : List (List α)) : next 0 qs = qs := by
  cases qs <;> rfl

@[simp] theorem next_nil (n : ℕ) : next n ([] : List (List α)) = [] := by
  cases n <;> rfl

@[simp] theorem next_succ_cons (n : ℕ) (a b : α) (q : List α) (qs : List (List α)) :
    next (n + 1) ((a :: b :: q) :: qs) = (b :: q) :: next n qs :=
  rfl

theorem length_round_le : ∀ (n : ℕ) (qs : List (List α)), (round n qs).length ≤ n
  | 0, qs => by simp
  | n + 1, [] => by simp
  | n + 1, [] :: qs => Nat.le_succ_of_le (length_round_le n qs)
  | n + 1, (a :: q) :: qs => by
    rw [round_succ_cons, List.length_cons]
    exact Nat.succ_le_succ (length_round_le n qs)

theorem round_perm_next : ∀ (n : ℕ) (qs : List (List α)),
    (round n qs ++ (next n qs).flatten).Perm qs.flatten
  | 0, qs => by simp
  | n + 1, [] => by simp
  | n + 1, [] :: qs => round_perm_next n qs
  | n + 1, [a] :: qs => (round_perm_next n qs).cons a
  | n + 1, (a :: b :: q) :: qs => by
    rw [round_succ_cons, next_succ_cons, List.flatten_cons, List.flatten_cons, List.cons_append,
      List.cons_append]
    refine List.Perm.cons a ?_
    calc round n qs ++ (b :: q ++ (next n qs).flatten)
        _ = round n qs ++ (b :: q) ++ (next n qs).flatten := (List.append_assoc ..).symm
        _ ~ b :: q ++ round n qs ++ (next n qs).flatten := List.perm_append_comm.append_right _
        _ = b :: q ++ (round n qs ++ (next n qs).flatten) := List.append_assoc ..
        _ ~ b :: q ++ qs.flatten := (round_perm_next n qs).append_left _

/-- A queue after a round is what is left of one before it. -/
theorem exists_suffix_of_mem_next : ∀ {n : ℕ} {qs : List (List α)} {q : List α},
    q ∈ next n qs → ∃ q' ∈ qs, q <:+ q'
  | 0, qs, q, h => ⟨q, by simpa using h, List.suffix_refl q⟩
  | n + 1, [], q, h => by simp at h
  | n + 1, [] :: qs, q, h | n + 1, [_] :: qs, q, h => by
    have hrest : q ∈ next n qs := h
    obtain ⟨q', hq', hsuffix⟩ := exists_suffix_of_mem_next hrest
    exact ⟨q', List.mem_cons_of_mem _ hq', hsuffix⟩
  | n + 1, (a :: b :: l) :: qs, q, h => by
    rcases List.mem_cons.1 h with rfl | h
    · exact ⟨_, List.mem_cons_self, List.suffix_cons a _⟩
    · obtain ⟨q', hq', hsuffix⟩ := exists_suffix_of_mem_next h
      exact ⟨q', List.mem_cons_of_mem _ hq', hsuffix⟩

variable {n : ℕ}

theorem round_ne_nil : ∀ {qs : List (List α)}, (∀ q ∈ qs, q ≠ []) → qs ≠ [] →
    round (n + 1) qs ≠ []
  | [], _, hqs => (hqs rfl).elim
  | [] :: _, h, _ => (h [] List.mem_cons_self rfl).elim
  | (_ :: _) :: _, _, _ => List.cons_ne_nil _ _

theorem length_next_lt {qs : List (List α)} (h : ∀ q ∈ qs, q ≠ []) (hqs : qs ≠ []) :
    (next (n + 1) qs).flatten.length < qs.flatten.length := by
  have hround := List.length_pos_iff.2 (round_ne_nil (n := n) h hqs)
  have hlength := (round_perm_next (n + 1) qs).length_eq
  rw [List.length_append] at hlength
  omega

variable {q : List α} {a : α}

/-- With at most `n` queues a round takes the first element of each. -/
theorem mem_round_of_length_le : ∀ {n : ℕ} {qs : List (List α)},
    qs.length ≤ n → (a :: q) ∈ qs → a ∈ round n qs
  | 0, qs, hn, h => by
    rw [List.length_eq_zero_iff.1 (Nat.le_zero.1 hn)] at h
    cases h
  | n + 1, q' :: qs, hn, h => by
    have hlength : qs.length ≤ n := Nat.le_of_succ_le_succ hn
    rcases List.mem_cons.1 h with rfl | h
    · exact List.mem_cons_self
    · have hmem := mem_round_of_length_le hlength h
      cases q' with
      | nil => exact hmem
      | cons b => exact List.mem_cons_of_mem b hmem

/-! ## Queues with keys -/

/-- Every queue is nonempty, ordered by `R`, and all its elements have one key, which no other
queue has. -/
structure Queues (key : α → κ) (R : α → α → Prop) (qs : List (List α)) : Prop where
  nonempty : ∀ q ∈ qs, q ≠ []
  ordered : ∀ q ∈ qs, q.Pairwise R
  oneKey : ∀ q ∈ qs, ∀ a ∈ q, ∀ b ∈ q, key a = key b
  separate : qs.Pairwise fun q q' => ∀ a ∈ q, ∀ b ∈ q', key a ≠ key b

namespace Queues

variable {key : α → κ} {R : α → α → Prop} {qs : List (List α)}

theorem tail (h : Queues key R (q :: qs)) : Queues key R qs :=
  ⟨fun p hp => h.nonempty p (List.mem_cons_of_mem q hp),
    fun p hp => h.ordered p (List.mem_cons_of_mem q hp),
    fun p hp => h.oneKey p (List.mem_cons_of_mem q hp), h.separate.of_cons⟩

/-- The elements of the other queues have other keys. -/
theorem key_ne (h : Queues key R (q :: qs)) {a b : α} (ha : a ∈ q)
    (hb : b ∈ qs.flatten) : key a ≠ key b := by
  obtain ⟨_, hq', hb⟩ := List.mem_flatten.1 hb
  exact List.rel_of_pairwise_cons h.separate hq' a ha b hb

theorem next (n : ℕ) : ∀ {qs : List (List α)}, Queues key R qs → Queues key R (next n qs) := by
  induction n with
  | zero => simp
  | succ n ih =>
    intro qs h
    match qs, h with
    | [], h => exact h
    | [] :: qs, h => exact ih h.tail
    | [a] :: qs, h => exact ih h.tail
    | (a :: b :: q) :: qs, h =>
      have hrest := ih h.tail
      have hsub : b :: q <+ a :: b :: q := List.sublist_cons_self a (b :: q)
      rw [next_succ_cons]
      refine ⟨?_, ?_, ?_, ?_⟩
      · exact List.forall_mem_cons.2 ⟨List.cons_ne_nil b q, hrest.nonempty⟩
      · exact List.forall_mem_cons.2 ⟨(h.ordered _ List.mem_cons_self).sublist hsub, hrest.ordered⟩
      · refine List.forall_mem_cons.2 ⟨fun c hc d hd => ?_, hrest.oneKey⟩
        exact h.oneKey _ List.mem_cons_self c (hsub.subset hc) d (hsub.subset hd)
      · refine List.pairwise_cons.2 ⟨fun q' hq' c hc d hd => ?_, hrest.separate⟩
        obtain ⟨p, hp, hsuffix⟩ := exists_suffix_of_mem_next hq'
        exact h.key_ne (hsub.subset hc) (List.mem_flatten_of_mem hp (hsuffix.subset hd))

theorem mem_flatten_of_mem_round (h : a ∈ round n qs) : a ∈ qs.flatten :=
  (round_perm_next n qs).subset (List.mem_append_left _ h)

theorem mem_flatten_of_mem_next (h : a ∈ (RoundRobin.next n qs).flatten) : a ∈ qs.flatten :=
  (round_perm_next n qs).subset (List.mem_append_right _ h)

/-- A round has one element of a key. -/
theorem pairwise_round (n : ℕ) : ∀ {qs : List (List α)}, Queues key R qs →
    (round n qs).Pairwise fun a b => key a ≠ key b := by
  induction n with
  | zero => simp
  | succ n ih =>
    intro qs h
    match qs, h with
    | [], h => exact List.Pairwise.nil
    | [] :: qs, h => exact ih h.tail
    | (a :: q) :: qs, h =>
      refine List.pairwise_cons.2 ⟨fun b hb => ?_, ih h.tail⟩
      exact h.key_ne List.mem_cons_self (mem_flatten_of_mem_round hb)

/-- What is left of a key's queue comes behind what was taken of it. -/
theorem order_of_round (n : ℕ) : ∀ {qs : List (List α)}, Queues key R qs → ∀ {a b : α},
    a ∈ round n qs → b ∈ (RoundRobin.next n qs).flatten → key a = key b → R a b := by
  induction n with
  | zero => simp
  | succ n ih =>
    intro qs h a b ha hb hkey
    match qs, h with
    | [], h => cases ha
    | [] :: qs, h => exact ih h.tail ha hb hkey
    | [c] :: qs, h =>
      rcases List.mem_cons.1 ha with rfl | ha
      · exact (h.key_ne List.mem_cons_self (mem_flatten_of_mem_next hb) hkey).elim
      · exact ih h.tail ha hb hkey
    | (c :: d :: q) :: qs, h =>
      rw [next_succ_cons, List.flatten_cons, List.mem_append] at hb
      rcases List.mem_cons.1 ha with rfl | ha <;> rcases hb with hb | hb
      · exact List.rel_of_pairwise_cons (h.ordered _ List.mem_cons_self) hb
      · exact (h.key_ne List.mem_cons_self (mem_flatten_of_mem_next hb) hkey).elim
      · exact (h.key_ne (List.mem_cons_of_mem c hb) (mem_flatten_of_mem_round ha) hkey.symm).elim
      · exact ih h.tail ha hb hkey

end Queues

/-! ## All rounds -/

/-- The rounds that drain the queues. -/
inductive Rounds (n : ℕ) : List (List α) → List (List α) → Prop where
  | nil : Rounds n [] []
  | cons {qs rs : List (List α)} :
      qs ≠ [] → Rounds n (next n qs) rs → Rounds n qs (round n qs :: rs)

namespace Rounds

variable {key : α → κ} {R : α → α → Prop} {n : ℕ} {qs rs : List (List α)}

theorem flatten_perm (h : Rounds n qs rs) : rs.flatten.Perm qs.flatten := by
  induction h with
  | nil => exact List.Perm.refl _
  | cons hqs _ ih => exact (ih.append_left _).trans (round_perm_next n _)

/-- The first round is one of them, if it takes anything. -/
theorem round_mem (h : Rounds n qs rs) (ha : a ∈ round n qs) : round n qs ∈ rs := by
  cases h with
  | nil => simp at ha
  | cons => exact List.mem_cons_self

theorem length_bounds (h : Rounds (n + 1) qs rs) (hqs : Queues key R qs) :
    ∀ r ∈ rs, 1 ≤ r.length ∧ r.length ≤ n + 1 := by
  induction h with
  | nil => simp
  | cons hne _ ih =>
    refine List.forall_mem_cons.2 ⟨⟨?_, length_round_le _ _⟩, ih (hqs.next _)⟩
    exact List.length_pos_iff.2 (round_ne_nil hqs.nonempty hne)

theorem pairwise_ne (h : Rounds n qs rs) (hqs : Queues key R qs) :
    ∀ r ∈ rs, r.Pairwise fun a b => key a ≠ key b := by
  induction h with
  | nil => simp
  | cons _ _ ih => exact List.forall_mem_cons.2 ⟨hqs.pairwise_round n, ih (hqs.next n)⟩

theorem pairwise_order (h : Rounds n qs rs) (hqs : Queues key R qs) :
    rs.flatten.Pairwise fun a b => key a = key b → R a b := by
  induction h with
  | nil => exact List.Pairwise.nil
  | cons _ hrest ih =>
    refine List.pairwise_append.2 ⟨?_, ih (hqs.next n), fun a ha b hb => ?_⟩
    · exact (hqs.pairwise_round n).imp fun hne hkey => (hne hkey).elim
    · exact hqs.order_of_round n ha (hrest.flatten_perm.subset hb)

end Rounds

/-! ## One queue for each key -/

/-- Sorting a list into one queue for each key loses nothing. -/
theorem flatten_filter_perm [DecidableEq κ] (key : α → κ) : ∀ (keys : List κ) (l : List α),
    keys.Nodup → (∀ a ∈ l, key a ∈ keys) →
      (keys.map fun k => l.filter fun a => key a == k).flatten.Perm l
  | [], l, _, hl => by
    cases l with
    | nil => exact List.Perm.refl _
    | cons a => exact (List.not_mem_nil (hl a List.mem_cons_self)).elim
  | k :: keys, l, hkeys, hl => by
    obtain ⟨hk, hkeys⟩ := List.nodup_cons.1 hkeys
    have hrest : (keys.map fun k' => l.filter fun a => key a == k') =
        keys.map fun k' => (l.filter fun a => !(key a == k)).filter fun a => key a == k' := by
      refine List.map_congr_left fun k' hk' => ?_
      rw [List.filter_filter]
      refine List.filter_congr fun a _ => ?_
      have hne : k' ≠ k := fun heq => hk (heq ▸ hk')
      by_cases ha : key a = k'
      · simp [ha, hne]
      · simp [ha]
    have hmem : ∀ a ∈ l.filter (fun a => !(key a == k)), key a ∈ keys := by
      intro a ha
      obtain ⟨ha, hne⟩ := List.mem_filter.1 ha
      exact (List.mem_cons.1 (hl a ha)).resolve_left (by simpa using hne)
    rw [List.map_cons, List.flatten_cons, hrest]
    exact ((flatten_filter_perm key keys _ hkeys hmem).append_left _).trans
      (List.filter_append_perm _ l)

theorem queues_filter [DecidableEq κ] {key : α → κ} {R : α → α → Prop} {keys : List κ} {l : List α}
    (hkeys : keys.Nodup) (hmem : ∀ k ∈ keys, ∃ a ∈ l, key a = k) (hl : l.Pairwise R) :
    Queues key R (keys.map fun k => l.filter fun a => key a == k) := by
  have hkey : ∀ {k a}, a ∈ l.filter (fun a => key a == k) → key a = k :=
    fun ha => eq_of_beq (List.mem_filter.1 ha).2
  refine ⟨?_, ?_, ?_, ?_⟩
  · refine List.forall_mem_map.2 fun k hk => ?_
    obtain ⟨a, ha, rfl⟩ := hmem k hk
    exact List.ne_nil_of_mem (List.mem_filter.2 ⟨ha, beq_self_eq_true _⟩)
  · exact List.forall_mem_map.2 fun k _ => hl.filter _
  · exact List.forall_mem_map.2 fun k _ a ha b hb => (hkey ha).trans (hkey hb).symm
  · refine List.pairwise_map.2 (hkeys.imp fun hne a ha b hb heq => hne ?_)
    rw [← hkey ha, heq, hkey hb]

end RoundRobin
