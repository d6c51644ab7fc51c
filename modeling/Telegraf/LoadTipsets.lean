import Telegraf.Ancestry
import Telegraf.GetTips

/-!
# Walking back to the last height

`loadTipsets` of `plugins/inputs/lotus/rpc/rpc.go` as a function : the walk from the current head
over the parents, with calls of the node that may fail, and the reversal of the tipsets in place.
The goroutine of `GetTips` does this walk step by step.

`loadTipsets_spec` : the walk ends, with the tipsets above the last height and the genesis from the
oldest to the current head, or with an error if one of the calls that it makes fails, and then the
goroutine sends nothing more.
-/

open List

namespace Telegraf

open Ancestry Machine GetTips

variable {T : Type*}

/-- The chain of a node : the parents of tipsets, with heights that end at the genesis. -/
structure Chain (T : Type*) where
  height : T → ℤ
  parent : T → Option T
  height_nonneg : ∀ t, 0 ≤ height t
  height_parent_lt : ∀ t p, parent t = some p → height p < height t
  isSome_parent : ∀ t, height t ≠ 0 → (parent t).isSome = true

namespace LoadTipsets

variable (chain : Chain T) (fails : ℕ → Bool) (lowestHeight : ℤ)

/-- The answer to the call for the parents of a tipset, if the calls before it succeeded. -/
def chainGetTipSet (call : ℕ) (t : T) : Option T :=
  if fails call then none else chain.parent t

/-- The loop of `loadTipsets` : the tipsets behind each other, as an error if a call failed. Each
call before has added one of them. -/
def walk : ℕ → T → List T → Option (Except (List T) (List T))
  | 0, _, _ => none
  | fuel + 1, curr, tipsets =>
    if WalkEnds chain.height lowestHeight curr then some (.ok tipsets)
    else
      match chainGetTipSet chain fails tipsets.length curr with
      | none => some (.error (tipsets ++ [curr]))
      | some prev => walk fuel prev (tipsets ++ [curr])

/-- `l[i], l[j] = l[j], l[i]`. -/
def swap (l : List T) (i j : ℕ) : List T :=
  match l[i]?, l[j]? with
  | some a, some b => (l.set i b).set j a
  | _, _ => l

/-- The loop that reverses the tipsets in place. -/
def reverseLoop (l : List T) (i j : ℕ) : List T :=
  if i < j then reverseLoop (swap l i j) (i + 1) (j - 1) else l
termination_by j - i

/-- `loadTipsets`. -/
def loadTipsets (fuel : ℕ) (curr : T) : Option (Except (List T) (List T)) :=
  (walk chain fails lowestHeight fuel curr []).map fun r =>
    r.map fun tipsets => reverseLoop tipsets 0 (tipsets.length - 1)

/-! ## The reversal -/

theorem getElem?_swap (l : List T) {i j : ℕ} (hi : i < l.length) (hj : j < l.length) (n : ℕ) :
    (swap l i j)[n]? = if n = i then l[j]? else if n = j then l[i]? else l[n]? := by
  unfold swap
  rw [getElem?_eq_getElem hi, getElem?_eq_getElem hj]
  dsimp only
  rw [getElem?_set, getElem?_set]
  by_cases hni : n = i <;> by_cases hnj : n = j <;> grind

theorem length_swap (l : List T) (i j : ℕ) : (swap l i j).length = l.length := by
  unfold swap
  split
  · rw [length_set, length_set]
  · rfl

/-- The loop has exchanged what lies outside of `i` and `j`, and exchanges the rest. -/
theorem getElem?_reverseLoop (l : List T) (i j : ℕ) (hj : j < l.length) (n : ℕ) :
    (reverseLoop l i j)[n]? = if i ≤ n ∧ n ≤ j then l[i + j - n]? else l[n]? := by
  induction l, i, j using reverseLoop.induct with
  | case1 l i j hlt ih =>
    have hswap := getElem?_swap l (show i < l.length by omega) hj
    rw [reverseLoop, if_pos hlt, ih (by rw [length_swap]; omega), hswap, hswap]
    have hsum : i + 1 + (j - 1) = i + j := by omega
    rw [hsum]
    by_cases hn : i ≤ n ∧ n ≤ j
    · by_cases hni : n = i
      · rw [if_neg (by omega), if_pos hni, if_pos hn]
        congr 1
        omega
      · by_cases hnj : n = j
        · rw [if_neg (by omega), if_neg hni, if_pos hnj, if_pos hn]
          congr 1
          omega
        · rw [if_pos (by omega), if_neg (by omega), if_neg (by omega), if_pos hn]
    · rw [if_neg (by omega), if_neg (by omega), if_neg (by omega), if_neg hn]
  | case2 l i j hle =>
    rw [reverseLoop, if_neg hle]
    split_ifs with hn
    · congr 1
      omega
    · rfl

theorem reverseLoop_eq (l : List T) : reverseLoop l 0 (l.length - 1) = l.reverse := by
  cases hl : l with
  | nil => rw [reverseLoop]; rfl
  | cons =>
    rw [← hl]
    have hpos : 0 < l.length := by rw [hl]; simp
    refine ext_getElem? fun n => ?_
    rw [getElem?_reverseLoop l 0 _ (by omega)]
    by_cases hn : n < l.length
    · rw [if_pos (by omega), getElem?_reverse hn]
      congr 1
      omega
    · rw [if_neg (by omega), getElem?_eq_none (by omega),
        getElem?_eq_none (by rw [length_reverse]; omega)]

/-! ## The walk -/

variable {chain fails lowestHeight}

theorem walkEnds_iff {t : T} : WalkEnds chain.height lowestHeight t ↔
    chain.height t ≤ max lowestHeight 0 := by
  have hnonneg := chain.height_nonneg t
  unfold WalkEnds
  omega

/-- The tipsets of a walk lead from its end up to the current head. -/
structure Segment (chain : Chain T) (lowestHeight : ℤ) (base : T) (seg : List T) (curr : T) :
    Prop where
  onTop : OnTop chain.parent base seg curr
  walkEnds : WalkEnds chain.height lowestHeight base
  not_walkEnds : ∀ t ∈ seg, ¬WalkEnds chain.height lowestHeight t

theorem exists_segment (chain : Chain T) (lowestHeight : ℤ) (curr : T) :
    ∃ base seg, Segment chain lowestHeight base seg curr := by
  induction hn : (chain.height curr).toNat using Nat.strongRecOn generalizing curr with
  | ind n ih =>
    by_cases hend : WalkEnds chain.height lowestHeight curr
    · exact ⟨curr, [], rfl, hend, by simp⟩
    · have hne : chain.height curr ≠ 0 := fun h => hend (.inl h)
      obtain ⟨p, hp⟩ := Option.isSome_iff_exists.1 (chain.isSome_parent curr hne)
      have hlt := chain.height_parent_lt curr p hp
      have hnonneg := chain.height_nonneg p
      obtain ⟨base, seg, hseg⟩ := ih (chain.height p).toNat (by omega) p rfl
      refine ⟨base, seg ++ [curr], onTop_snoc.2 ⟨rfl, p, hseg.onTop, hp⟩, hseg.walkEnds, ?_⟩
      intro t ht
      rcases mem_append.1 ht with ht | ht
      · exact hseg.not_walkEnds t ht
      · rw [mem_singleton.1 ht]
        exact hend

variable {seg : List T} {base curr : T}

theorem Segment.mem_iff (h : Segment chain lowestHeight base seg curr) (t : T) :
    t ∈ seg ↔ Ancestor chain.parent t curr ∧ max lowestHeight 0 < chain.height t := by
  constructor
  · intro ht
    exact ⟨h.onTop.ancestor_of_mem ht, Int.not_le.1 (mt walkEnds_iff.2 (h.not_walkEnds t ht))⟩
  · rintro ⟨hanc, _⟩
    refine (h.onTop.mem_or_ancestor hanc).resolve_right fun hbase => ?_
    have hle := hbase.height_le chain.height_parent_lt
    have hend := walkEnds_iff.1 h.walkEnds
    omega

theorem Segment.concat_inv {base curr x : T}
    (h : Segment chain lowestHeight base (seg ++ [x]) curr) :
    x = curr ∧ ¬WalkEnds chain.height lowestHeight curr ∧
      ∃ prev, chain.parent curr = some prev ∧ Segment chain lowestHeight base seg prev := by
  obtain ⟨rfl, prev, hseg, hparent⟩ := onTop_snoc.1 h.onTop
  exact ⟨rfl, h.not_walkEnds x (by simp), prev, hparent, hseg, h.walkEnds,
    fun t ht => h.not_walkEnds t (mem_append_left _ ht)⟩

section

variable {base curr : T} {seg : List T} (h : Segment chain lowestHeight base seg curr)
  (tipsets : List T) {fuel : ℕ} (hfuel : seg.length < fuel)

include h tipsets hfuel

/-- The walk over a segment, if the calls of it succeed, and if one of them fails. -/
theorem walk_spec :
    ((∀ k < seg.length, fails (tipsets.length + k) = false) →
      walk chain fails lowestHeight fuel curr tipsets = some (.ok (tipsets ++ seg.reverse))) ∧
    ((∃ k < seg.length, fails (tipsets.length + k) = true) →
      ∃ r, walk chain fails lowestHeight fuel curr tipsets = some (.error r)) := by
  induction seg using reverseRecOn generalizing curr tipsets fuel with
  | nil =>
    obtain ⟨fuel, rfl⟩ := Nat.exists_eq_add_of_lt hfuel
    obtain rfl : base = curr := h.onTop
    rw [walk, if_pos h.walkEnds, reverse_nil, append_nil]
    exact ⟨fun _ => rfl, fun ⟨_, hk, _⟩ => nomatch hk⟩
  | append_singleton seg x ih =>
    obtain ⟨rfl, hend, prev, hparent, hseg⟩ := h.concat_inv
    rw [length_append, length_singleton] at hfuel ⊢
    obtain ⟨fuel, rfl⟩ : ∃ n, fuel = n + 1 := ⟨fuel - 1, by omega⟩
    have hnext : ∀ k, (tipsets ++ [x]).length + k = tipsets.length + (k + 1) := by
      simp [Nat.add_comm, Nat.add_left_comm]
    obtain ⟨hok, herror⟩ := ih hseg (tipsets ++ [x]) (Nat.lt_of_succ_lt_succ hfuel)
    rw [walk, if_neg hend, chainGetTipSet]
    cases hfirst : fails tipsets.length with
    | true =>
      refine ⟨fun hcalls => ?_, fun _ => ⟨_, rfl⟩⟩
      cases hfirst.symm.trans (hcalls 0 (by omega))
    | false =>
      rw [hparent]
      refine ⟨fun hcalls => ?_, fun ⟨k, hk, hfail⟩ => herror ?_⟩
      · refine (hok fun k hk => ?_).trans (by simp)
        rw [hnext]
        exact hcalls (k + 1) (by omega)
      · cases k with
        | zero => cases hfirst.symm.trans hfail
        | succ k => exact ⟨k, by omega, by rwa [hnext]⟩

end

/-! ## The goroutine -/

/-- The node answers the calls of the walk. -/
def Answers (chain : Chain T) (fails : ℕ → Bool) (s : GetTips T) : TipsEvent T → Prop
  | .answer tipset =>
    match s.pc with
    | .walking curr tipsets _ => tipset = chainGetTipSet chain fails tipsets.length curr
    | _ => True
  | _ => True

/-- The goroutine in a walk whose calls so far succeeded, or after an error. Nothing is sent. -/
structure Walking (chain : Chain T) (fails : ℕ → Bool) (lowestHeight : ℤ) (base : T)
    (seg sent : List T) (rest : List (HeadChange T)) (s : GetTips T) : Prop where
  sent_eq : s.sent = sent
  pc : s.pc = .returned ∨ ∃ curr below above, s.pc = .walking curr above.reverse rest ∧
    seg = below ++ above ∧ Segment chain lowestHeight base below curr ∧
    ∀ j < above.length, fails j = false

variable {rest : List (HeadChange T)} {s s' : GetTips T}

theorem Walking.step {base : T} {seg sent : List T} {e : TipsEvent T}
    (hfail : ∃ k < seg.length, fails k = true)
    (h : Walking chain fails lowestHeight base seg sent rest s) (hanswer : Answers chain fails s e)
    (hs' : step chain.height lowestHeight s e = some s') :
    Walking chain fails lowestHeight base seg sent rest s' := by
  have hmoves := moves_of_step hs'
  rcases h.pc with hpc | ⟨_, below, above, hpc, rfl, hseg, hcalls⟩
  · cases hmoves with
    | outside => exact ⟨h.sent_eq, .inl hpc⟩
    | turn _ hturn => simp [hpc] at hturn
    | handled hpc' | walked hpc' | stepped hpc' | failed hpc' | sent hpc' => simp [hpc] at hpc'
  · -- the call that fails is still to come, so the walk has not ended
    have hne : below ≠ [] := by
      rintro rfl
      obtain ⟨k, hk, hfail⟩ := hfail
      rw [hcalls k hk] at hfail
      cases hfail
    obtain ⟨below, x, rfl⟩ := (eq_nil_or_concat' below).resolve_left hne
    obtain ⟨rfl, hend, _, hparent, hbelow⟩ := hseg.concat_inv
    cases hmoves with
    | outside =>
      exact ⟨h.sent_eq, .inr ⟨x, below ++ [x], above, hpc, rfl, hseg, hcalls⟩⟩
    | turn _ hturn => simp [hpc] at hturn
    | handled hpc' | sent hpc' => simp [hpc] at hpc'
    | walked hpc' hend' =>
      rw [hpc] at hpc'
      obtain ⟨rfl, -, -⟩ := TipsPc.walking.inj hpc'
      exact absurd hend' hend
    | failed => exact ⟨h.sent_eq, .inl rfl⟩
    | stepped hpc' =>
      rw [hpc] at hpc'
      obtain ⟨rfl, rfl, rfl⟩ := TipsPc.walking.inj hpc'
      simp only [Answers, hpc, chainGetTipSet, hparent, length_reverse] at hanswer
      split_ifs at hanswer with hfails
      cases hanswer
      refine ⟨h.sent_eq, .inr ⟨_, below, x :: above, ?_, by simp, hbelow, fun j hj => ?_⟩⟩
      · rw [reverse_cons]
      · rcases Nat.lt_succ_iff_lt_or_eq.1 hj with hj | rfl
        · exact hcalls j hj
        · exact Bool.eq_false_iff.2 hfails

/-- If a call of the walk fails, the goroutine sends nothing. -/
theorem sent_eq_of_fails (hseg : Segment chain lowestHeight base seg curr)
    (hfail : ∃ k < seg.length, fails k = true) (hpc : s.pc = .walking curr [] rest)
    {es : List (TipsEvent T)}
    (hanswers : AllSteps (step chain.height lowestHeight) (Answers chain fails) s es)
    (hrun : Machine.run (step chain.height lowestHeight) s es = some s') : s'.sent = s.sent := by
  have hstart : Walking chain fails lowestHeight base seg s.sent rest s :=
    ⟨rfl, .inr ⟨curr, seg, [], hpc, by simp, hseg, by simp⟩⟩
  exact (run_induction_of_allSteps
    (P := fun _ => Walking chain fails lowestHeight base seg s.sent rest)
    (fun _ _ _ _ hP hanswer hs' => hP.step hfail hanswer hs') es [] s s' hstart hanswers
    hrun).sent_eq

/-- The walk from a tipset ends. If no call fails it returns the tipsets that are above the last
height and the genesis, each the parent of the next. If one of its calls fails it returns an error
and the goroutine sends nothing. -/
theorem loadTipsets_spec (chain : Chain T) (fails : ℕ → Bool) (lowestHeight : ℤ) (curr : T) :
    ∃ seg : List T,
      (∀ t, t ∈ seg ↔ Ancestor chain.parent t curr ∧ max lowestHeight 0 < chain.height t) ∧
      seg.Pairwise (fun t u => chain.height t < chain.height u) ∧
      seg.IsChain (fun t u => chain.parent u = some t) ∧
      (∀ fuel, seg.length < fuel → (∀ k < seg.length, fails k = false) →
        loadTipsets chain fails lowestHeight fuel curr = some (.ok seg)) ∧
      ∀ k < seg.length, fails k = true →
        (∀ fuel, seg.length < fuel →
          ∃ tipsets, loadTipsets chain fails lowestHeight fuel curr = some (.error tipsets)) ∧
        ∀ s rest es s', s.pc = .walking curr [] rest →
          AllSteps (step chain.height lowestHeight) (Answers chain fails) s es →
          Machine.run (step chain.height lowestHeight) s es = some s' → s'.sent = s.sent := by
  obtain ⟨_, seg, hseg⟩ := exists_segment chain lowestHeight curr
  refine ⟨seg, hseg.mem_iff, hseg.onTop.pairwise_height chain.height_parent_lt, hseg.onTop.isChain,
    fun fuel hfuel hcalls => ?_, fun k hk hfail => ⟨fun fuel hfuel => ?_, ?_⟩⟩
  · have hwalk := (walk_spec hseg [] hfuel).1 fun k hk => by simpa using hcalls k hk
    rw [loadTipsets, hwalk, nil_append]
    simp only [Option.map_some, Except.map]
    rw [reverseLoop_eq, reverse_reverse]
  · obtain ⟨r, hr⟩ := (walk_spec hseg [] hfuel).2 ⟨k, hk, by simpa using hfail⟩
    exact ⟨r, by rw [loadTipsets, hr]; rfl⟩
  · intro s rest es s' hpc hanswers hrun
    exact sent_eq_of_fails hseg ⟨k, hk, hfail⟩ hpc hanswers hrun

/-- Tipsets at the heights 0, 1, 4, 9 and so on, with null rounds between them. -/
def squares : Chain ℕ where
  height t := t ^ 2
  parent t := if t = 0 then none else some (t - 1)
  height_nonneg t := sq_nonneg (t : ℤ)
  height_parent_lt t p hp := by
    split_ifs at hp with ht
    cases hp
    exact_mod_cast Nat.pow_lt_pow_left (Nat.sub_one_lt ht) two_ne_zero
  isSome_parent t ht := by
    rw [if_neg fun h => ht (by rw [h]; rfl)]
    rfl

/-- The walk from height 25 back to height 2 returns the tipsets at 4, 9, 16 and 25, and an error if
the second call fails. -/
theorem loadTipsets_squares :
    (∃ seg : List ℕ, (∀ t, t ∈ seg ↔ t = 2 ∨ t = 3 ∨ t = 4 ∨ t = 5) ∧
      seg.Pairwise (fun t u => squares.height t < squares.height u) ∧
      loadTipsets squares (fun _ => false) 2 (seg.length + 1) 5 = some (.ok seg)) ∧
    ∃ fuel tipsets, loadTipsets squares (fun k => k == 1) 2 fuel 5 = some (.error tipsets) := by
  have hpath : OnTop squares.parent 1 [2, 3, 4, 5] 5 := ⟨rfl, rfl, rfl, rfl, rfl⟩
  have hmem : ∀ t, Ancestor squares.parent t 5 ∧ max 2 0 < squares.height t ↔
      t = 2 ∨ t = 3 ∨ t = 4 ∨ t = 5 := by
    intro t
    constructor
    · rintro ⟨hanc, hlt⟩
      rcases hpath.mem_or_ancestor hanc with ht | hle
      · simpa using ht
      · have hheight : squares.height t ≤ 1 := hle.height_le squares.height_parent_lt
        omega
    · intro ht
      refine ⟨hpath.ancestor_of_mem (by simpa using ht), ?_⟩
      rcases ht with rfl | rfl | rfl | rfl <;> decide
  constructor
  · obtain ⟨seg, hseg, hsorted, -, hok, -⟩ := loadTipsets_spec squares (fun _ => false) 2 5
    exact ⟨seg, fun t => (hseg t).trans (hmem t), hsorted,
      hok _ (Nat.lt_succ_self _) fun _ _ => rfl⟩
  · obtain ⟨seg, hseg, -, -, -, herror⟩ := loadTipsets_spec squares (fun k => k == 1) 2 5
    have htwo : ∀ t, t = 4 ∨ t = 5 → t ∈ seg := fun t ht =>
      (hseg t).2 ((hmem t).2 (.inr (.inr ht)))
    have hlen : 1 < seg.length := by
      have hsub : [4, 5] ⊆ seg := by simpa using htwo
      exact (subperm_of_subset (by decide) hsub).length_le
    exact ⟨_, (herror 1 hlen rfl).1 _ (Nat.lt_succ_self _)⟩

end LoadTipsets

end Telegraf
