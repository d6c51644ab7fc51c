import Mathlib

/-!
# Machines and their runs

A machine takes labelled steps on a state, `step : σ → ι → Option σ` with `none` where a
step cannot be taken. Its nondeterminism is in the labels, so a schedule of several
parties is a list of labels, and `run` is the state after it.

`run_induction` is the invariant rule, with the labels so far as history.
`always_iff_allSteps` settles a property that holds along a run exactly as long as every
step meets a condition : an invariant carries the property over the steps that meet it,
and the first step that does not breaks the property.
-/

open List hiding getElem?_eq_some_iff

open Option

namespace Machine

variable {σ ι : Type*} (step : σ → ι → Option σ)

/-- The state after the steps `is`, if all of them can be taken. -/
def run : σ → List ι → Option σ
  | s, [] => some s
  | s, i :: is => (step s i).bind fun s' => run s' is

@[simp] theorem run_nil (s : σ) : run step s [] = some s :=
  rfl

theorem run_cons (s : σ) (i : ι) (is : List ι) :
    run step s (i :: is) = (step s i).bind fun s' => run step s' is :=
  rfl

theorem run_append (s : σ) (is js : List ι) :
    run step s (is ++ js) = (run step s is).bind fun s' => run step s' js := by
  induction is generalizing s with
  | nil => rfl
  | cons i is ih =>
    rw [cons_append, run_cons, run_cons, bind_assoc]
    exact congrArg _ (funext fun s' => ih s')

theorem run_snoc (s : σ) (is : List ι) (i : ι) :
    run step s (is ++ [i]) = (run step s is).bind fun s' => step s' i := by
  rw [run_append]
  congr 1
  funext s'
  rw [run_cons]
  exact bind_fun_some _

variable {step}

/-- The invariant rule : what holds at the start and is kept by every step holds after
every run. -/
theorem run_induction {P : List ι → σ → Prop} {s₀ : σ} (h₀ : P [] s₀)
    (hstep : ∀ is s i s', P is s → step s i = some s' → P (is ++ [i]) s') :
    ∀ {is : List ι} {s : σ}, run step s₀ is = some s → P is s := by
  intro is
  induction is using reverseRecOn with
  | nil =>
    intro s h
    obtain rfl : s₀ = s := some.inj h
    exact h₀
  | append_singleton is i ih =>
    intro s h
    rw [run_snoc] at h
    obtain ⟨s', hs', hi⟩ := bind_eq_some_iff.1 h
    exact hstep is s' i s (ih hs') hi

/-- A run into a property goes into it at some step. -/
theorem exists_step_of_run {D : σ → Prop} {s : σ} (h : ¬D s) :
    ∀ {is : List ι} {s' : σ}, run step s is = some s' → D s' →
      ∃ pre i s₁ s₂, pre ++ [i] <+: is ∧ run step s pre = some s₁ ∧ step s₁ i = some s₂ ∧
        ¬D s₁ ∧ D s₂ := by
  intro is
  induction is using reverseRecOn with
  | nil =>
    intro s' hrun hD
    obtain rfl : s = s' := some.inj hrun
    exact absurd hD h
  | append_singleton is i ih =>
    intro s' hrun hD
    rw [run_snoc] at hrun
    obtain ⟨s₁, hs₁, hi⟩ := bind_eq_some_iff.1 hrun
    by_cases hD₁ : D s₁
    · obtain ⟨pre, j, t₁, t₂, hpre, hrest⟩ := ih hs₁ hD₁
      exact ⟨pre, j, t₁, t₂, hpre.trans (prefix_append _ _), hrest⟩
    · exact ⟨is, i, s₁, s', prefix_rfl, hs₁, hi, hD₁, hD⟩

section

variable {τ : Type*} {step' : τ → ι → Option τ}

/-- A function of the state that every step respects is respected by every run. -/
theorem run_map {f : σ → τ} (hstep : ∀ s i, step' (f s) i = (step s i).map f) :
    ∀ (is : List ι) (s : σ), run step' (f s) is = (run step s is).map f
  | [], s => rfl
  | i :: is, s => by
    rw [run_cons, run_cons, hstep]
    cases step s i with
    | none => rfl
    | some s' => exact run_map hstep is s'

/-- A simulation : every step of the one machine is matched by a step of the other. -/
theorem exists_run_of_simulates {R : σ → τ → Prop}
    (hstep : ∀ s t i t', R s t → step' t i = some t' → ∃ s', step s i = some s' ∧ R s' t') :
    ∀ {is : List ι} {s : σ} {t t' : τ}, R s t → run step' t is = some t' →
      ∃ s', run step s is = some s' ∧ R s' t'
  | [], s, t, t', hR, hrun => by
    cases hrun
    exact ⟨s, rfl, hR⟩
  | i :: is, s, t, t', hR, hrun => by
    rw [run_cons] at hrun
    obtain ⟨t₁, ht₁, hrun⟩ := bind_eq_some_iff.1 hrun
    obtain ⟨_, hs₁, hR₁⟩ := hstep s t i t₁ hR ht₁
    obtain ⟨s', hs', hR'⟩ := exists_run_of_simulates hstep hR₁ hrun
    exact ⟨s', by rw [run_cons, hs₁, bind_some, hs'], hR'⟩

end

variable (step) in
/-- Every step of the run from `s` meets `p` at the state before it. -/
def AllSteps (p : σ → ι → Prop) : σ → List ι → Prop
  | _, [] => True
  | s, i :: is => p s i ∧ ∀ s', step s i = some s' → AllSteps p s' is

variable {p : σ → ι → Prop}

theorem allSteps_append : ∀ (is js : List ι) (s : σ),
    AllSteps step p s (is ++ js) ↔
      AllSteps step p s is ∧ ∀ s', run step s is = some s' → AllSteps step p s' js
  | [], js, s => by simp [AllSteps]
  | i :: is, js, s => by
    simp only [cons_append, AllSteps, allSteps_append is, run_cons,
      bind_eq_some_iff]
    constructor
    · rintro ⟨hp, h⟩
      exact ⟨⟨hp, fun s' hs' => (h s' hs').1⟩, fun t ⟨s', hs', ht⟩ => (h s' hs').2 t ht⟩
    · rintro ⟨⟨hp, h⟩, h'⟩
      exact ⟨hp, fun s' hs' => ⟨h s' hs', fun t ht => h' t ⟨s', hs', ht⟩⟩⟩

theorem allSteps_of_forall {p : ι → Prop} : ∀ (is : List ι) (s : σ), (∀ i ∈ is, p i) →
    AllSteps step (fun _ => p) s is
  | [], _, _ => trivial
  | _ :: is, _, h => ⟨h _ List.mem_cons_self, fun s' _ => allSteps_of_forall is s' fun j hj =>
      h j (List.mem_cons_of_mem _ hj)⟩

instance instDecidableAllSteps {p : σ → ι → Prop} [∀ s i, Decidable (p s i)] :
    ∀ (s : σ) (is : List ι), Decidable (AllSteps step p s is)
  | _, [] => isTrue trivial
  | s, i :: is =>
    match h : step s i with
    | none => decidable_of_iff (p s i) (by simp [AllSteps, h])
    | some s' =>
      have : Decidable (AllSteps step p s' is) := instDecidableAllSteps s' is
      decidable_of_iff (p s i ∧ AllSteps step p s' is) (by simp [AllSteps, h])

/-- A condition that the steps of a run meet may be exchanged for another, by an invariant
that these steps keep. -/
theorem allSteps_mono {P : List ι → σ → Prop} {legal p q : σ → ι → Prop} {total : List ι}
    (h : ∀ is s i, is ++ [i] <+: total → P is s → legal s i → p s i →
      q s i ∧ ∀ s', step s i = some s' → P (is ++ [i]) s') :
    ∀ (is hist : List ι) (s : σ), hist ++ is = total → P hist s → AllSteps step legal s is →
      AllSteps step p s is → AllSteps step q s is
  | [], _, _, _, _, _, _ => trivial
  | i :: is, hist, s, htotal, hP, hlegal, hp => by
    have htotal' : hist ++ [i] ++ is = total := by rw [← htotal, append_assoc]; rfl
    obtain ⟨hq, hP'⟩ := h hist s i ⟨is, htotal'⟩ hP hlegal.1 hp.1
    exact ⟨hq, fun s' hs' => allSteps_mono h is _ s' htotal' (hP' s' hs') (hlegal.2 s' hs')
      (hp.2 s' hs')⟩

/-- Conditions that agree where an invariant holds agree along a run, if the steps that meet them
keep the invariant. -/
theorem allSteps_congr {P : List ι → σ → Prop} {p q : σ → ι → Prop} {total : List ι}
    (h : ∀ is s i, is ++ [i] <+: total → P is s → (p s i ↔ q s i))
    (hstep : ∀ is s i s', P is s → p s i → step s i = some s' → P (is ++ [i]) s') :
    ∀ (is hist : List ι) (s : σ), hist ++ is = total → P hist s →
      (AllSteps step p s is ↔ AllSteps step q s is)
  | [], _, _, _, _ => Iff.rfl
  | i :: is, hist, s, htotal, hs => by
    have htotal' : hist ++ [i] ++ is = total := by rw [← htotal, append_assoc]; rfl
    rw [AllSteps, AllSteps, ← h hist s i ⟨is, htotal'⟩ hs]
    refine and_congr_right fun hp => forall_congr' fun s' => imp_congr_right fun hs' => ?_
    exact allSteps_congr h hstep is _ s' htotal' (hstep hist s i s' hs hp hs')

variable {ok : σ → ι → Prop}

/-- The invariant rule for steps that meet a condition. -/
theorem run_induction_of_allSteps {P : List ι → σ → Prop}
    (hstep : ∀ is s i s', P is s → ok s i → step s i = some s' → P (is ++ [i]) s') :
    ∀ (is hist : List ι) (s s' : σ), P hist s → AllSteps step ok s is →
      run step s is = some s' → P (hist ++ is) s'
  | [], hist, s, s', hP, _, hrun => by
    cases hrun
    rwa [append_nil]
  | i :: is, hist, s, s', hP, hok, hrun => by
    rw [run_cons] at hrun
    obtain ⟨s₁, hs₁, hrun⟩ := bind_eq_some_iff.1 hrun
    have h := run_induction_of_allSteps hstep is (hist ++ [i]) s₁ s'
      (hstep hist s i s₁ hP hok.1 hs₁) (hok.2 s₁ hs₁) hrun
    rwa [append_assoc] at h

/-- The invariant rule for steps that meet a condition, where they can then be taken. -/
theorem exists_run_of_allSteps {P : List ι → σ → Prop}
    (hstep : ∀ is s i, P is s → ok s i → ∃ s', step s i = some s' ∧ P (is ++ [i]) s') :
    ∀ (is hist : List ι) (s : σ), P hist s → AllSteps step ok s is →
      ∃ s', run step s is = some s' ∧ P (hist ++ is) s'
  | [], hist, s, hP, _ => ⟨s, rfl, by simpa using hP⟩
  | i :: is, hist, s, hP, hok => by
    obtain ⟨s₁, hs₁, hP₁⟩ := hstep hist s i hP hok.1
    obtain ⟨s', hs', hP'⟩ := exists_run_of_allSteps hstep is _ s₁ hP₁ (hok.2 s₁ hs₁)
    refine ⟨s', ?_, by simpa using hP'⟩
    rw [run_cons, hs₁, bind_some, hs']

/-- A property holds after every prefix of a run if and only if every step meets `ok` :
an invariant gives the property, steps that meet `ok` keep the invariant, and a step that
does not loses the property. -/
theorem always_iff_allSteps {P Good : List ι → σ → Prop} {legal ok : σ → ι → Prop}
    (hgood : ∀ is s, P is s → Good is s)
    (hstep : ∀ is s i, P is s → legal s i → ok s i →
      ∃ s', step s i = some s' ∧ P (is ++ [i]) s')
    (hbad : ∀ is s i s', P is s → legal s i → ¬ok s i → step s i = some s' → ¬Good (is ++ [i]) s') :
    ∀ (is hist : List ι) (s : σ), P hist s → AllSteps step legal s is →
      ((∀ pre, pre <+: is → ∃ s', run step s pre = some s' ∧ Good (hist ++ pre) s') ↔
        AllSteps step ok s is)
  | [], hist, s, hP, _ => by
    refine ⟨fun _ => trivial, fun _ pre hpre => ⟨s, ?_, ?_⟩⟩
    · rw [prefix_nil.1 hpre, run_nil]
    · rw [prefix_nil.1 hpre, append_nil]
      exact hgood hist s hP
  | i :: is, hist, s, hP, hlegal => by
    constructor
    · intro h
      have hok : ok s i := by
        by_contra hno
        obtain ⟨s', hs', hg⟩ := h [i] (by simp)
        have hs : step s i = some s' := by simpa [run_cons] using hs'
        exact hbad hist s i s' hP hlegal.1 hno hs hg
      obtain ⟨s₁, hs₁, hP₁⟩ := hstep hist s i hP hlegal.1 hok
      refine ⟨hok, fun s' hs' => ?_⟩
      obtain rfl : s₁ = s' := some.inj (hs₁.symm.trans hs')
      refine (always_iff_allSteps hgood hstep hbad is _ _ hP₁ (hlegal.2 _ hs₁)).1 fun pre hpre => ?_
      obtain ⟨t, ht, hg⟩ := h (i :: pre) (by simpa using hpre)
      exact ⟨t, by simpa [run_cons, hs₁] using ht, by simpa using hg⟩
    · rintro ⟨hok, hrest⟩ pre hpre
      obtain ⟨s₁, hs₁, hP₁⟩ := hstep hist s i hP hlegal.1 hok
      cases pre with
      | nil => exact ⟨s, rfl, by simpa using hgood hist s hP⟩
      | cons j pre =>
        obtain ⟨rfl, hpre'⟩ := cons_prefix_cons.1 hpre
        obtain ⟨t, ht, hg⟩ := (always_iff_allSteps hgood hstep hbad is _ _ hP₁ (hlegal.2 _ hs₁)).2
          (hrest _ hs₁) pre hpre'
        exact ⟨t, by simpa [run_cons, hs₁] using ht, by simpa using hg⟩

/-- A property holds of every state along a run, which may stop, if and only if every step meets
`ok` : steps that meet `ok` keep an invariant, and a step that does not is taken and loses the
property. The invariant may depend on the inputs that are left. -/
theorem forall_run_iff_allSteps {P : List ι → σ → Prop} {Good : σ → Prop}
    (hgood : ∀ is s, P is s → Good s)
    (hstep : ∀ i is s s', P (i :: is) s → ok s i → step s i = some s' → P is s')
    (hbad : ∀ i is s, P (i :: is) s → ¬ok s i → ∃ s', step s i = some s' ∧ ¬Good s') :
    ∀ (is : List ι) (s : σ), P is s →
      ((∀ pre t, pre <+: is → run step s pre = some t → Good t) ↔ AllSteps step ok s is)
  | [], s, hs => by
    refine ⟨fun _ => trivial, fun _ pre t hpre ht => ?_⟩
    rw [prefix_nil.1 hpre] at ht
    cases ht
    exact hgood _ s hs
  | i :: is, s, hs => by
    constructor
    · intro h
      have hok : ok s i := by
        by_contra hno
        obtain ⟨s₁, hs₁, hbad₁⟩ := hbad i is s hs hno
        exact hbad₁ (h [i] s₁ (by simp) (by rw [run_cons, hs₁]; rfl))
      refine ⟨hok, fun s₁ hs₁ => ?_⟩
      refine (forall_run_iff_allSteps hgood hstep hbad is s₁ (hstep i is s s₁ hs hok hs₁)).1
        fun pre t hpre ht => ?_
      exact h (i :: pre) t (by simpa using hpre) (by rw [run_cons, hs₁]; exact ht)
    · rintro ⟨hok, hrest⟩ pre t hpre ht
      match pre with
      | [] =>
        cases ht
        exact hgood _ s hs
      | j :: pre =>
        obtain ⟨rfl, hpre'⟩ := cons_prefix_cons.1 hpre
        rw [run_cons] at ht
        obtain ⟨s₁, hs₁, ht⟩ := bind_eq_some_iff.1 ht
        exact (forall_run_iff_allSteps hgood hstep hbad is s₁ (hstep j is s s₁ hs hok hs₁)).2
          (hrest s₁ hs₁) pre t hpre' ht

/-- A property that a step keeps if and only if it meets `ok` holds along a run if and only if
every step meets `ok`. -/
theorem forall_prefix_iff_allSteps {Good : σ → Prop}
    (hstep : ∀ s i s', Good s → step s i = some s' → (Good s' ↔ ok s i)) {is : List ι} {s s' : σ}
    (hs : Good s) (hrun : run step s is = some s') :
    (∀ pre t, pre <+: is → run step s pre = some t → Good t) ↔ AllSteps step ok s is := by
  refine forall_run_iff_allSteps (P := fun is s => Good s ∧ (run step s is).isSome)
    (fun _ _ h => h.1) (fun i is s s' h hok hs' => ?_) (fun i is s h hno => ?_) is s
    ⟨hs, by simp [hrun]⟩
  · rw [run_cons, hs', bind_some] at h
    exact ⟨(hstep s i s' h.1 hs').2 hok, h.2⟩
  · obtain ⟨t, ht⟩ := isSome_iff_exists.1 h.2
    obtain ⟨s', hs', -⟩ := bind_eq_some_iff.1 ht
    exact ⟨s', hs', mt (hstep s i s' h.1 hs').1 hno⟩

/-- A quantity that no step of a run lowers, and that a step leaves if and only if it meets `ok`, is
the same after the run if and only if every step meets `ok`. -/
theorem eq_iff_allSteps {α : Type*} [PartialOrder α] {P : σ → Prop} {legal ok : σ → ι → Prop}
    {f : σ → α} (hstep : ∀ s i s', P s → legal s i → step s i = some s' →
      P s' ∧ f s ≤ f s' ∧ (f s' = f s ↔ ok s i)) :
    ∀ {is : List ι} {s s' : σ}, P s → AllSteps step legal s is → run step s is = some s' →
      f s ≤ f s' ∧ (f s' = f s ↔ AllSteps step ok s is)
  | [], s, s', _, _, hrun => by
    cases hrun
    exact ⟨le_rfl, iff_of_true rfl trivial⟩
  | i :: is, s, s', hs, hlegal, hrun => by
    rw [run_cons] at hrun
    obtain ⟨s₁, hs₁, hrun⟩ := bind_eq_some_iff.1 hrun
    obtain ⟨hP, hle, hok⟩ := hstep s i s₁ hs hlegal.1 hs₁
    obtain ⟨hle', hrest⟩ := eq_iff_allSteps hstep hP (hlegal.2 s₁ hs₁) hrun
    refine ⟨hle.trans hle', fun heq => ?_, fun h => ?_⟩
    · have hsame : f s₁ = f s := le_antisymm (hle'.trans heq.le) hle
      refine ⟨hok.1 hsame, fun t ht => ?_⟩
      obtain rfl := some.inj (hs₁.symm.trans ht)
      exact hrest.1 (heq.trans hsame.symm)
    · exact (hrest.2 (h.2 s₁ hs₁)).trans (hok.2 h.1)

/-! ## Lists of processes

The state of several parties is a list, and a step of one of them replaces its entry. -/

section Processes

variable {α : Type*} {l : List α} {i : ℕ} {a : α}

theorem toNat_le_countP (hi : l[i]? = some a) (p : α → Bool) : (p a).toNat ≤ l.countP p := by
  cases hp : p a with
  | false => exact Nat.zero_le _
  | true => exact countP_pos_iff.2 ⟨a, mem_of_getElem? hi, hp⟩

/-- What replacing an entry does to a count. -/
theorem countP_set_add (hi : l[i]? = some a) (a' : α) (p : α → Bool) :
    (l.set i a').countP p + (p a).toNat = l.countP p + (p a').toNat := by
  obtain ⟨hlt, hget⟩ := List.getElem?_eq_some_iff.1 hi
  have hle := toNat_le_countP hi p
  have htoNat : ∀ b : Bool, (if b = true then 1 else 0) = b.toNat := by decide
  rw [countP_set hlt, hget, htoNat, htoNat]
  omega

theorem countP_concat (l : List α) (a : α) (p : α → Bool) :
    (l ++ [a]).countP p = l.countP p + (p a).toNat := by
  cases hp : p a <;> simp [hp]

/-- The other entries stay. -/
theorem mem_set_or_eq (hi : l[i]? = some a) (a' : α) {b : α} (hb : b ∈ l) :
    b ∈ l.set i a' ∨ b = a := by
  obtain ⟨j, hj⟩ := mem_iff_getElem?.1 hb
  obtain rfl | hij := eq_or_ne i j
  · exact .inr (some.inj (hj.symm.trans hi))
  · exact .inl (mem_of_getElem? ((getElem?_set_ne hij).trans hj))

theorem getElem?_of_mem_set {a' b : α} (hb : b ∈ l.set i a') :
    b = a' ∨ ∃ j, j ≠ i ∧ l[j]? = some b := by
  obtain ⟨j, hj⟩ := mem_iff_getElem?.1 hb
  obtain rfl | hij := eq_or_ne i j
  · rw [getElem?_set_self'] at hj
    obtain ⟨-, -, rfl⟩ := map_eq_some_iff.1 hj
    exact .inl rfl
  · exact .inr ⟨j, hij.symm, (getElem?_set_ne hij).symm.trans hj⟩

theorem mem_set_self (hi : l[i]? = some a) (a' : α) : a' ∈ l.set i a' :=
  List.mem_set (List.getElem?_eq_some_iff.1 hi).1 a'

/-- What removing an entry does to a sum. -/
theorem sum_map_eraseIdx_add (hi : l[i]? = some a) (f : α → ℕ) :
    ((l.eraseIdx i).map f).sum + f a = (l.map f).sum := by
  induction l generalizing i with
  | nil => cases hi
  | cons b l ih =>
    cases i with
    | zero =>
      cases hi
      simp only [eraseIdx_cons_zero, map_cons, sum_cons]
      omega
    | succ =>
      have h := ih hi
      simp only [eraseIdx_cons_succ, map_cons, sum_cons]
      omega

/-- What replacing an entry does to a sum. -/
theorem sum_map_set_add (hi : l[i]? = some a) (a' : α) (f : α → ℕ) :
    ((l.set i a').map f).sum + f a = (l.map f).sum + f a' := by
  have herase := sum_map_eraseIdx_add hi f
  have hset := sum_map_eraseIdx_add (l := l.set i a') (i := i)
    (getElem?_set_self (getElem?_eq_some_iff.1 hi).1) f
  rw [eraseIdx_set_eq] at hset
  omega

end Processes

end Machine
