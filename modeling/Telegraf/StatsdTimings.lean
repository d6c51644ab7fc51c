import Telegraf.Statsd

/-!
# Panics of Gather

Lines and calls of `Gather` as the steps of a machine (`plugins/inputs/statsd`). A timing whose
sample rate is above 1, or so small that the number of its repetitions overflows, is added no time,
but its entry is made all the same. `Gather` then takes a percentile of no samples, which panics.

`gather_safe_iff` : along a run no call of `Gather` panics and every timing has a sample, exactly if
no line makes an entry that it leaves without a sample.
-/

open List

open Option hiding map_map or_assoc

namespace Telegraf.Statsd

open KeyedLists Machine Telegraf.Statsd.Config

variable {𝔽 : Type} {cfg : Config 𝔽} {s s' : State 𝔽} {m : StatsdMetric 𝔽}

/-! ## Samples -/

/-- What is used of `float64` : a percentile that is a finite number gives an index that is a
number, and the conversion of a number between 0 and an integer below `2 ^ 53` is between them. -/
structure Floats.Laws (F : Floats 𝔽) (Finite NaN : 𝔽 → Prop) : Prop where
  sort_perm : ∀ l, (F.sort l).Perm l
  finite_hundred : Finite (F.ofInt 100)
  not_nan : ∀ (len : ℕ) (n : 𝔽), Finite n → ¬NaN (F.div (F.mul (F.ofInt len) n) (F.ofInt 100))
  toInt_mem : ∀ (x : 𝔽) (max : ℤ), 0 ≤ max → max < 2 ^ 53 → ¬NaN x → F.lt x (F.ofInt 0) = false →
    F.lt (F.ofInt max) x = false → 0 ≤ (F.toInt x).toInt ∧ (F.toInt x).toInt ≤ max

/-- The samples are no more than the limit, and `make` gave them. -/
structure RunningStats.Limited (makes : ℤ → Bool) (limit : ℤ) (rs : RunningStats 𝔽) : Prop where
  percLimit : rs.percLimit = limit
  length_le : rs.perc.length ≤ limit
  made : rs.n ≠ 0 ∨ rs.perc ≠ [] → makes limit = true

namespace RunningStats

variable {F : Floats 𝔽} {rs rs' : RunningStats 𝔽} {limit : ℤ} {makes : ℤ → Bool} {v : 𝔽}

theorem limited_new (F : Floats 𝔽) (hlimit : 1 ≤ limit) : (new F limit).Limited makes limit :=
  ⟨rfl, by show (0 : ℤ) ≤ limit; omega, by simp [new]⟩

theorem Limited.start (h : rs.Limited makes limit) (hlimit : 1 ≤ limit)
    (hstart : rs.start makes v = some rs') :
    rs'.percLimit = limit ∧ rs'.perc.length ≤ limit ∧ makes limit = true := by
  have hpercLimit := h.percLimit
  unfold RunningStats.start at hstart
  simp only [hpercLimit, if_neg (by omega : ¬limit = 0)] at hstart
  split_ifs at hstart with hn hmakes
  · cases hstart
    exact ⟨rfl, by show (0 : ℤ) ≤ limit; omega, hmakes⟩
  · cases hstart
    exact ⟨rfl, h.length_le, h.made (.inl hn)⟩

theorem Limited.isSome_start (h : rs.Limited makes limit) (hlimit : 1 ≤ limit)
    (hmakes : makes limit = true) : (rs.start makes v).isSome = true := by
  unfold RunningStats.start
  simp only [h.percLimit, if_neg (by omega : ¬limit = 0), hmakes, if_true]
  split_ifs <;> rfl

/-- A value is among the samples, or in the place of one. -/
theorem limited_add (hlimit : 1 ≤ limit) (intn : ℕ → ℕ) (hpercLimit : rs.percLimit = limit)
    (hlen : rs.perc.length ≤ limit) (hmakes : makes limit = true) :
    (rs.add F intn v).Limited makes limit ∧ (rs.add F intn v).perc ≠ [] := by
  have hperc : (rs.add F intn v).perc =
      if (rs.perc.length : ℤ) < rs.percLimit then rs.perc ++ [v]
      else rs.perc.set (intn rs.perc.length) v := rfl
  split_ifs at hperc with hlt
  · refine ⟨⟨hpercLimit, ?_, fun _ => hmakes⟩, by simp [hperc]⟩
    rw [hperc, length_append, length_singleton]
    push_cast
    omega
  · refine ⟨⟨hpercLimit, ?_, fun _ => hmakes⟩, fun hnil => ?_⟩
    · rw [hperc, length_set]
      exact hlen
    · rw [hperc] at hnil
      have hzero := congrArg length hnil
      rw [length_set, length_nil] at hzero
      omega

theorem Limited.addValues (hlimit : 1 ≤ limit) (intn : ℕ → ℕ → ℕ) :
    ∀ {n calls : ℕ} {rs : RunningStats 𝔽} {r : RunningStats 𝔽 × ℕ}, rs.Limited makes limit →
      rs.addValues F makes intn v n calls = some r →
        r.1.Limited makes limit ∧ (r.1.perc ≠ [] ↔ 1 ≤ n ∨ rs.perc ≠ [])
  | 0, calls, rs, r, h, hr => by
    cases hr
    exact ⟨h, by simp⟩
  | n + 1, calls, rs, r, h, hr => by
    obtain ⟨_, hrs₁, hr⟩ := bind_eq_some_iff.1 hr
    obtain ⟨hpercLimit, hlen, hmakes⟩ := h.start hlimit hrs₁
    obtain ⟨hlimited, hne⟩ := limited_add (F := F) (v := v) hlimit (intn calls) hpercLimit hlen
      hmakes
    obtain ⟨hrest, hiff⟩ := Limited.addValues hlimit intn hlimited hr
    refine ⟨hrest, ?_⟩
    rw [hiff]
    simp [hne]

theorem Limited.isSome_addValues (hlimit : 1 ≤ limit) (intn : ℕ → ℕ → ℕ) :
    ∀ {n calls : ℕ} {rs : RunningStats 𝔽}, rs.Limited makes limit →
      (1 ≤ n → makes limit = true) → (rs.addValues F makes intn v n calls).isSome = true
  | 0, _, _, _, _ => rfl
  | n + 1, calls, rs, h, hmakes => by
    obtain ⟨_, hrs₁⟩ := isSome_iff_exists.1
      (h.isSome_start (v := v) hlimit (hmakes (by omega)))
    obtain ⟨hpercLimit, hlen, hmade⟩ := h.start hlimit hrs₁
    obtain ⟨hlimited, -⟩ := limited_add (F := F) (v := v) hlimit (intn calls) hpercLimit hlen hmade
    rw [RunningStats.addValues, hrs₁]
    exact Limited.isSome_addValues hlimit intn hlimited fun _ => hmade

section

variable {Finite NaN : 𝔽 → Prop} (hF : F.Laws Finite NaN)

include hF

theorem Limited.sortPerc (h : rs.Limited makes limit) : (rs.sortPerc F).Limited makes limit ∧
      (rs.sortPerc F).perc.length = rs.perc.length := by
  unfold RunningStats.sortPerc
  split
  · exact ⟨h, rfl⟩
  · have hlen := (hF.sort_perm rs.perc).length_eq
    refine ⟨⟨h.percLimit, ?_, fun hor => h.made (hor.imp_right fun hne hnil => hne ?_)⟩, hlen⟩
    · rw [hlen]
      exact h.length_le
    · exact length_eq_zero_iff.1 (hlen.trans (length_eq_zero_iff.2 hnil))

theorem clamp_mem {x : 𝔽} (hx : ¬NaN x) {max : ℤ}
    (hmax : 0 ≤ max) (hlt : max < 2 ^ 53) : 0 ≤ F.clamp x 0 max ∧ F.clamp x 0 max ≤ max := by
  unfold Floats.clamp
  split_ifs with hlow hhigh
  · exact ⟨le_rfl, hmax⟩
  · exact ⟨hmax, le_rfl⟩
  · exact hF.toInt_mem x max hmax hlt hx (Bool.eq_false_iff.2 hlow) (Bool.eq_false_iff.2 hhigh)

/-- A percentile of samples is one of them. -/
theorem isSome_percentile
    (hmakes : ∀ cap, makes cap = true → cap ≤ 2 ^ 53) (h : rs.Limited makes limit)
    (hne : rs.perc ≠ []) {n : 𝔽} (hn : Finite n) : (rs.percentile F n).isSome = true := by
  have hpos := length_pos_iff.2 hne
  have hlimit := hmakes limit (h.made (.inr hne))
  have hlen := h.length_le
  have hfinite : Finite (if F.lt (F.ofInt 100) n then F.ofInt 100 else n) := by
    split
    · exact hF.finite_hundred
    · exact hn
  obtain ⟨hlow, _⟩ := clamp_mem hF (hF.not_nan rs.perc.length _ hfinite)
    (by omega : (0 : ℤ) ≤ rs.perc.length - 1) (by omega)
  have hlt : (F.clamp (F.div (F.mul (F.ofInt rs.perc.length)
      (if F.lt (F.ofInt 100) n then F.ofInt 100 else n)) (F.ofInt 100)) 0
      (rs.perc.length - 1)).toNat < rs.perc.length := by omega
  unfold percentile index
  dsimp only
  rw [if_neg (not_lt.2 hlow), getElem?_eq_getElem hlt]
  rfl

end

end RunningStats

/-! ## Entries of timings -/

/-- The metric is aggregated as a timing. -/
def StatsdMetric.IsTiming (m : StatsdMetric 𝔽) : Prop :=
  m.mtype = .timing ∨ m.mtype = .histogram

instance (m : StatsdMetric 𝔽) : Decidable m.IsTiming :=
  inferInstanceAs (Decidable (_ ∨ _))

/-- The samples of all timings are no more than the limit. -/
structure State.Limited (cfg : Config 𝔽) (s : State 𝔽) : Prop where
  wf : s.timings.WF
  field : ∀ {hash field rs}, s.timings.field hash field = some rs →
    rs.Limited cfg.makes cfg.percentileLimit

/-- Every timing in the cache has a sample. -/
def State.Sampled (s : State 𝔽) : Prop :=
  ∀ e ∈ s.timings, ∀ f ∈ e.2.fields, f.2.perc ≠ []

/-- The field of a timing has a sample. -/
def State.HasSample (s : State 𝔽) (hash field : GoString) : Prop :=
  ∃ rs, s.timings.field hash field = some rs ∧ rs.perc ≠ []

theorem sampled_iff (hwf : s.timings.WF) : s.Sampled ↔
    ∀ hash field, (s.timings.field hash field).isSome = true → s.HasSample hash field := by
  constructor
  · intro h hash field hsome
    obtain ⟨rs, hrs⟩ := isSome_iff_exists.1 hsome
    obtain ⟨_, hmem, hfield⟩ := hwf.field_eq_some.1 hrs
    exact ⟨rs, hrs, h _ hmem _ hfield⟩
  · intro h e he f hf
    have hfield : s.timings.field e.1 f.1 = some f.2 := hwf.field_eq_some.2 ⟨e.2, he, hf⟩
    obtain ⟨rs, hrs, hne⟩ := h e.1 f.1 (by rw [hfield]; rfl)
    obtain rfl := some.inj (hfield.symm.trans hrs)
    exact hne

theorem aggregate_of_isTiming (hm : m.IsTiming) : cfg.aggregate s m = cfg.aggregateTiming m s := by
  unfold aggregate
  rcases hm with h | h <;> rw [h]

theorem aggregate_of_not_isTiming (cfg : Config 𝔽) (s : State 𝔽) (hm : ¬m.IsTiming) :
    ∃ s', cfg.aggregate s m = some s' ∧ s'.timings = s.timings := by
  unfold aggregate
  cases hm' : m.mtype with
  | timing => exact absurd (.inl hm') hm
  | histogram => exact absurd (.inr hm') hm
  | _ => exact ⟨_, rfl, rfl⟩

section

variable (hlimit : 1 ≤ cfg.percentileLimit) (h : s.Limited cfg)

include hlimit h

theorem Limited.getD (hash field : GoString) :
    ((s.timings.field hash field).getD (.new cfg.floats cfg.percentileLimit)).Limited cfg.makes
        cfg.percentileLimit ∧
      (((s.timings.field hash field).getD (.new cfg.floats cfg.percentileLimit)).perc ≠ [] ↔
        s.HasSample hash field) := by
  unfold State.HasSample
  cases hold : s.timings.field hash field with
  | none => exact ⟨RunningStats.limited_new cfg.floats hlimit, by simp [RunningStats.new]⟩
  | some => exact ⟨h.field hold, by simp⟩

theorem timings_aggregateTiming (hs' : cfg.aggregateTiming m s = some s') :
    ∃ rs, s'.timings = s.timings.touch m (fun _ => rs) ∧
      rs.Limited cfg.makes cfg.percentileLimit ∧
      (rs.perc ≠ [] ↔ 1 ≤ cfg.floats.samples m ∨ s.HasSample m.hash m.field) := by
  obtain ⟨hold, hsample⟩ := Limited.getD hlimit h m.hash m.field
  obtain ⟨r, hr, hs'⟩ := bind_eq_some_iff.1 hs'
  obtain ⟨hlimited, hiff⟩ := RunningStats.Limited.addValues hlimit cfg.intn hold hr
  cases hs'
  exact ⟨r.1, rfl, hlimited, hiff.trans (or_congr_right hsample)⟩

theorem isSome_aggregate
    (hmakes : m.IsTiming → 1 ≤ cfg.floats.samples m → cfg.makes cfg.percentileLimit = true) :
    (cfg.aggregate s m).isSome = true := by
  by_cases hm : m.IsTiming
  · obtain ⟨hold, -⟩ := Limited.getD hlimit h m.hash m.field
    obtain ⟨r, hr⟩ := isSome_iff_exists.1 (hold.isSome_addValues (F := cfg.floats)
      (v := m.floatvalue) (n := cfg.floats.samples m) hlimit cfg.intn (hmakes hm))
    rw [aggregate_of_isTiming hm, aggregateTiming, hr]
    rfl
  · obtain ⟨_, hs', -⟩ := aggregate_of_not_isTiming cfg s hm
    rw [hs']
    rfl

end

/-- What metrics do to the timings. -/
structure Aggregated (cfg : Config 𝔽) (s : State 𝔽) (ms : List (StatsdMetric 𝔽)) (s' : State 𝔽) :
    Prop where
  limited : s'.Limited cfg
  isSome : ∀ hash field, (s'.timings.field hash field).isSome = true ↔
    (s.timings.field hash field).isSome = true ∨
      ∃ m ∈ ms, m.IsTiming ∧ m.hash = hash ∧ m.field = field
  hasSample : ∀ hash field, s'.HasSample hash field ↔ s.HasSample hash field ∨
    ∃ m ∈ ms, m.IsTiming ∧ m.hash = hash ∧ m.field = field ∧ 1 ≤ cfg.floats.samples m

theorem Aggregated.nil (h : s.Limited cfg) : Aggregated cfg s [] s :=
  ⟨h, by simp, by simp⟩

theorem Aggregated.append {s s₁ s₂ : State 𝔽} {ms ms' : List (StatsdMetric 𝔽)}
    (h : Aggregated cfg s ms s₁) (h' : Aggregated cfg s₁ ms' s₂) :
    Aggregated cfg s (ms ++ ms') s₂ := by
  refine ⟨h'.limited, fun hash field => ?_, fun hash field => ?_⟩
  · rw [h'.isSome, h.isSome, or_assoc]
    simp only [mem_append, or_and_right, exists_or]
  · rw [h'.hasSample, h.hasSample, or_assoc]
    simp only [mem_append, or_and_right, exists_or]

theorem aggregated_aggregate (hlimit : 1 ≤ cfg.percentileLimit) (h : s.Limited cfg)
    (hs' : cfg.aggregate s m = some s') : Aggregated cfg s [m] s' := by
  by_cases hm : m.IsTiming
  · rw [aggregate_of_isTiming hm] at hs'
    obtain ⟨rs, heq, hlimited, hsample⟩ := timings_aggregateTiming hlimit h hs'
    have hfield : ∀ hash field, s'.timings.field hash field =
        if hash = m.hash ∧ field = m.field then some rs else s.timings.field hash field := by
      intro hash field
      rw [heq, Cache.field_touch]
    refine ⟨⟨by rw [heq]; exact h.wf.touch m _, fun {hash field rs'} hrs' => ?_⟩,
      fun hash field => ?_, fun hash field => ?_⟩
    · rw [hfield] at hrs'
      split_ifs at hrs'
      · rw [← some.inj hrs']
        exact hlimited
      · exact h.field hrs'
    · simp only [hfield, mem_singleton, exists_eq_left]
      split_ifs with hkey
      · simp [hm, hkey]
      · exact ⟨.inl, fun hor => hor.resolve_right fun hk => hkey ⟨hk.2.1.symm, hk.2.2.symm⟩⟩
    · simp only [State.HasSample, hfield, mem_singleton, exists_eq_left]
      split_ifs with hkey
      · obtain ⟨rfl, rfl⟩ := hkey
        have hiff : (∃ rs', some rs = some rs' ∧ rs'.perc ≠ []) ↔ rs.perc ≠ [] := by simp
        rw [hiff, hsample, or_comm]
        exact or_congr_right ⟨fun hle => ⟨hm, rfl, rfl, hle⟩, fun hk => hk.2.2.2⟩
      · exact ⟨.inl, fun hor => hor.resolve_right fun hk => hkey ⟨hk.2.1.symm, hk.2.2.1.symm⟩⟩
  · obtain ⟨_, hs₁, heq⟩ := aggregate_of_not_isTiming cfg s hm
    obtain rfl := some.inj (hs₁.symm.trans hs')
    refine ⟨⟨by rw [heq]; exact h.wf, fun {hash field rs} hrs => ?_⟩, fun hash field => ?_,
      fun hash field => ?_⟩
    · rw [heq] at hrs
      exact h.field hrs
    · rw [heq]
      simp [hm]
    · rw [State.HasSample, heq]
      simp [hm, State.HasSample]

theorem aggregated_run (hlimit : 1 ≤ cfg.percentileLimit) (h : s.Limited cfg)
    {ms : List (StatsdMetric 𝔽)} (hs' : Machine.run cfg.aggregate s ms = some s') :
    Aggregated cfg s ms s' :=
  run_induction (P := fun ms s' => Aggregated cfg s ms s') (Aggregated.nil h)
    (fun _ _ _ _ hP hstep => hP.append (aggregated_aggregate hlimit hP.limited hstep)) hs'

theorem isSome_run_aggregate (hlimit : 1 ≤ cfg.percentileLimit) :
    ∀ {ms : List (StatsdMetric 𝔽)} {s : State 𝔽}, s.Limited cfg →
      (∀ m ∈ ms, m.IsTiming → 1 ≤ cfg.floats.samples m →
        cfg.makes cfg.percentileLimit = true) → (Machine.run cfg.aggregate s ms).isSome = true
  | [], _, _, _ => rfl
  | m :: ms, s, h, hmakes => by
    obtain ⟨_, hs₁⟩ := isSome_iff_exists.1
      (isSome_aggregate hlimit h (hmakes m mem_cons_self))
    rw [run_cons, hs₁]
    exact isSome_run_aggregate hlimit (aggregated_aggregate hlimit h hs₁).limited
      fun m' hm' => hmakes m' (mem_cons_of_mem m hm')

/-- Each timing of the line whose entry is not there yet gets a sample from the line, unless the
line panics, for a limit that `make` refuses. -/
def Config.LineOk (cfg : Config 𝔽) (s : State 𝔽) (line : GoString) : Prop :=
  ∀ m ∈ (cfg.parseLine line).1, m.IsTiming →
    (s.timings.field m.hash m.field).isSome = true ∨
      ∃ m' ∈ (cfg.parseLine line).1, m'.IsTiming ∧ 1 ≤ cfg.floats.samples m' ∧
        (cfg.makes cfg.percentileLimit = true → m'.hash = m.hash ∧ m'.field = m.field)

instance (cfg : Config 𝔽) (s : State 𝔽) (line : GoString) : Decidable (cfg.LineOk s line) :=
  inferInstanceAs (Decidable (∀ m ∈ (cfg.parseLine line).1, _ → _))

theorem Limited.makes_of_hasSample (h : s.Limited cfg) {hash field : GoString}
    (hsample : s.HasSample hash field) : cfg.makes cfg.percentileLimit = true := by
  obtain ⟨_, hrs, hne⟩ := hsample
  exact (h.field hrs).made (.inr hne)

variable {line : GoString}

theorem sampled_of_lineOk (hlimit : 1 ≤ cfg.percentileLimit) (h : s.Limited cfg) (hs : s.Sampled)
    (hok : cfg.LineOk s line) (hs' : cfg.parseStatsdLine s line = some s') :
    s'.Limited cfg ∧ s'.Sampled := by
  have ha := aggregated_run hlimit h hs'
  refine ⟨ha.limited, (sampled_iff ha.limited.wf).2 fun hash field hafter => ?_⟩
  have hold := (sampled_iff h.wf).1 hs hash field
  rcases (ha.isSome hash field).1 hafter with hbefore | ⟨m, hm, htiming, rfl, rfl⟩
  · exact (ha.hasSample _ _).2 (.inl (hold hbefore))
  · rcases hok m hm htiming with hbefore | ⟨m', hm', htiming', hsamples, hkey⟩
    · exact (ha.hasSample _ _).2 (.inl (hold hbefore))
    · have hsample := (ha.hasSample m'.hash m'.field).2
        (.inr ⟨m', hm', htiming', rfl, rfl, hsamples⟩)
      obtain ⟨hhash, hfield⟩ := hkey (Limited.makes_of_hasSample ha.limited hsample)
      rwa [hhash, hfield] at hsample

theorem not_sampled_of_not_lineOk (hlimit : 1 ≤ cfg.percentileLimit) (h : s.Limited cfg)
    (hok : ¬cfg.LineOk s line) : ∃ s', cfg.parseStatsdLine s line = some s' ∧ ¬s'.Sampled := by
  unfold LineOk at hok
  push Not at hok
  obtain ⟨m, hm, htiming, hnone, hall⟩ := hok
  obtain ⟨s', hs'⟩ := isSome_iff_exists.1 (isSome_run_aggregate hlimit h
    fun m' hm' htiming' hsamples => (hall m' hm' htiming' hsamples).1)
  have ha := aggregated_run hlimit h hs'
  refine ⟨s', hs', fun hsampled => ?_⟩
  have hafter := (ha.isSome m.hash m.field).2 (.inr ⟨m, hm, htiming, rfl, rfl⟩)
  have hsample := (sampled_iff ha.limited.wf).1 hsampled _ _ hafter
  rcases (ha.hasSample _ _).1 hsample with ⟨_, hrs, -⟩ | ⟨m', hm', htiming', hhash, hfield, hle⟩
  · exact hnone (by rw [hrs]; rfl)
  · exact (hall m' hm' htiming' hle).2 hhash hfield

/-! ## Gather -/

theorem isSome_mapM {α β : Type} {f : α → Option β} : ∀ {l : List α},
    (∀ x ∈ l, (f x).isSome = true) → (l.mapM f).isSome = true
  | [], _ => rfl
  | x :: l, h => by
    obtain ⟨y, hy⟩ := isSome_iff_exists.1 (h x mem_cons_self)
    obtain ⟨_, hys⟩ := isSome_iff_exists.1 (isSome_mapM fun z hz => h z (mem_cons_of_mem x hz))
    rw [mapM_cons, hy, bind_eq_bind, bind_some, hys]
    rfl

variable {rs : RunningStats 𝔽}

theorem isSome_percentileFields {pre : GoString} : ∀ {ps : List 𝔽},
    (∀ p ∈ ps, (rs.percentile cfg.floats p).isSome = true) →
      (cfg.percentileFields pre rs ps).isSome = true
  | [], _ => rfl
  | p :: ps, h => by
    obtain ⟨v, hv⟩ := isSome_iff_exists.1 (h p mem_cons_self)
    obtain ⟨_, hrest⟩ := isSome_iff_exists.1
      (isSome_percentileFields fun q hq => h q (mem_cons_of_mem p hq) :
        (cfg.percentileFields pre rs ps).isSome = true)
    simp [percentileFields, hv, hrest]

variable {Finite NaN : 𝔽 → Prop}

/-- `Gather` returns if every timing has a sample. -/
theorem isSome_gather (hF : cfg.floats.Laws Finite NaN)
    (hmakes : ∀ cap, cfg.makes cap = true → cap ≤ 2 ^ 53)
    (hfinite : ∀ p ∈ cfg.percentiles, Finite p) (h : s.Limited cfg) (hs : s.Sampled) :
    (cfg.gather s).isSome = true := by
  have hreport : ∀ e ∈ s.timings, (cfg.reportTiming e.2).isSome = true := by
    intro e he
    have hfields : (e.2.fields.mapM fun f => cfg.timingFields f.1 f.2).isSome = true := by
      refine isSome_mapM fun f hf => ?_
      have hlimited : f.2.Limited cfg.makes cfg.percentileLimit :=
        h.field (h.wf.field_eq_some.2 ⟨e.2, he, hf⟩)
      obtain ⟨hsorted, hlen⟩ := hlimited.sortPerc hF
      have hne : (f.2.sortPerc cfg.floats).perc ≠ [] := by
        rw [← length_pos_iff, hlen, length_pos_iff]
        exact hs e he f hf
      rw [timingFields, isSome_map]
      exact isSome_percentileFields fun p hp =>
        RunningStats.isSome_percentile hF hmakes hsorted hne (hfinite p hp)
    obtain ⟨fields, hfields⟩ := isSome_iff_exists.1 hfields
    rw [reportTiming, hfields]
    rfl
  obtain ⟨timings, htimings⟩ := isSome_iff_exists.1 (isSome_mapM hreport)
  rw [gather, htimings]
  rfl

theorem WF.map_fields {β : Type} {cache : Cache β} (hwf : cache.WF) (g : β → β) :
    Cache.WF (cache.map fun e =>
      (e.1, { e.2 with fields := e.2.fields.map fun f => (f.1, g f.2) })) := by
  refine ⟨?_, fun e he => ?_⟩
  · rw [map_map]
    exact hwf.keys
  · obtain ⟨e₀, he₀, rfl⟩ := mem_map.1 he
    dsimp only
    rw [map_map]
    exact hwf.fields e₀ he₀

theorem keepTiming_spec (hF : cfg.floats.Laws Finite NaN)
    (h : rs.Limited cfg.makes cfg.percentileLimit) :
    (cfg.keepTiming rs).Limited cfg.makes cfg.percentileLimit ∧
      ((cfg.keepTiming rs).perc ≠ [] ↔ rs.perc ≠ []) := by
  obtain ⟨hsorted, hlen⟩ := h.sortPerc hF
  have hnil : (rs.sortPerc cfg.floats).perc ≠ [] ↔ rs.perc ≠ [] := by
    rw [← length_pos_iff, hlen, length_pos_iff]
  unfold keepTiming
  split_ifs
  · exact ⟨h, Iff.rfl⟩
  · exact ⟨⟨h.percLimit, hsorted.length_le, fun hor => h.made (hor.imp_right hnil.1)⟩, hnil⟩

variable {reports : List (Report 𝔽)}

theorem timings_gather (hs' : cfg.gather s = some (reports, s')) :
    s'.timings = if cfg.deleteTimings then [] else s.timings.map fun e => (e.1,
      { e.2 with fields := e.2.fields.map fun f => (f.1, cfg.keepTiming f.2) }) := by
  obtain ⟨timings, -, hs'⟩ := bind_eq_some_iff.1 hs'
  obtain ⟨-, rfl⟩ := Prod.mk.inj (some.inj hs')
  rfl

theorem sampled_gather (hF : cfg.floats.Laws Finite NaN) (h : s.Limited cfg) (hs : s.Sampled)
    (hs' : cfg.gather s = some (reports, s')) : s'.Limited cfg ∧ s'.Sampled := by
  have htimings := timings_gather hs'
  split_ifs at htimings with hdelete
  · have hfield : ∀ hash field, s'.timings.field hash field = none := fun hash field => by
      rw [htimings]
      rfl
    refine ⟨⟨by rw [htimings]; exact Cache.WF.nil, fun {hash field rs} hrs => ?_⟩, fun e he => ?_⟩
    · rw [hfield] at hrs
      cases hrs
    · rw [htimings] at he
      cases he
  · have hwf : s'.timings.WF := by
      rw [htimings]
      exact WF.map_fields h.wf _
    have hmem : ∀ e ∈ s'.timings, ∀ f ∈ e.2.fields,
        f.2.Limited cfg.makes cfg.percentileLimit ∧ f.2.perc ≠ [] := by
      intro e he f hf
      rw [htimings] at he
      obtain ⟨e₀, he₀, rfl⟩ := mem_map.1 he
      obtain ⟨f₀, hf₀, rfl⟩ := mem_map.1 hf
      obtain ⟨hlimited, hiff⟩ :=
        keepTiming_spec hF (h.field (h.wf.field_eq_some.2 ⟨e₀.2, he₀, hf₀⟩))
      exact ⟨hlimited, hiff.2 (hs e₀ he₀ f₀ hf₀)⟩
    refine ⟨⟨hwf, fun {hash field rs} hrs => ?_⟩, fun e he f hf => (hmem e he f hf).2⟩
    obtain ⟨_, hcached, hrs⟩ := hwf.field_eq_some.1 hrs
    exact (hmem _ hcached _ hrs).1

/-! ## Runs -/

/-- A line that is received, or a call of `Gather`. -/
inductive Op where
  | line (l : GoString)
  | gather
deriving Repr, DecidableEq

def Config.step (cfg : Config 𝔽) (s : State 𝔽) : Op → Option (State 𝔽)
  | .line l => cfg.parseStatsdLine s l
  | .gather => (cfg.gather s).map Prod.snd

/-- No line makes an entry that it leaves without a sample. -/
def Config.StepOk (cfg : Config 𝔽) (s : State 𝔽) : Op → Prop
  | .line l => cfg.LineOk s l
  | .gather => True

instance (cfg : Config 𝔽) (s : State 𝔽) : ∀ op, Decidable (cfg.StepOk s op)
  | .line l => inferInstanceAs (Decidable (cfg.LineOk s l))
  | .gather => isTrue trivial

/-- Along a run every timing has a sample and `Gather` does not panic, if and only if every line
gives a sample to each timing that it makes. -/
theorem gather_safe_iff {Finite NaN : 𝔽 → Prop} (hF : cfg.floats.Laws Finite NaN)
    (hmakes : ∀ cap, cfg.makes cap = true → cap ≤ 2 ^ 53) (hlimit : 1 ≤ cfg.percentileLimit)
    (hfinite : ∀ p ∈ cfg.percentiles, Finite p) (ops : List Op) :
    (∀ pre s, pre <+: ops → Machine.run cfg.step State.init pre = some s →
        s.Sampled ∧ (cfg.gather s).isSome = true) ↔
      AllSteps cfg.step cfg.StepOk State.init ops := by
  refine forall_run_iff_allSteps (P := fun _ s => s.Limited cfg ∧ s.Sampled)
    (fun _ s h => ⟨h.2, isSome_gather hF hmakes hfinite h.1 h.2⟩) (fun op _ s s' h hok hs' => ?_)
    (fun op _ s h hok => ?_) ops State.init
    ⟨⟨Cache.WF.nil, fun hrs => nomatch hrs⟩, by simp [State.Sampled, State.init]⟩
  · cases op with
    | line => exact sampled_of_lineOk hlimit h.1 h.2 hok hs'
    | gather =>
      obtain ⟨r, hr, rfl⟩ := map_eq_some_iff.1 hs'
      exact sampled_gather hF h.1 h.2 hr
  · cases op with
    | line =>
      obtain ⟨s', hs', hnot⟩ := not_sampled_of_not_lineOk hlimit h.1 hok
      exact ⟨s', hs', fun hgood => hnot hgood.1⟩
    | gather => exact absurd trivial hok

/-- Integers in the place of `float64`. -/
def integers : Floats ℤ where
  ofInt x := x
  toInt := Int64.ofInt
  add := (· + ·)
  sub := (· - ·)
  mul := (· * ·)
  div := (· / ·)
  sqrt x := x.toNat.sqrt
  lt x y := x < y
  eq x y := x = y
  sort l := l.insertionSort (· ≤ ·)
  parseFloat s :=
    if s = [] then none
    else s.foldl (fun v b => if 48 ≤ b ∧ b ≤ 57 then v.map fun v => 10 * v + (b.toNat - 48)
      else none) (some 0)
  format _ := str "90"

theorem integers_laws : integers.Laws (fun _ => True) fun _ => False where
  sort_perm l := perm_insertionSort _ l
  finite_hundred := trivial
  not_nan _ _ _ h := h
  toInt_mem x max hmax hlt _ hlow hhigh := by
    have hx : 0 ≤ x ∧ x ≤ max := ⟨not_lt.1 (of_decide_eq_false hlow),
      not_lt.1 (of_decide_eq_false hhigh)⟩
    have heq : (Int64.ofInt x).toInt = x := Int64.toInt_ofInt_of_le (by omega) (by omega)
    show 0 ≤ (Int64.ofInt x).toInt ∧ (Int64.ofInt x).toInt ≤ max
    rw [heq]
    exact hx

/-- The 90th percentile, of at most two values. -/
def integerConfig : Config ℤ where
  floats := integers
  parseInt s := (integers.parseFloat s).map Int64.ofInt
  applyTemplate := none
  intn _ _ := 0
  makes cap := decide (0 ≤ cap ∧ cap ≤ 1000)
  dataDogExtensions := false
  convertNames := false
  percentiles := [90]
  percentileLimit := 2
  deleteTimings := true
  deleteGauges := true
  deleteCounters := true
  deleteSets := true

theorem gather_safe_three_timings :
    1 ≤ integerConfig.percentileLimit ∧
    ∀ pre s, pre <+: [Op.line (str "a:1|ms:2|ms"), .gather, .line (str "a:3|ms|@1")] →
      Machine.run integerConfig.step State.init pre = some s →
        s.Sampled ∧ (integerConfig.gather s).isSome = true := by
  have hmakes : ∀ cap, integerConfig.makes cap = true → cap ≤ 2 ^ 53 := by
    intro cap h
    have hcap := (of_decide_eq_true h).2
    omega
  exact ⟨by decide, (gather_safe_iff integers_laws hmakes (by decide) (fun _ _ => trivial) _).2
    (by decide)⟩

/-- A sample rate of 2 makes the next `Gather` panic. -/
theorem gather_panics_rate_two :
    (Machine.run integerConfig.step State.init [.line (str "a:1|ms|@2")]).map
      integerConfig.gather = some none := by
  decide

end Telegraf.Statsd
