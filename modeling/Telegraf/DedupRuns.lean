import Telegraf.KeyedLists
import Telegraf.ProcessorHandles

/-!
# What dedup withholds

The processor `dedup` over a run, given one metric at a time. It should withhold only exact
repetitions : a metric whose fields are the ones of the metric of the series that was emitted last,
while that one is younger than the interval. The cache has that metric, as long as `cleanup` has not
found it expired. But `Apply` compares only the fields that both metrics have, so a metric with a
field that the last one did not have, or without one that it had, is withheld too. Along a run every
metric is treated as it should be if and only if no metric comes with other field keys and the same
values for the common ones while the last one is fresh (`exact_iff_no_partial_repetition`).
-/

namespace Telegraf

open KeyedLists List

variable {𝔽 : Type}

/-! ## Comparing fields -/

namespace Metric

/-- The metrics have the same set of field keys. -/
def SameKeys (m last : Metric 𝔽) : Prop :=
  ∀ key, m.hasField key = last.hasField key

/-- Fields that both metrics have are equal. -/
def Agrees [GoFloat 𝔽] (m last : Metric 𝔽) : Prop :=
  ∀ key v v', m.getField key = some v → last.getField key = some v' → v'.goEq v = true

/-- A field of `m` is not in `last`, or has another value there. -/
def HasNews [GoFloat 𝔽] (m last : Metric 𝔽) : Prop :=
  ∃ key v, m.getField key = some v ∧ ∀ v', last.getField key = some v' → v'.goEq v = false

theorem getField_eq_some_iff (m : Metric 𝔽) {key : GoString} {v : FieldValue 𝔽} :
    m.getField key = some v ↔ ⟨key, v⟩ ∈ m.fields := by
  have hlookup : m.getField key = lookup Field.key Field.value m.fields key := rfl
  rw [hlookup, lookup_eq_some_iff m.fields_nodup]
  constructor
  · rintro ⟨f, hf, rfl, rfl⟩
    exact hf
  · intro h
    exact ⟨_, h, rfl, rfl⟩

theorem isSome_getField_eq (m : Metric 𝔽) (key : GoString) :
    (m.getField key).isSome = m.hasField key :=
  isSome_lookup m.fields key

theorem sameKeys_iff (m last : Metric 𝔽) :
    m.SameKeys last ↔
      (∀ f ∈ m.fields, last.hasField f.key) ∧ ∀ f ∈ last.fields, m.hasField f.key := by
  constructor
  · intro h
    refine ⟨fun f hf => ?_, fun f hf => ?_⟩
    · rw [← h f.key]
      exact any_eq_true.2 ⟨f, hf, beq_self_eq_true _⟩
    · rw [h f.key]
      exact any_eq_true.2 ⟨f, hf, beq_self_eq_true _⟩
  · rintro ⟨hm, hlast⟩ key
    refine Bool.eq_iff_iff.2 ⟨fun h => ?_, fun h => ?_⟩
    · obtain ⟨f, hf, hkey⟩ := any_eq_true.1 h
      exact eq_of_beq hkey ▸ hm f hf
    · obtain ⟨f, hf, hkey⟩ := any_eq_true.1 h
      exact eq_of_beq hkey ▸ hlast f hf

instance instDecidableSameKeys (m last : Metric 𝔽) : Decidable (m.SameKeys last) :=
  decidable_of_iff _ (sameKeys_iff m last).symm

/-- What repeats a metric exactly has no news. -/
theorem SameKeys.not_hasNews [GoFloat 𝔽] {m last : Metric 𝔽} (hkeys : m.SameKeys last)
    (hagrees : m.Agrees last) : ¬m.HasNews last := by
  rintro ⟨key, v, hv, hnews⟩
  have hsome : (last.getField key).isSome := by
    rw [isSome_getField_eq, ← hkeys key, ← isSome_getField_eq, hv]
    rfl
  obtain ⟨v', hv'⟩ := Option.isSome_iff_exists.1 hsome
  exact absurd (hnews v' hv') (by rw [hagrees key v v' hv hv']; decide)

end Metric

theorem Dedup.changed_eq_false_iff [GoFloat 𝔽] (m cached : Metric 𝔽) :
    changed m cached = false ↔ m.Agrees cached := by
  rw [changed, any_eq_false]
  constructor
  · intro h key v v' hv hv'
    have hf := h ⟨key, v⟩ (m.getField_eq_some_iff.1 hv)
    simpa [hv'] using hf
  · intro h f hf
    cases hc : cached.getField f.key with
    | none => simp
    | some v' => simp [h f.key f.value v' (m.getField_eq_some_iff.2 hf) hc]

instance Metric.instDecidableAgrees [GoFloat 𝔽] (m last : Metric 𝔽) : Decidable (m.Agrees last) :=
  decidable_of_iff _ (Dedup.changed_eq_false_iff m last)

/-! ## Runs -/

/-- One call of `Apply` with one metric. -/
structure DedupCall (𝔽 : Type) where
  clock : DedupClock
  handle : Handle 𝔽

/-- The readings of a call with one metric in the order in which they are taken. -/
structure DedupClock.Ordered (clock : DedupClock) : Prop where
  check : clock.check 0 ≤ clock.sinceFlush
  sinceFlush : clock.sinceFlush ≤ clock.flush
  flush : ∀ id, clock.flush ≤ clock.keep id

/-- The clock readings do not decrease, within a call and from call to call. -/
structure NonDecreasing (calls : List (DedupCall 𝔽)) : Prop where
  within : ∀ c ∈ calls, c.clock.Ordered
  between : calls.Pairwise fun c c' => ∀ id, c.clock.keep id ≤ c'.clock.check 0

/-- The processor and the metrics that it has emitted so far. -/
structure DedupRun (𝔽 : Type) where
  dedup : Dedup 𝔽
  tracker : Tracker
  emitted : List (Metric 𝔽)

/-- The metric of the series that was emitted last. -/
def lastEmitted (emitted : List (Metric 𝔽)) (id : UInt64) : Option (Metric 𝔽) :=
  emitted.reverse.find? fun m => m.hashID == id

theorem lastEmitted_concat (emitted : List (Metric 𝔽)) (m : Metric 𝔽) (id : UInt64) :
    lastEmitted (emitted ++ [m]) id = if m.hashID = id then some m else lastEmitted emitted id := by
  by_cases h : m.hashID = id <;> simp [lastEmitted, h]

namespace DedupRun

/-- The processor as `init` makes it, at the time `now` and with the interval of the
configuration. -/
def new (dedupInterval now : ℤ) (w : Tracker) : DedupRun 𝔽 :=
  ⟨⟨dedupInterval, now, fun _ => none⟩, w, []⟩

variable [GoFloat 𝔽]

section

variable (s : DedupRun 𝔽) (c : DedupCall 𝔽)

/-- A call, and what it emits. -/
def step : Option (DedupRun 𝔽) :=
  (s.dedup.apply c.clock s.tracker [c.handle]).map fun r =>
    ⟨r.1, r.2.1, s.emitted ++ r.2.2.map Handle.metric⟩

/-- The metric `last` of the series was emitted last and is younger than the interval when `Apply`
looks at the age. -/
def Fresh (last : Metric 𝔽) : Prop :=
  lastEmitted s.emitted c.handle.metric.hashID = some last ∧
    since (c.clock.check 0) last.tm < s.dedup.dedupInterval

/-- `Apply` returns. It withholds the metric only if it is an exact repetition of a fresh one, and
what is new reaches the output. -/
def Exact : Prop :=
  ∃ d w out, s.dedup.apply c.clock s.tracker [c.handle] = some (d, w, out) ∧
    (out ≠ [c.handle] → ∃ last, s.Fresh c last ∧ c.handle.metric.SameKeys last ∧
      c.handle.metric.Agrees last) ∧
    ((∀ last, lastEmitted s.emitted c.handle.metric.hashID = some last →
      c.handle.metric.HasNews last) → out = [c.handle])

/-- A metric that agrees with a fresh one in the common fields has the same field keys. -/
def NoPartialRepetition : Prop :=
  ∀ last, s.Fresh c last → c.handle.metric.Agrees last → c.handle.metric.SameKeys last

end

instance instDecidableNoPartialRepetition (s : DedupRun 𝔽) (c : DedupCall 𝔽) :
    Decidable (s.NoPartialRepetition c) :=
  decidable_of_iff (∀ last ∈ lastEmitted s.emitted c.handle.metric.hashID,
      since (c.clock.check 0) last.tm < s.dedup.dedupInterval → c.handle.metric.Agrees last →
        c.handle.metric.SameKeys last)
    ⟨fun h last hfresh => h last hfresh.1 hfresh.2, fun h last hlast hage => h last ⟨hlast, hage⟩⟩

end DedupRun

/-! ## The cache -/

theorem since_mono {now now' : ℤ} (h : now ≤ now') (t : ℤ) : since now t ≤ since now' t :=
  max_le_max_left _ (min_le_min_left _ (Int.sub_le_sub_right h t))

namespace Dedup

theorem dedupInterval_cleanup (clock : DedupClock) (d : Dedup 𝔽) :
    (d.cleanup clock).dedupInterval = d.dedupInterval := by
  rw [cleanup]
  split <;> rfl

/-- `cleanup` only takes out what has expired. -/
theorem cache_cleanup (clock : DedupClock) (d : Dedup 𝔽) (id : UInt64) :
    (d.cleanup clock).cache id = d.cache id ∨ (d.cleanup clock).cache id = none ∧
      ∀ m, d.cache id = some m → d.dedupInterval ≤ since (clock.keep id) m.tm := by
  rw [cleanup]
  split_ifs
  · exact .inl rfl
  · cases hc : d.cache id with
    | none => exact .inl (by simp [hc])
    | some m =>
      by_cases hage : since (clock.keep id) m.tm < d.dedupInterval
      · exact .inl (by simp [hc, hage])
      · refine .inr ⟨by simp [hc, not_lt.1 hage], fun m' hm' => ?_⟩
        cases hm'
        exact not_lt.1 hage

theorem cache_save (d : Dedup 𝔽) (w : Tracker) (h : Handle 𝔽) (id : UInt64) :
    (d.save w h id).1.cache = Function.update d.cache id (some h.metric) := by
  cases hid : h.id <;> simp [save, Tracker.copy, hid]

end Dedup

/-- The cache after the calls `hist`, which emitted `emitted` : of each series it has the metric
that was emitted last, or `cleanup` has found that one expired. -/
structure Caches (hist : List (DedupCall 𝔽)) (d : Dedup 𝔽) (emitted : List (Metric 𝔽)) : Prop where
  last : ∀ id m, d.cache id = some m → lastEmitted emitted id = some m
  cached : ∀ id m, lastEmitted emitted id = some m → d.cache id = some m ∨
    ∃ c ∈ hist, d.dedupInterval ≤ since (c.clock.keep id) m.tm

namespace Caches

variable {hist : List (DedupCall 𝔽)} {d : Dedup 𝔽} {emitted : List (Metric 𝔽)}

theorem save (h : Caches hist d emitted) (w : Tracker) (x : Handle 𝔽) :
    Caches hist (d.save w x x.metric.hashID).1 (emitted ++ [x.metric]) := by
  constructor
  · intro id m hm
    rw [Dedup.cache_save] at hm
    rw [lastEmitted_concat]
    split_ifs with hid
    · rwa [← hid, Function.update_self] at hm
    · rw [Function.update_of_ne (Ne.symm hid)] at hm
      exact h.last id m hm
  · intro id m hm
    rw [lastEmitted_concat] at hm
    rw [Dedup.cache_save]
    split_ifs at hm with hid
    · rw [← hid, Function.update_self]
      exact .inl hm
    · rw [Function.update_of_ne (Ne.symm hid)]
      exact h.cached id m hm

theorem cleanup (h : Caches hist d emitted) (c : DedupCall 𝔽) :
    Caches (hist ++ [c]) (d.cleanup c.clock) emitted := by
  constructor
  · intro id m hm
    rcases d.cache_cleanup c.clock id with heq | ⟨hnone, -⟩
    · exact h.last id m (heq ▸ hm)
    · rw [hnone] at hm
      cases hm
  · intro id m hm
    rw [Dedup.dedupInterval_cleanup]
    rcases h.cached id m hm with hcache | ⟨c', hc', hage⟩
    · rcases d.cache_cleanup c.clock id with heq | ⟨-, hexpired⟩
      · exact .inl (heq.trans hcache)
      · exact .inr ⟨c, by simp, hexpired m hcache⟩
    · exact .inr ⟨c', mem_append_left _ hc', hage⟩

/-- At a later reading the cache has the metric of a series that was emitted last, unless it is
too old anyway. -/
theorem suppresses_iff [GoFloat 𝔽] (h : Caches hist d emitted) {now : ℤ}
    (hnow : ∀ c ∈ hist, ∀ id, c.clock.keep id ≤ now) (m : Metric 𝔽) :
    d.suppresses now m = true ↔ ∃ last, lastEmitted emitted m.hashID = some last ∧
      since now last.tm < d.dedupInterval ∧ m.Agrees last := by
  constructor
  · intro hs
    rw [Dedup.suppresses] at hs
    cases hc : d.cache m.hashID with
    | none => simp [hc] at hs
    | some last =>
      simp only [hc, Bool.and_eq_true, decide_eq_true_eq, Bool.not_eq_true'] at hs
      exact ⟨last, h.last _ _ hc, hs.1, (Dedup.changed_eq_false_iff m last).1 hs.2⟩
  · rintro ⟨last, hlast, hage, hagrees⟩
    rcases h.cached _ _ hlast with hc | ⟨c, hc, hexpired⟩
    · simp [Dedup.suppresses, hc, hage, (Dedup.changed_eq_false_iff m last).2 hagrees]
    · exact absurd hage (not_lt.2 (hexpired.trans (since_mono (hnow c hc _) _)))

end Caches

/-! ## Exact repetitions -/

namespace DedupRun

variable [GoFloat 𝔽] {hist : List (DedupCall 𝔽)} {s s' : DedupRun 𝔽} {c : DedupCall 𝔽}

/-- What a call does : it withholds the metric, or saves and emits it. -/
theorem step_cases (h : step s c = some s') :
    s' = ⟨s.dedup.cleanup c.clock, s.tracker, s.emitted⟩ ∨
      ∃ w, s' = ⟨(s.dedup.save s.tracker c.handle c.handle.metric.hashID).1.cleanup c.clock, w,
        s.emitted ++ [c.handle.metric]⟩ := by
  rw [step, Dedup.apply_singleton] at h
  split_ifs at h
  · cases h
    exact .inl (by simp)
  · cases h
    exact .inr ⟨_, rfl⟩

theorem caches_step (hs : Caches hist s.dedup s.emitted) (h : step s c = some s') :
    Caches (hist ++ [c]) s'.dedup s'.emitted := by
  rcases step_cases h with rfl | ⟨w, rfl⟩
  · exact hs.cleanup c
  · exact (hs.save s.tracker c.handle).cleanup c

theorem exact_iff (hs : Caches hist s.dedup s.emitted)
    (hnow : ∀ c' ∈ hist, ∀ id, c'.clock.keep id ≤ c.clock.check 0) :
    s.Exact c ↔ s.NoPartialRepetition c := by
  have hsup := hs.suppresses_iff hnow c.handle.metric
  rw [Exact, Dedup.apply_singleton]
  constructor
  · rintro ⟨d, w, _, happly, hwithheld, -⟩ last ⟨hlast, hage⟩ hagrees
    rw [if_pos (hsup.2 ⟨last, hlast, hage, hagrees⟩), Option.some.injEq] at happly
    obtain ⟨-, -, rfl⟩ := happly
    obtain ⟨_, ⟨hlast', -⟩, hkeys, -⟩ := hwithheld (cons_ne_nil _ _).symm
    obtain rfl := Option.some.inj (hlast'.symm.trans hlast)
    exact hkeys
  · intro hno
    split_ifs with hcase
    · obtain ⟨last, hlast, hage, hagrees⟩ := hsup.1 hcase
      have hkeys := hno last ⟨hlast, hage⟩ hagrees
      refine ⟨_, _, _, rfl, fun _ => ⟨last, ⟨hlast, hage⟩, hkeys, hagrees⟩, fun hnews => ?_⟩
      exact absurd (hnews last hlast) (hkeys.not_hasNews hagrees)
    · exact ⟨_, _, _, rfl, fun hne => absurd rfl hne, fun _ => rfl⟩

/-- For every sequence of metrics and clock readings that do not decrease : every metric that is
withheld is an exact repetition of the fresh one emitted last, and what is new reaches the output,
if and only if no metric comes with other field keys than a fresh one that it agrees with in the
common fields. -/
theorem exact_iff_no_partial_repetition (dedupInterval now : ℤ) (w : Tracker)
    (calls : List (DedupCall 𝔽)) (hclock : NonDecreasing calls) :
    Machine.AllSteps step Exact (new dedupInterval now w) calls ↔
      Machine.AllSteps step NoPartialRepetition (new dedupInterval now w) calls := by
  refine Machine.allSteps_congr (P := fun hist s => Caches hist s.dedup s.emitted) ?_ ?_ calls []
    _ rfl ⟨fun id m hm => ?_, fun id m hm => ?_⟩
  · intro hist s c hcalls hs
    refine exact_iff hs fun c' hc' => ?_
    have hbetween := hclock.between.sublist hcalls.sublist
    exact (pairwise_append.1 hbetween).2.2 c' hc' c (mem_singleton_self c)
  · intro hist s c _ hs _ hstep
    exact caches_step hs hstep
  · cases hm
  · cases hm

/-- A metric of the processor time, with the counters that were read. -/
def cpu (counters : List (String × Int64)) : Metric ℤ :=
  counters.foldl (fun m e => m.addField (str e.1) (.int e.2)) (.empty (str "cpu") 0 .untyped)

/-- Calls at the times 1, 2, and so on. -/
def ticks (ms : List (Metric ℤ)) : List (DedupCall ℤ) :=
  ms.zipIdx.map fun (m, i) => ⟨⟨fun _ => i + 1, i + 1, i + 1, fun _ => i + 1⟩, ⟨none, m⟩⟩

theorem nonDecreasing_ticks (ms : List (Metric ℤ)) : NonDecreasing (ticks ms) := by
  constructor
  · intro c hc
    obtain ⟨⟨m, i⟩, -, rfl⟩ := mem_map.1 hc
    exact ⟨le_rfl, le_rfl, fun _ => le_rfl⟩
  · refine pairwise_map.2 ((pairwise_iff_getElem.2 ?_))
    intro i j _ _ _ _
    simp only [getElem_zipIdx]
    omega

/-- A repetition, and then a metric with a new field and another value. -/
def threeTicks : List (DedupCall ℤ) :=
  ticks [cpu [("idle", 42)], cpu [("idle", 42)], cpu [("idle", 43), ("guest", 1)]]

theorem exact_repetition_three_ticks :
    NonDecreasing threeTicks ∧ Machine.AllSteps step Exact (new 600 0 ⟨[], []⟩) threeTicks := by
  refine ⟨nonDecreasing_ticks _, ?_⟩
  exact (exact_iff_no_partial_repetition 600 0 _ _ (nonDecreasing_ticks _)).2 (by decide +kernel)

/-- The counter `guest` is read for the first time. -/
def newField : List (DedupCall ℤ) :=
  ticks [cpu [("idle", 42)], cpu [("idle", 42), ("guest", 1)]]

theorem new_field_withheld :
    NonDecreasing newField ∧
      (Machine.run step (new 600 0 ⟨[], []⟩) newField).map DedupRun.emitted =
        some [cpu [("idle", 42)]] ∧
      ¬Machine.AllSteps step Exact (new 600 0 ⟨[], []⟩) newField := by
  refine ⟨nonDecreasing_ticks _, by decide +kernel, fun hall => ?_⟩
  obtain ⟨d, w, _, happly, hwithheld, -⟩ := (hall.2 _ rfl).1
  rw [Dedup.apply_singleton] at happly
  split_ifs at happly with hsuppresses
  · rw [Option.some.injEq] at happly
    obtain ⟨-, -, rfl⟩ := happly
    obtain ⟨_, ⟨hlast, -⟩, hkeys, -⟩ := hwithheld (cons_ne_nil _ _).symm
    cases hlast
    exact absurd hkeys (by decide +kernel)
  · exact hsuppresses (by decide +kernel)

end DedupRun

end Telegraf
