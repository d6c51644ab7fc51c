import Telegraf.StatsdTimings

/-!
# Series of counters and sets

What `Gather` reports of the counters and sets that lines brought to empty caches
(`plugins/inputs/statsd`). A series is kept under the text of its sorted tags and its name, with
nothing between them, so two series can have one text, and the first to come gives the entry its
name and tags.

`gather_faithful_iff` : each series is reported once, with the sums of its values and the numbers
of its strings, exactly if no two series that were sent have one text.
-/

open List

namespace Telegraf.Statsd

open KeyedLists Machine Telegraf.Statsd.Config

variable {𝔽 β : Type} {cfg : Config 𝔽} {s s' : State 𝔽} {ms : List (StatsdMetric 𝔽)}
  {m : StatsdMetric 𝔽} {upd : StatsdMetric 𝔽 → Option β → β} {cache : Cache β}

/-! ## Specification -/

/-- No two series have one text. -/
def Distinguished (ms : List (StatsdMetric 𝔽)) : Prop :=
  ∀ m ∈ ms, ∀ m' ∈ ms, seriesKey m.name m.tags = seriesKey m'.name m'.tags →
    m.name = m'.name ∧ m.tags = m'.tags

instance (ms : List (StatsdMetric 𝔽)) : Decidable (Distinguished ms) :=
  inferInstanceAs (Decidable (∀ m ∈ ms, ∀ m' ∈ ms, _ → _))

/-- The metrics of one field of one series. -/
def ofField (name : GoString) (tags : TagMap) (field : GoString) (ms : List (StatsdMetric 𝔽)) :
    List (StatsdMetric 𝔽) :=
  ms.filter fun m => m.name = name ∧ m.tags = tags ∧ m.field = field

/-- The reports are one for each series that was sent. Their fields are those that were sent, with a
value that depends on what was sent for the field. -/
structure Faithful (value : List (StatsdMetric 𝔽) → FieldValue 𝔽) (ms : List (StatsdMetric 𝔽))
    (reports : List (Report 𝔽)) : Prop where
  nodup_series : (reports.map fun r => (r.name, r.tags)).Nodup
  series : ∀ name tags, (∃ r ∈ reports, r.name = name ∧ r.tags = tags) ↔
    ∃ m ∈ ms, m.name = name ∧ m.tags = tags
  nodup_fields : ∀ r ∈ reports, (r.fields.map Prod.fst).Nodup
  fields : ∀ r ∈ reports, ∀ f v, (f, v) ∈ r.fields ↔
    ofField r.name r.tags f ms ≠ [] ∧ v = value (ofField r.name r.tags f ms)

/-- The sum of the values, modulo `2 ^ 64`. -/
def counterValue (ms : List (StatsdMetric 𝔽)) : FieldValue 𝔽 :=
  .int (.ofInt (ms.map fun m => m.intvalue.toInt).sum)

/-- The number of different strings. -/
def setValue (ms : List (StatsdMetric 𝔽)) : FieldValue 𝔽 :=
  .int (.ofNat (ms.map fun m => m.strvalue).toFinset.card)

/-! ## Entries -/

section

variable (upd : StatsdMetric 𝔽 → Option β → β)

/-- What a field holds after metrics for it. -/
def total (ms : List (StatsdMetric 𝔽)) : Option β :=
  ms.foldl (fun v m => some (upd m v)) none

theorem total_concat (ms : List (StatsdMetric 𝔽))
    (m : StatsdMetric 𝔽) : total upd (ms ++ [m]) = some (upd m (total upd ms)) :=
  foldl_append

theorem isSome_total (hne : ms ≠ []) : ∃ v, total upd ms = some v := by
  obtain ⟨l, m, rfl⟩ := (eq_nil_or_concat' ms).resolve_left hne
  exact ⟨_, total_concat upd l m⟩

end

/-- The cache after metrics, if it was empty. -/
structure Cache.Holds (upd : StatsdMetric 𝔽 → Option β → β) (ms : List (StatsdMetric 𝔽))
    (cache : Cache β) : Prop where
  wf : cache.WF
  series : ∀ e ∈ cache, ∃ m ∈ ms, m.hash = e.1 ∧ m.name = e.2.name ∧ m.tags = e.2.tags
  field : ∀ hash field, cache.field hash field =
    total upd (ms.filter fun m => m.hash = hash ∧ m.field = field)

theorem Cache.Holds.nil (upd : StatsdMetric 𝔽 → Option β → β) : Cache.Holds upd [] [] :=
  ⟨Cache.WF.nil, by simp, fun _ _ => rfl⟩

theorem Cache.Holds.touch (h : cache.Holds upd ms) (m : StatsdMetric 𝔽) :
    Cache.Holds upd (ms ++ [m]) (cache.touch m (upd m)) := by
  have hwf := h.wf.touch m (upd m)
  refine ⟨hwf, fun e he => ?_, fun hash field => ?_⟩
  · have hget := hwf.get_eq_some.2 (show (e.1, e.2) ∈ cache.touch m (upd m) from he)
    rw [Cache.get_touch] at hget
    split_ifs at hget with hhash
    · rw [← Option.some.inj hget, hhash]
      cases hold : get cache m.hash with
      | none => exact ⟨m, by simp, rfl, rfl, rfl⟩
      | some =>
        obtain ⟨m₀, hm₀, hseries⟩ := h.series _ (h.wf.get_eq_some.1 hold)
        exact ⟨m₀, mem_append_left _ hm₀, hseries⟩
    · obtain ⟨m₀, hm₀, hseries⟩ := h.series _ (h.wf.get_eq_some.1 hget)
      exact ⟨m₀, mem_append_left _ hm₀, hseries⟩
  · rw [Cache.field_touch, filter_append]
    split_ifs with hkey
    · obtain ⟨rfl, rfl⟩ := hkey
      rw [filter_cons_of_pos (by simp), filter_nil, total_concat, h.field]
    · have hother : ¬(m.hash = hash ∧ m.field = field) := fun hm => hkey ⟨hm.1.symm, hm.2.symm⟩
      rw [filter_cons_of_neg (by simpa using hother), filter_nil, append_nil, h.field]

/-- The reports of the entries of a cache. -/
def Cache.reports (kind : ReportKind) (g : β → FieldValue 𝔽) (cache : Cache β) : List (Report 𝔽) :=
  cache.map fun e => ⟨kind, e.2.name, e.2.fields.map fun f => (f.1, g f.2), e.2.tags⟩

namespace Cache.Holds

variable (h : cache.Holds upd ms) (hhash : ∀ m ∈ ms, m.hash = seriesKey m.name m.tags)
include h hhash

theorem key_eq {e : GoString × Cached β} (he : e ∈ cache) : e.1 = seriesKey e.2.name e.2.tags := by
  obtain ⟨m, hm, hkey, hname, htags⟩ := h.series e he
  rw [← hkey, hhash m hm, hname, htags]

theorem exists_entry (hm : m ∈ ms) : ∃ cached, (seriesKey m.name m.tags, cached) ∈ cache := by
  have hne : (ms.filter fun m' => m'.hash = m.hash ∧ m'.field = m.field) ≠ [] :=
    ne_nil_of_mem (mem_filter.2 ⟨hm, by simp⟩)
  obtain ⟨v, hv⟩ := isSome_total upd hne
  rw [← h.field] at hv
  obtain ⟨cached, hmem, -⟩ := h.wf.field_eq_some.1 hv
  rw [hhash m hm] at hmem
  exact ⟨cached, hmem⟩

theorem distinguished_of_series {kind : ReportKind} {g : β → FieldValue 𝔽}
    (hseries : ∀ m ∈ ms, ∃ r ∈ cache.reports kind g, r.name = m.name ∧ r.tags = m.tags) :
    Distinguished ms := by
  have hentry : ∀ m ∈ ms, ∃ e ∈ cache, e.2.name = m.name ∧ e.2.tags = m.tags ∧
      e.1 = seriesKey m.name m.tags := by
    intro m hm
    obtain ⟨r, hr, hname, htags⟩ := hseries m hm
    obtain ⟨e, he, rfl⟩ := mem_map.1 hr
    exact ⟨e, he, hname, htags, by rw [← hname, ← htags]; exact h.key_eq hhash he⟩
  intro m hm m' hm' heq
  obtain ⟨e, he, hname, htags, hkey⟩ := hentry m hm
  obtain ⟨e', he', hname', htags', hkey'⟩ := hentry m' hm'
  -- one key has one entry, and with it one name and one tag map
  have hsame : e = e' := inj_on_of_nodup_map h.wf.keys he he' (by rw [hkey, hkey', heq])
  exact ⟨by rw [← hname, ← hname', hsame], by rw [← htags, ← htags', hsame]⟩

section

variable (hd : Distinguished ms) {e : GoString × Cached β} (he : e ∈ cache) (f : GoString)

include hd he f

theorem filter_eq_ofField : (ms.filter fun m => m.hash = e.1 ∧ m.field = f) =
      ofField e.2.name e.2.tags f ms := by
  obtain ⟨m₀, hm₀, hkey, hname, htags⟩ := h.series e he
  refine filter_congr fun m hm => decide_eq_decide.2 ?_
  rw [← and_assoc]
  refine and_congr_left fun _ => ⟨fun hm' => ?_, fun ⟨hn, ht⟩ => ?_⟩
  · rw [← hname, ← htags]
    exact hd m hm m₀ hm₀ (by rw [← hhash m hm, ← hhash m₀ hm₀, hm', hkey])
  · rw [hhash m hm, hn, ht, h.key_eq hhash he]

theorem mem_fields_iff (b : β) :
    (f, b) ∈ e.2.fields ↔ total upd (ofField e.2.name e.2.tags f ms) = some b := by
  rw [← h.filter_eq_ofField hhash hd he, ← h.field, h.wf.field_eq_some]
  refine ⟨fun hb => ⟨e.2, he, hb⟩, fun ⟨cached, hcached, hb⟩ => ?_⟩
  have hsame : e = (e.1, cached) := inj_on_of_nodup_map h.wf.keys he hcached rfl
  rw [hsame]
  exact hb

end

/-- The reports are faithful if and only if the texts of the series are different. -/
theorem faithful_iff (kind : ReportKind) (g : β → FieldValue 𝔽)
    {value : List (StatsdMetric 𝔽) → FieldValue 𝔽}
    (hvalue : ∀ l v, total upd l = some v → g v = value l) :
    Faithful value ms (cache.reports kind g) ↔ Distinguished ms := by
  constructor
  · intro hf
    exact h.distinguished_of_series hhash fun m hm => (hf.series _ _).2 ⟨m, hm, rfl, rfl⟩
  · intro hd
    refine ⟨?_, fun name tags => ⟨?_, ?_⟩, fun r hr => ?_, fun r hr f v => ?_⟩
    · refine List.Nodup.of_map (fun p : GoString × TagMap => seriesKey p.1 p.2) ?_
      rw [Cache.reports, map_map, map_map]
      have hkeys : cache.map Prod.fst =
          cache.map fun e => seriesKey e.2.name e.2.tags :=
        map_congr_left fun e he => h.key_eq hhash he
      exact (congrArg List.Nodup hkeys).mp h.wf.keys
    · rintro ⟨r, hr, rfl, rfl⟩
      obtain ⟨e, he, rfl⟩ := mem_map.1 hr
      obtain ⟨m, hm, -, hname, htags⟩ := h.series e he
      exact ⟨m, hm, hname, htags⟩
    · rintro ⟨m, hm, rfl, rfl⟩
      obtain ⟨_, hmem⟩ := h.exists_entry hhash hm
      obtain ⟨m₀, hm₀, hkey, hname, htags⟩ := h.series _ hmem
      obtain ⟨hn, ht⟩ := hd m₀ hm₀ m hm (by rw [← hhash m₀ hm₀, hkey])
      exact ⟨_, mem_map_of_mem hmem, hname.symm.trans hn, htags.symm.trans ht⟩
    · obtain ⟨e, he, rfl⟩ := mem_map.1 hr
      rw [map_map]
      exact h.wf.fields e he
    · obtain ⟨e, he, rfl⟩ := mem_map.1 hr
      have hmem := h.mem_fields_iff hhash hd he f
      constructor
      · intro hv
        obtain ⟨⟨_, b⟩, hb, heq⟩ := mem_map.1 hv
        cases heq
        have htotal := (hmem b).1 hb
        refine ⟨fun hnil => ?_, hvalue _ _ htotal⟩
        rw [hnil] at htotal
        cases htotal
      · rintro ⟨hne, rfl⟩
        obtain ⟨b, hb⟩ := isSome_total upd hne
        exact mem_map.2 ⟨(f, b), (hmem b).2 hb, by rw [hvalue _ _ hb]⟩

end Cache.Holds

/-! ## Counters and sets -/

def counterUpdate (m : StatsdMetric 𝔽) (v : Option Int64) : Int64 :=
  v.getD 0 + m.intvalue

def setUpdate (m : StatsdMetric 𝔽) (v : Option (List GoString)) : List GoString :=
  (v.getD []).insert m.strvalue

theorem getD_total_counter (ms : List (StatsdMetric 𝔽)) :
    (total counterUpdate ms).getD 0 = .ofInt (ms.map fun m => m.intvalue.toInt).sum := by
  induction ms using reverseRecOn with
  | nil => rfl
  | append_singleton ms m ih =>
    rw [total_concat, Option.getD_some, counterUpdate, ih, map_append, sum_append, Int64.ofInt_add]
    simp

theorem getD_total_set (ms : List (StatsdMetric 𝔽)) :
    ((total setUpdate ms).getD []).Nodup ∧
      ((total setUpdate ms).getD []).toFinset = (ms.map fun m => m.strvalue).toFinset := by
  induction ms using reverseRecOn with
  | nil => exact ⟨nodup_nil, rfl⟩
  | append_singleton ms m ih =>
    rw [total_concat, Option.getD_some, setUpdate]
    refine ⟨ih.1.insert, ?_⟩
    ext x
    have hx := Finset.ext_iff.1 ih.2 x
    rw [mem_toFinset, mem_toFinset] at hx
    rw [mem_toFinset, mem_toFinset, mem_insert_iff, hx]
    simp [or_comm]

/-- The counters and sets after metrics, if their caches were empty. -/
structure Brought (s : State 𝔽) (ms : List (StatsdMetric 𝔽)) (s' : State 𝔽) : Prop where
  timings : s'.timings = s.timings
  counters : s'.counters.Holds counterUpdate (ms.filter fun m => m.mtype = .counter)
  sets : s'.sets.Holds setUpdate (ms.filter fun m => m.mtype = .set)

theorem Brought.concat (h : Brought s ms s') (hm : m.mtype = .counter ∨ m.mtype = .set) :
    ∃ s'', cfg.aggregate s' m = some s'' ∧ Brought s (ms ++ [m]) s'' := by
  unfold aggregate
  rcases hm with hm | hm
  · rw [hm]
    refine ⟨_, rfl, h.timings, ?_, ?_⟩
    · rw [filter_append, filter_cons_of_pos (by simp [hm]), filter_nil]
      exact h.counters.touch m
    · rw [filter_append, filter_cons_of_neg (by simp [hm]), filter_nil, append_nil]
      exact h.sets
  · rw [hm]
    refine ⟨_, rfl, h.timings, ?_, ?_⟩
    · rw [filter_append, filter_cons_of_neg (by simp [hm]), filter_nil, append_nil]
      exact h.counters
    · rw [filter_append, filter_cons_of_pos (by simp [hm]), filter_nil]
      exact h.sets.touch m

/-! ## Lines -/

/-- The metrics of lines. -/
def Config.sent (cfg : Config 𝔽) (lines : List GoString) : List (StatsdMetric 𝔽) :=
  lines.flatMap fun line => (cfg.parseLine line).1

/-- The line is parsed without an error, to counters and sets. -/
def Config.Valid (cfg : Config 𝔽) (line : GoString) : Prop :=
  (cfg.parseLine line).2 = none ∧
    ∀ m ∈ (cfg.parseLine line).1, m.mtype = .counter ∨ m.mtype = .set

instance (cfg : Config 𝔽) (line : GoString) : Decidable (cfg.Valid line) :=
  inferInstanceAs (Decidable (_ ∧ ∀ m ∈ (cfg.parseLine line).1, _))

theorem run_parseStatsdLine : ∀ (lines : List GoString) (s : State 𝔽),
    Machine.run cfg.parseStatsdLine s lines = Machine.run cfg.aggregate s (cfg.sent lines)
  | [], _ => rfl
  | line :: lines, s => by
    rw [sent, flatMap_cons, run_append, run_cons]
    exact congrArg _ (funext fun s' => run_parseStatsdLine lines s')

variable {lineTags : TagMap}

theorem hash_of_parseBit {bucket bit : GoString}
    (h : cfg.parseBit bucket lineTags bit = .ok m) : m.hash = seriesKey m.name m.tags := by
  unfold parseBit at h
  split at h
  · split at h
    · cases h
    · dsimp only at h
      split at h
      · split at h <;> cases h
        rfl
      · split at h <;> cases h
        rfl
      · split at h <;> cases h
        rfl
      all_goals
        split at h
        · cases h
        · split at h <;> cases h
          rfl
  · cases h

theorem hash_of_parseBits {bucket : GoString} : ∀ {bits : List GoString},
    m ∈ (cfg.parseBits bucket lineTags bits).1 → m.hash = seriesKey m.name m.tags
  | [], h => by cases h
  | bit :: bits, h => by
    rw [parseBits] at h
    split at h
    · cases h
    · rename_i m' hm'
      rcases mem_cons.1 h with rfl | h
      · exact hash_of_parseBit hm'
      · exact hash_of_parseBits h

variable {lines : List GoString}

theorem hash_of_mem_sent (h : m ∈ cfg.sent lines) : m.hash = seriesKey m.name m.tags := by
  obtain ⟨_, -, h⟩ := mem_flatMap.1 h
  unfold parseLine at h
  dsimp only at h
  split at h
  · exact hash_of_parseBits h
  · cases h

theorem exists_brought (hs : s.counters = [] ∧ s.sets = [])
    (hvalid : ∀ line ∈ lines, cfg.Valid line) :
    ∃ s', Machine.run cfg.parseStatsdLine s lines = some s' ∧ Brought s (cfg.sent lines) s' := by
  have hall : AllSteps cfg.aggregate (fun _ m => m.mtype = .counter ∨ m.mtype = .set) s
      (cfg.sent lines) := by
    refine allSteps_of_forall _ _ fun m hm => ?_
    obtain ⟨line, hline, hm⟩ := mem_flatMap.1 hm
    exact (hvalid line hline).2 m hm
  rw [run_parseStatsdLine]
  refine exists_run_of_allSteps (P := Brought s) (fun ms s₁ m hP hok => hP.concat hok)
    (cfg.sent lines) [] s ⟨rfl, ?_, ?_⟩ hall
  · rw [hs.1]
    exact Cache.Holds.nil _
  · rw [hs.2]
    exact Cache.Holds.nil _

theorem gather_eq (cfg : Config 𝔽) (s : State 𝔽) :
    (cfg.gather s).map Prod.fst = (s.timings.mapM fun e => cfg.reportTiming e.2).map fun timings =>
      timings ++ reportGauges s ++ reportCounters s ++ reportSets s := by
  rw [gather]
  cases s.timings.mapM fun e => cfg.reportTiming e.2 <;> rfl

variable {line : GoString}

/-- The line leaves the caches of every state as they are. -/
def Config.Unaffected (cfg : Config 𝔽) (line : GoString) : Prop :=
  ∀ s, cfg.parseStatsdLine s line = some s

/-- The line has no value, or the first one is invalid. -/
def Config.FirstInvalid (cfg : Config 𝔽) (line : GoString) : Prop :=
  ∀ bucket bit bits, (cfg.splitDataDogTags line).1.splitOn 58 = bucket :: bit :: bits →
    ∃ e, cfg.parseBit bucket (cfg.splitDataDogTags line).2 bit = .error e

theorem Cache.touch_ne_nil (m : StatsdMetric 𝔽) (f : Option β → β) (cache : Cache β) :
    cache.touch m f ≠ [] := by
  intro hnil
  have hget := Cache.get_touch m f cache m.hash
  rw [hnil, if_pos rfl] at hget
  cases hget

/-- A metric is in a cache after it was aggregated. -/
theorem ne_init_of_aggregate (h : cfg.aggregate s m = some s') : s' ≠ State.init := by
  rintro rfl
  unfold aggregate at h
  split at h
  case h_1 | h_2 =>
    obtain ⟨r, -, hr⟩ := Option.bind_eq_some_iff.1 h
    exact Cache.touch_ne_nil m _ _ (congrArg State.timings (Option.some.inj hr))
  case h_3 => exact Cache.touch_ne_nil m _ _ (congrArg State.counters (Option.some.inj h))
  case h_4 => exact Cache.touch_ne_nil m _ _ (congrArg State.gauges (Option.some.inj h))
  case h_5 => exact Cache.touch_ne_nil m _ _ (congrArg State.sets (Option.some.inj h))

/-- No metric is made of a line exactly if there is no first value or it is invalid. -/
theorem parseLine_eq_nil_iff : (cfg.parseLine line).1 = [] ↔ cfg.FirstInvalid line := by
  unfold parseLine FirstInvalid
  obtain ⟨rest, lineTags⟩ := cfg.splitDataDogTags line
  rcases hsplit : rest.splitOn 58 with _ | ⟨bucket, _ | ⟨bit, bits⟩⟩
  · simp [hsplit]
  · simp [hsplit]
  · have hbit : (cfg.parseBits bucket lineTags (bit :: bits)).1 = [] ↔
        ∃ e, cfg.parseBit bucket lineTags bit = .error e := by
      rw [parseBits]
      cases cfg.parseBit bucket lineTags bit <;> simp
    simp only [hsplit]
    refine hbit.trans ⟨fun h bucket' bit' bits' heq => ?_, fun h => h bucket bit bits rfl⟩
    cases heq
    exact h

/-- A line leaves the caches of every state as they are if and only if its first value is invalid,
and this is all that can be said of a rejected line. -/
theorem unaffected_iff_first_invalid (cfg : Config 𝔽) (line : GoString) :
    cfg.Unaffected line ↔ cfg.FirstInvalid line := by
  rw [← parseLine_eq_nil_iff]
  constructor
  · intro h
    by_contra hne
    have hrun := h State.init
    rw [parseStatsdLine, ← dropLast_concat_getLast hne, run_snoc] at hrun
    obtain ⟨s, -, hlast⟩ := Option.bind_eq_some_iff.1 hrun
    exact ne_init_of_aggregate hlast rfl
  · intro hnil s
    rw [parseStatsdLine, hnil, run_nil]

/-- The second value of the line is invalid, and the first one is counted. -/
theorem first_value_counted :
    (integerConfig.parseLine (str "foo:1|c:1|q")).2 = some .errorparsing ∧
      (integerConfig.parseStatsdLine State.init (str "foo:1|c:1|q")).map
        (fun s => (Config.reportCounters s).map fun r => (r.name, r.fields)) =
          some [(str "foo", [(str "value", .int 1)])] := by
  decide

end Telegraf.Statsd
