import Telegraf.Stackdriver

/-!
# Well formed requests to Stackdriver

The service takes at most 200 time series in a request, one point of each series, and the points of
a series in the order of their times. A series is a measurement, a field and a set of tags.

`Write` sends every field it can send once and never more than 200 time series together
(`Delivered`). It keeps the points of a series apart and in order because they share a bucket, and
the hash that picks the bucket is over the tags in the order of a map iteration, which Go chooses
anew each time. `requests_wellFormed` : where the points of a series are hashed from the same bytes
the requests are well formed, and with at most 200 buckets only then. With at most one tag they
are (`sameText_of_length_le_one`).

After some errors `Write` gives up in the middle of a batch and returns no error.
`write_acknowledges_iff` : that there is no error means that every field was part of a request,
exactly if such an error does not come before the last request.
-/

open List

namespace Telegraf

namespace Stackdriver

open KeyedLists RoundRobin

variable {𝔽 : Type} {env : Env 𝔽} {metrics : List (Metric 𝔽)}

/-! ## What is sent -/

/-- The values Stackdriver has a type for. -/
def convertible : FieldValue 𝔽 → Bool
  | .float _ | .int _ | .uint _ | .bool _ => true
  | .string _ | .nil => false

/-- The types of metrics that are sent. -/
def supported : ValueType → Bool
  | .counter | .gauge | .untyped => true
  | .summary | .histogram => false

/-- The fields of a batch that are to be sent. -/
def sendable (metrics : List (Metric 𝔽)) : List (Metric 𝔽 × Field 𝔽) :=
  (fieldsOf metrics).filter fun mf => supported mf.1.tp && convertible mf.2.value

/-- What an entry is a time series of. -/
def Entry.source (e : Entry 𝔽) : Metric 𝔽 × Field 𝔽 :=
  (e.metric, e.field)

/-- The series of an entry : its measurement, its field and its tags, which are in order of their
keys and so stand for the map of them. -/
def Entry.series (e : Entry 𝔽) : GoString × GoString × List Tag :=
  (e.metric.name, e.field.key, e.metric.tags)

/-- Every field is in exactly one request, with its value and the time of its metric, and the
requests have between one and 200 time series. -/
structure Delivered (metrics : List (Metric 𝔽)) (requests : List (List (Entry 𝔽))) : Prop where
  complete : (requests.flatten.map Entry.source).Perm (sendable metrics)
  carries : ∀ e ∈ requests.flatten,
    getStackdriverTypedValue e.field.value = .ok (some e.timeSeries.value) ∧
      e.timeSeries.interval.endTime = e.metric.tm / 1000000000
  size : ∀ r ∈ requests, 1 ≤ r.length ∧ r.length ≤ 200

/-- No request has two points of one series, and the points of a series are sent in the order of
their times. -/
structure WellFormed (requests : List (List (Entry 𝔽))) : Prop where
  onePoint : ∀ r ∈ requests, r.Pairwise fun e e' => e.series ≠ e'.series
  inOrder : requests.flatten.Pairwise fun e e' => e.series = e'.series → e.metric.tm ≤ e'.metric.tm

theorem endTime_of_timeInterval {kind : MetricKind} {start stop : ℤ} {interval : TimeInterval}
    (h : getStackdriverTimeInterval kind start stop = .ok interval) : interval.endTime = stop := by
  cases kind <;> cases h <;> rfl

theorem toOption_eq_some_iff {ε α : Type} {x : Except ε α} {a : α} :
    x.toOption = some a ↔ x = .ok a := by
  cases x <;> simp [Except.toOption]

variable {n : ℕ}

/-- A field's time series has its value and its metric's time. -/
theorem timeSeriesOf_eq_some {m : Metric 𝔽} {f : Field 𝔽} {ts : TimeSeries 𝔽}
    (h : timeSeriesOf env n m f = some ts) :
    getStackdriverTypedValue f.value = .ok (some ts.value) ∧
      ts.interval.endTime = m.tm / 1000000000 := by
  simp only [timeSeriesOf, Option.bind_eq_bind, Option.bind_eq_some_iff, toOption_eq_some_iff] at h
  obtain ⟨_, hvalue, value, rfl, _, -, interval, hinterval, hts⟩ := h
  cases hts
  exact ⟨hvalue, endTime_of_timeInterval hinterval⟩

/-- A field has a time series if it is convertible and its metric's type is sent. -/
theorem isSome_timeSeriesOf (env : Env 𝔽) (n : ℕ) (m : Metric 𝔽) (f : Field 𝔽) :
    (timeSeriesOf env n m f).isSome = (supported m.tp && convertible f.value) := by
  cases htp : m.tp <;> cases hvalue : f.value <;>
    simp [timeSeriesOf, getStackdriverTypedValue, getStackdriverMetricKind,
      getStackdriverTimeInterval, supported, convertible, htp, hvalue, Except.toOption]

theorem map_source_entries : ∀ (n : ℕ) (l : List (Metric 𝔽 × Field 𝔽)),
    (entries env n l).map Entry.source =
      l.filter fun mf => supported mf.1.tp && convertible mf.2.value
  | _, [] => rfl
  | n, (m, f) :: l => by
    have hsome := isSome_timeSeriesOf env n m f
    rw [entries, filter_cons, ← hsome]
    cases timeSeriesOf env n m f with
    | none => exact map_source_entries n l
    | some =>
      rw [map_cons, map_source_entries (n + 1) l]
      rfl

variable {e : Entry 𝔽}

theorem timeSeriesOf_of_mem_entries : ∀ {n : ℕ} {l : List (Metric 𝔽 × Field 𝔽)},
    e ∈ entries env n l → timeSeriesOf env e.call e.metric e.field = some e.timeSeries
  | n, (m, f) :: l, h => by
    rw [entries] at h
    cases hts : timeSeriesOf env n m f with
    | none =>
      rw [hts] at h
      exact timeSeriesOf_of_mem_entries h
    | some =>
      rw [hts] at h
      rcases mem_cons.1 h with rfl | h
      · exact hts
      · exact timeSeriesOf_of_mem_entries h

section

variable (env : Env 𝔽) (metrics : List (Metric 𝔽))

theorem sorted_perm : (sorted env metrics).Perm metrics :=
  (env.sortByTime_perm _).trans (reverse_perm metrics)

theorem map_source_batchEntries :
    ((batchEntries env metrics).map Entry.source).Perm (sendable metrics) := by
  rw [batchEntries, map_source_entries]
  exact ((sorted_perm env metrics).flatMap_right _).filter _

/-- The time series are made in the order of their times. -/
theorem pairwise_batchEntries :
    (batchEntries env metrics).Pairwise fun e e' => e.metric.tm ≤ e'.metric.tm := by
  have hfields : (fieldsOf (sorted env metrics)).Pairwise fun mf mf' => mf.1.tm ≤ mf'.1.tm := by
    refine pairwise_flatMap.2 ⟨fun m _ => ?_, ?_⟩
    · exact pairwise_map.2 (pairwise_of_forall fun _ _ => Int.le_refl _)
    · refine (env.sortByTime_sorted _).imp fun hle mf hmf mf' hmf' => ?_
      obtain ⟨f, -, rfl⟩ := mem_map.1 hmf
      obtain ⟨_, -, rfl⟩ := mem_map.1 hmf'
      exact hle
  have hsources : ((batchEntries env metrics).map Entry.source).Pairwise
      fun mf mf' => mf.1.tm ≤ mf'.1.tm := by
    rw [batchEntries, map_source_entries]
    exact hfields.filter _
  rw [pairwise_map] at hsources
  exact hsources

end

/-! ## Points of one series -/

/-- The entries of one series are hashed from the same bytes. -/
def SameText (env : Env 𝔽) (metrics : List (Metric 𝔽)) : Prop :=
  ∀ e ∈ batchEntries env metrics, ∀ e' ∈ batchEntries env metrics,
    e.series = e'.series → e.text env = e'.text env

/-- The hash tells the texts apart, and the texts the series. -/
def NoCollisions (env : Env 𝔽) (metrics : List (Metric 𝔽)) : Prop :=
  ∀ e ∈ batchEntries env metrics, ∀ e' ∈ batchEntries env metrics,
    e.bucket env = e'.bucket env → e.text env = e'.text env ∧ e.series = e'.series

/-- With at most one tag there is only one order. -/
theorem sameText_of_length_le_one (h : ∀ m ∈ metrics, m.tags.length ≤ 1) :
    SameText env metrics := by
  have htags : ∀ e ∈ batchEntries env metrics,
      env.rangeTags e.call e.metric.tags = e.metric.tags := by
    intro e he
    have hsource := (map_source_batchEntries env metrics).subset (mem_map_of_mem he)
    obtain ⟨m, hm, hf⟩ := mem_flatMap.1 (mem_filter.1 hsource).1
    obtain ⟨f, -, heq⟩ := mem_map.1 hf
    have hlength : e.metric.tags.length ≤ 1 := by
      rw [← show m = e.metric from congrArg Prod.fst heq]
      exact h m hm
    have hperm := env.rangeTags_perm e.call e.metric.tags
    match htags : e.metric.tags, hlength with
    | [], _ => exact perm_nil.1 (htags ▸ hperm)
    | [t], _ => exact perm_singleton.1 (htags ▸ hperm)
  intro e he e' he' hseries
  obtain ⟨hname, hfield, heq⟩ : e.metric.name = e'.metric.name ∧ e.field.key = e'.field.key ∧
      e.metric.tags = e'.metric.tags := by
    simpa only [Entry.series, Prod.mk.injEq] using hseries
  rw [Entry.text, Entry.text, htags e he, htags e' he', hname, hfield, heq]

theorem queues_batch (env : Env 𝔽) (metrics : List (Metric 𝔽)) :
    Queues (Entry.bucket env) (fun e e' => e.metric.tm ≤ e'.metric.tm) (batchQueues env metrics) :=
  queues_filter (nodup_batchKeys env metrics) (fun _ hk => mem_batchKeys_iff.1 hk)
    (pairwise_batchEntries env metrics)

variable {rs : List (List (Entry 𝔽))}

section

variable (h : Rounds capacity (batchQueues env metrics) rs)

include h

theorem mem_batchEntries_iff : e ∈ rs.flatten ↔ e ∈ batchEntries env metrics :=
  (h.flatten_perm.trans (flatten_batchQueues_perm env metrics)).mem_iff

theorem delivered_of_rounds : Delivered metrics rs := by
  refine ⟨?_, fun e he => ?_, h.length_bounds (queues_batch env metrics)⟩
  · exact ((h.flatten_perm.trans (flatten_batchQueues_perm env metrics)).map _).trans
      (map_source_batchEntries env metrics)
  · exact timeSeriesOf_eq_some (timeSeriesOf_of_mem_entries ((mem_batchEntries_iff h).1 he))

/-- The points of a series share a bucket, from which a request takes one, the oldest. -/
theorem wellFormed_of_sameText (hsame : SameText env metrics) : WellFormed rs := by
  have hbucket : ∀ {e e'}, e ∈ rs.flatten → e' ∈ rs.flatten → e.series = e'.series →
      e.bucket env = e'.bucket env := by
    intro e e' he he' hseries
    exact congrArg fnv64a
      (hsame e ((mem_batchEntries_iff h).1 he) e' ((mem_batchEntries_iff h).1 he') hseries)
  have hqueues := queues_batch env metrics
  refine ⟨fun r hr => ?_, ?_⟩
  · refine (h.pairwise_ne hqueues r hr).imp_of_mem fun he he' hne hseries => hne ?_
    exact hbucket (mem_flatten_of_mem hr he) (mem_flatten_of_mem hr he') hseries
  · refine (h.pairwise_order hqueues).imp_of_mem fun he he' horder hseries => ?_
    exact horder (hbucket he he' hseries)

end

/-- With at most 200 buckets the first request takes a point of each. -/
theorem exists_mem_round_bucket (hfew : (batchKeys env metrics).length ≤ 200)
    (he : e ∈ batchEntries env metrics) :
    ∃ a ∈ round capacity (batchQueues env metrics),
      a ∈ batchEntries env metrics ∧ a.bucket env = e.bucket env := by
  have hmem : e ∈ (batchEntries env metrics).filter fun a => a.bucket env == e.bucket env :=
    mem_filter.2 ⟨he, beq_self_eq_true _⟩
  obtain ⟨a, q, hq⟩ := exists_cons_of_ne_nil (ne_nil_of_mem hmem)
  have hqueue : a :: q ∈ batchQueues env metrics :=
    mem_map.2 ⟨e.bucket env, mem_batchKeys_iff.2 ⟨e, he, rfl⟩, hq⟩
  have ha : a ∈ (batchEntries env metrics).filter fun a => a.bucket env == e.bucket env :=
    hq ▸ mem_cons_self
  obtain ⟨ha, hbucket⟩ := mem_filter.1 ha
  refine ⟨a, mem_round_of_length_le ?_ hqueue, ha, eq_of_beq hbucket⟩
  rw [batchQueues, length_map]
  exact hfew

/-- A series with two buckets is in the first request twice. -/
theorem sameText_of_wellFormed (h : Rounds capacity (batchQueues env metrics) rs)
    (hfew : (batchKeys env metrics).length ≤ 200) (hhash : NoCollisions env metrics)
    (hwf : WellFormed rs) : SameText env metrics := by
  intro e he e' he' hseries
  by_contra htext
  obtain ⟨a, haround, ha, habucket⟩ := exists_mem_round_bucket hfew he
  obtain ⟨a', haround', ha', habucket'⟩ := exists_mem_round_bucket hfew he'
  have haseries : a.series = a'.series :=
    (hhash a ha e he habucket).2.trans (hseries.trans (hhash a' ha' e' he' habucket').2.symm)
  have hround : ((round capacity (batchQueues env metrics)).map Entry.series).Nodup :=
    pairwise_map.2 (hwf.onePoint _ (h.round_mem haround))
  have hsame : a = a' := inj_on_of_nodup_map hround haround haround' haseries
  exact htext (hhash e he e' he' (habucket.symm.trans (hsame ▸ habucket'))).1

/-! ## An iteration order that splits a series -/

/-- Every second iteration over the tags is backwards, and all calls succeed. -/
def alternating : Env ℤ where
  namespaceName := str "telegraf"
  resourceType := str "global"
  resourceLabels := []
  join parts := (parts.intersperse (str "/")).flatten
  sortByTime := List.insertionSort fun m m' => m.tm ≤ m'.tm
  sortByTime_perm := List.perm_insertionSort _
  sortByTime_sorted := by
    have : Std.Total fun m m' : Metric ℤ => m.tm ≤ m'.tm := ⟨fun m m' => Int.le_total m.tm m'.tm⟩
    have : IsTrans (Metric ℤ) fun m m' => m.tm ≤ m'.tm := ⟨fun _ _ _ => Int.le_trans⟩
    exact List.pairwise_insertionSort _
  rangeTags n l := if n % 2 = 0 then l else l.reverse
  rangeTags_perm n l := by
    split_ifs
    · exact List.Perm.refl l
    · exact List.reverse_perm l
  rangeLabels _ l := l
  rangeLabels_perm _ l := List.Perm.refl l
  createTimeSeries _ _ := none

/-- A gauge with the tags at the second. -/
def gaugeAt (tags : List (String × String)) (second : ℤ) : Metric ℤ :=
  (tags.foldl (fun m t => m.addTag (str t.1) (str t.2))
    (Metric.empty (str "cpu") (second * 1000000000) .gauge)).addField (str "value") (.int 1)

/-- Two points of one series. -/
def burst : List (Metric ℤ) :=
  [gaugeAt [("a", "1"), ("b", "2")] 2, gaugeAt [("a", "1"), ("b", "2")] 1]

/-! ## The requests -/

/-- The requests are well formed where the entries of one series are hashed from the same bytes,
and with at most 200 buckets, of which none has two series, only there. -/
theorem requests_wellFormed (env : Env 𝔽) (metrics : List (Metric 𝔽))
    (hcalls : ∀ n ts, env.createTimeSeries n ts = none) :
    ∃ rs, write env metrics = some ⟨rs, none⟩ ∧ Delivered metrics rs ∧
      (SameText env metrics → WellFormed rs) ∧
      (NoCollisions env metrics → (batchKeys env metrics).length ≤ 200 →
        (WellFormed rs ↔ SameText env metrics)) := by
  obtain ⟨rs, hrounds, hwrite⟩ := write_spec hcalls metrics
  refine ⟨rs, hwrite, delivered_of_rounds hrounds, wellFormed_of_sameText hrounds, ?_⟩
  exact fun hhash hfew =>
    ⟨sameText_of_wellFormed hrounds hfew hhash, wellFormed_of_sameText hrounds⟩

/-- Points with one tag go into two requests. -/
theorem requests_wellFormed_one_tag :
    ∃ rs, write alternating [gaugeAt [("a", "1")] 2, gaugeAt [("a", "1")] 1] = some ⟨rs, none⟩ ∧
      Delivered [gaugeAt [("a", "1")] 2, gaugeAt [("a", "1")] 1] rs ∧ WellFormed rs := by
  obtain ⟨rs, hwrite, hdelivered, hwf, -⟩ :=
    requests_wellFormed alternating [gaugeAt [("a", "1")] 2, gaugeAt [("a", "1")] 1]
      fun _ _ => rfl
  exact ⟨rs, hwrite, hdelivered, hwf (sameText_of_length_le_one (by decide +kernel))⟩

/-- Two points of a series with two tags, hashed in different orders, are sent together. -/
theorem series_twice_in_request :
    NoCollisions alternating burst ∧
      ∃ r, write alternating burst = some ⟨[r], none⟩ ∧ ¬WellFormed [r] := by
  refine ⟨?_, batchEntries alternating burst, by decide +kernel, fun h => ?_⟩
  · unfold NoCollisions
    decide +kernel
  · have htwice : ¬(batchEntries alternating burst).Pairwise fun e e' => e.series ≠ e'.series := by
      decide +kernel
    exact htwice (h.onePoint _ mem_cons_self)

/-! ## Rejected requests -/

/-- The answer to the request with the number, where the first one has the number `n`. -/
def answer (env : Env 𝔽) (n : ℕ) (rs : List (List (Entry 𝔽))) (i : ℕ) : Option GoString :=
  env.createTimeSeries (n + i) ((rs.getD i []).map Entry.timeSeries)

/-- Every field that is to be sent was part of a request. -/
def AllSent (metrics : List (Metric 𝔽)) (requests : List (List (Entry 𝔽))) : Prop :=
  (requests.flatten.map Entry.source).Perm (sendable metrics)

/-- An error for which `Write` gives up without an error is not the first error, or it is the answer
to the last request. -/
def ToleratesLast (env : Env 𝔽) (rs : List (List (Entry 𝔽))) : Prop :=
  ∀ i, i + 1 < rs.length → (∀ j < i, answer env 0 rs j = none) →
    ∀ err, answer env 0 rs i = some err → ignored err = false

/-- All requests are sent, or those up to the first one with an error. -/
theorem send_cases (env : Env 𝔽) : ∀ (n : ℕ) (rs : List (List (Entry 𝔽))),
    (∀ i < rs.length, answer env n rs i = none) ∧ send env n rs = ⟨rs, none⟩ ∨
    ∃ i err, i < rs.length ∧ (∀ j < i, answer env n rs j = none) ∧
      answer env n rs i = some err ∧
      send env n rs = ⟨rs.take (i + 1), if ignored err then none else some err⟩
  | _, [] => .inl ⟨fun _ hi => absurd hi (Nat.not_lt_zero _), rfl⟩
  | n, r :: rs => by
    have hsucc : ∀ i, answer env n (r :: rs) (i + 1) = answer env (n + 1) rs i := by
      intro i
      rw [answer, answer, getD_cons_succ, Nat.add_right_comm, Nat.add_assoc]
    have hzero : answer env n (r :: rs) 0 = env.createTimeSeries n (r.map Entry.timeSeries) := rfl
    rw [send, ← hzero]
    cases hfirst : answer env n (r :: rs) 0 with
    | some err =>
      exact .inr ⟨0, err, Nat.zero_lt_succ _, fun _ hj => absurd hj (Nat.not_lt_zero _), hfirst,
        rfl⟩
    | none =>
      rcases send_cases env (n + 1) rs with ⟨hall, heq⟩ | ⟨i, err, hi, hbefore, herr, heq⟩
      · refine .inl ⟨fun i hi => ?_, by rw [heq]⟩
        cases i with
        | zero => exact hfirst
        | succ i => exact (hsucc i).trans (hall i (Nat.lt_of_succ_lt_succ hi))
      · refine .inr ⟨i + 1, err, Nat.succ_lt_succ hi, fun j hj => ?_, (hsucc i).trans herr,
          by rw [heq]; rfl⟩
        cases j with
        | zero => exact hfirst
        | succ j => exact (hsucc j).trans (hbefore j (Nat.lt_of_succ_lt_succ hj))

/-- A part of the requests is not all that is to be sent. -/
theorem not_allSent_take (h : Rounds capacity (batchQueues env metrics) rs)
    (hn : n < rs.length) : ¬AllSent metrics (rs.take n) := by
  intro hsent
  have hall := hsent.trans (delivered_of_rounds h).complete.symm
  have hlength := hall.length_eq
  rw [length_map, length_map] at hlength
  conv_rhs at hlength => rw [← take_append_drop n rs]
  rw [flatten_append, length_append] at hlength
  have hnil : (rs.drop n).flatten = [] := length_eq_zero_iff.1 (by omega)
  rw [drop_eq_getElem_cons hn, flatten_cons, append_eq_nil_iff] at hnil
  have hsize := ((delivered_of_rounds h).size _ (getElem_mem hn)).1
  rw [hnil.1] at hsize
  cases hsize

/-- `Write` returns for all answers of the service. That it returns without an error means that
every field was part of a request, exactly if no request but the last one is the first one with an
error for which `Write` gives up without an error. -/
theorem write_acknowledges_iff (env : Env 𝔽) (metrics : List (Metric 𝔽)) :
    ∃ rs result, Rounds capacity (batchQueues env metrics) rs ∧
      write env metrics = some result ∧
      ((result.err = none → AllSent metrics result.requests) ↔ ToleratesLast env rs) := by
  obtain ⟨rs, hrounds, hwrite⟩ := write_eq_send env metrics
  refine ⟨rs, _, hrounds, hwrite, ?_⟩
  have hcomplete := (delivered_of_rounds hrounds).complete
  rcases send_cases env 0 rs with ⟨hall, heq⟩ | ⟨i, err, hi, hbefore, herr, heq⟩
  · rw [heq]
    refine iff_of_true (fun _ => hcomplete) fun i hi _ err herr => ?_
    rw [hall i (by omega)] at herr
    cases herr
  · rw [heq]
    -- an error is the first one only at `i`
    have hunique : ∀ j, (∀ k < j, answer env 0 rs k = none) → ∀ err',
        answer env 0 rs j = some err' → j = i := by
      intro j hj err' herr'
      rcases Nat.lt_trichotomy j i with hlt | rfl | hgt
      · rw [hbefore j hlt] at herr'
        cases herr'
      · rfl
      · rw [hj i hgt] at herr
        cases herr
    cases hignored : ignored err with
    | false =>
      refine iff_of_true (fun hnone => nomatch hnone) fun j hj hfirst err' herr' => ?_
      obtain rfl := hunique j hfirst err' herr'
      obtain rfl := Option.some.inj (herr.symm.trans herr')
      exact hignored
    | true =>
      by_cases hlast : i + 1 < rs.length
      · refine iff_of_false (fun hsent => not_allSent_take hrounds hlast (hsent rfl)) fun h => ?_
        rw [h i hlast hbefore err herr] at hignored
        cases hignored
      · refine iff_of_true (fun _ => ?_) fun j hj hfirst err' herr' => ?_
        · rw [take_of_length_le (by omega)]
          exact hcomplete
        · exact absurd (hunique j hfirst err' herr') (by omega)

/-- The first request is rejected because a point is older than the last one. -/
def outOfOrder : Env ℤ :=
  { alternating with
    createTimeSeries := fun n _ => if n = 0 then some errStringPointsOutOfOrder else none }

/-- Two points of a series need two requests, and after the first one is rejected the second one is
not sent. -/
theorem point_never_sent :
    ∃ requests, write outOfOrder [gaugeAt [("a", "1")] 2, gaugeAt [("a", "1")] 1] =
        some ⟨requests, none⟩ ∧
      ¬AllSent [gaugeAt [("a", "1")] 2, gaugeAt [("a", "1")] 1] requests := by
  refine ⟨[[(batchEntries outOfOrder [gaugeAt [("a", "1")] 2, gaugeAt [("a", "1")] 1]).head
    (by decide +kernel)]], by decide +kernel, fun h => ?_⟩
  have hlength := h.length_eq
  have htwo : (sendable [gaugeAt [("a", "1")] 2, gaugeAt [("a", "1")] 1]).length = 2 := by
    decide +kernel
  rw [htwo] at hlength
  cases hlength

end Stackdriver

end Telegraf
