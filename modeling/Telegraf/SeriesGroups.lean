import Telegraf.DistinctKeys
import Telegraf.InfluxTokens
import Telegraf.SeriesGrouper
import Telegraf.SeriesKey

/-!
# Groups of fields without loss

Where names and tags have no newline, the text that `groupID` hashes determines the name, the tags
and the `UnixNano` of the time (`Entry.key_eq_of_text`). Along every sequence of `Add` the map and
the list of the grouper have the metrics of the groups in the order of their first entries
(`Grouped.addAll`), and those of the merge aggregator are the unions of the metrics that were added
since the last `Reset` (`Merge.run_grouped`, `Merge.groups_allEntries`). Together :
`grouped_without_loss`.
-/

open List hiding beq_eq_decide lookup_cons

namespace Telegraf

open KeyedLists DistinctKeys SeriesGrouper Machine Entry

variable {𝔽 : Type*}

/-! ## The identity of a group -/

/-- The name, the tags in order and the time in nanoseconds. -/
@[ext]
structure GroupKey where
  measurement : GoString
  tags : List Tag
  nanos : Int64
deriving Repr, DecidableEq

/-- The text that is hashed for a group. -/
def GroupKey.text (k : GroupKey) : GoString :=
  groupText k.measurement k.tags k.nanos

namespace Entry

/-- The group of an entry. -/
def key (e : Entry 𝔽) : GroupKey :=
  ⟨e.measurement, sortTags e.tags.entries, unixNano e.tm⟩

/-- No newline in the name and the tags. -/
def NewlineFree (e : Entry 𝔽) : Prop :=
  10 ∉ e.measurement ∧ ∀ t ∈ e.tags.entries, 10 ∉ t.1 ∧ 10 ∉ t.2

instance (e : Entry 𝔽) : Decidable e.NewlineFree :=
  inferInstanceAs (Decidable (_ ∧ _))

end Entry

/-- The name, the keys and values, an empty string and the time. -/
def GroupKey.lines (k : GroupKey) : List GoString :=
  (k.measurement :: k.tags.flatMap fun t => [t.key, t.value]) ++
    [[], Influx.appendInt k.nanos.toInt]

theorem GroupKey.text_eq (k : GroupKey) : k.text = [10].intercalate k.lines := by
  have hlines : ∀ (ls : List GoString) (last : GoString),
      [10].intercalate (ls ++ [[], last]) = ls.flatMap (· ++ [10]) ++ [10] ++ last := by
    intro ls last
    induction ls with
    | nil => simp
    | cons l ls ih =>
      obtain ⟨l', ls', hls⟩ : ∃ l' ls', ls ++ [[], last] = l' :: ls' :=
        exists_cons_of_ne_nil (by simp)
      rw [cons_append, hls, intercalate_cons_cons, ← hls, ih]
      simp
  rw [lines, hlines, flatMap_cons, flatMap_assoc, text, groupText, show str "\n" = [10] by decide]
  simp

theorem newline_not_mem_appendInt (i : ℤ) : 10 ∉ Influx.appendInt i := by
  have hdigits : ∀ n, 10 ∉ Influx.appendUint n := by
    intro n hmem
    rcases Influx.appendUint_cases n with ⟨-, h⟩ | ⟨d, _, -, h, hd, -, hds⟩
    · rw [h] at hmem
      revert hmem
      decide
    · rw [h] at hmem
      rcases mem_cons.1 hmem with rfl | hmem
      · cases hd
      · cases hds 10 hmem
  unfold Influx.appendInt
  split_ifs
  · rw [mem_cons, not_or]
    exact ⟨by decide, hdigits _⟩
  · exact hdigits _

theorem appendInt_injective {v w : Int64}
    (h : Influx.appendInt v.toInt = Influx.appendInt w.toInt) : v = w := by
  have hparse := Influx.parseInt_appendInt v
  rw [h, Influx.parseInt_appendInt w] at hparse
  exact (Int64.toInt_inj.1 (Except.ok.inj hparse)).symm

variable {e e' : Entry 𝔽}

/-- Without newlines the text determines the group. -/
theorem Entry.key_eq_of_text (he : e.NewlineFree) (he' : e'.NewlineFree)
    (h : e.key.text = e'.key.text) : e.key = e'.key := by
  have hfree : ∀ {e : Entry 𝔽}, e.NewlineFree → ∀ l ∈ e.key.lines, 10 ∉ l := by
    intro e he l hl
    rw [GroupKey.lines, mem_append, mem_cons, mem_flatMap] at hl
    rcases hl with (rfl | ⟨t, ht, hl⟩) | hl
    · exact he.1
    · obtain ⟨u, hu, rfl⟩ := mem_map.1 ((sortTags_perm _).subset ht)
      rcases mem_pair.1 hl with rfl | rfl
      · exact (he.2 u hu).1
      · exact (he.2 u hu).2
    · rcases mem_pair.1 hl with rfl | rfl
      · exact not_mem_nil
      · exact newline_not_mem_appendInt _
  have hsplit := congrArg (splitOn 10) h
  rw [GroupKey.text_eq, GroupKey.text_eq,
    splitOn_intercalate 10 (hfree he) (by simp [GroupKey.lines]),
    splitOn_intercalate 10 (hfree he') (by simp [GroupKey.lines])] at hsplit
  obtain ⟨hfront, hback⟩ := append_inj' hsplit (by simp)
  obtain ⟨hname, htags⟩ := cons.inj hfront
  simp only [cons.injEq, and_true, true_and] at hback
  exact GroupKey.ext hname (Metric.tags_eq_of_flatMap_eq htags) (appendInt_injective hback)

/-! ## Groups -/

/-- The value of a field that was added last. -/
def lastValue (es : List (Entry 𝔽)) (field : GoString) : Option (FieldValue 𝔽) :=
  ((es.filter fun e => e.field = field).getLast?).map fun e => convertField e.value

/-- What is added for one group : the name, tags and time of the first entry, and the last value of
each field. -/
def describe (es : List (Entry 𝔽)) : Option (MetricMap 𝔽 × ℤ) :=
  es.head?.map fun e => (⟨e.measurement, e.tags.get, lastValue es⟩, e.tm)

/-- The groups of the entries, in the order of their first entries. -/
def groups (es : List (Entry 𝔽)) : List (Option (MetricMap 𝔽 × ℤ)) :=
  (es.map key).eraseDups.map fun k => describe (es.filter fun e => e.key = k)

/-- A metric as its maps and its time. -/
def Metric.view (m : Metric 𝔽) : MetricMap 𝔽 × ℤ :=
  (m.toMap, m.tm)

theorem view_addField (m : Metric 𝔽) (field : GoString) (value : GoValue 𝔽) :
    (m.addField field (convertField value)).view = (m.view.1.addField field value, m.view.2) := by
  rw [Metric.view, Metric.toMap_addField]
  rfl

/-- Entries without newlines, with values that can be converted, and without collisions of the
hash. -/
structure Proper (es : List (Entry 𝔽)) : Prop where
  newlineFree : ∀ e ∈ es, e.NewlineFree
  convertible : ∀ e ∈ es, convertField e.value ≠ .nil
  noCollision : ∀ e ∈ es, ∀ e' ∈ es, e.id = e'.id → e.key.text = e'.key.text

theorem Proper.of_subset {es es' : List (Entry 𝔽)} (h : Proper es') (hsub : es ⊆ es') : Proper es :=
  ⟨fun e he => h.newlineFree e (hsub he), fun e he => h.convertible e (hsub he),
    fun e he e' he' => h.noCollision e (hsub he) e' (hsub he')⟩

/-- The hash of a group. -/
def idOf (k : GroupKey) : UInt64 :=
  fnv64a k.text

theorem Entry.id_eq (e : Entry 𝔽) : e.id = idOf e.key :=
  rfl

variable {es : List (Entry 𝔽)}

theorem Proper.key_eq (h : Proper es) (he : e ∈ es)
    (he' : e' ∈ es) (hid : e.id = e'.id) : e.key = e'.key :=
  key_eq_of_text (h.newlineFree e he) (h.newlineFree e' he') (h.noCollision e he e' he' hid)

theorem lastValue_concat (es : List (Entry 𝔽)) (e : Entry 𝔽) :
    lastValue (es ++ [e]) =
      Function.update (lastValue es) e.field (some (convertField e.value)) := by
  funext field
  rw [lastValue, filter_append, Function.update_apply]
  by_cases hfield : e.field = field
  · simp [hfield]
  · simp [hfield, Ne.symm hfield, lastValue]

theorem describe_concat (hes : es ≠ []) (e : Entry 𝔽) :
    describe (es ++ [e]) = (describe es).map fun d => (d.1.addField e.field e.value, d.2) := by
  obtain ⟨_, es, rfl⟩ := exists_cons_of_ne_nil hes
  rw [describe, lastValue_concat]
  rfl

/-- A metric that `New` makes for a group has its first entry. -/
theorem view_ofMaps {e : Entry 𝔽} (h : convertField e.value ≠ .nil) :
    some (Metric.ofMaps e.measurement e.again
      ⟨[(e.field, e.value)], List.nodup_singleton _⟩ e.tm none).view = describe [e] := by
  have htags : e.again.get = e.tags.get := lookup_perm e.again_perm e.again.nodup
  have hfields : (fun key => ((⟨[(e.field, e.value)], nodup_singleton _⟩ :
      GoMap (GoValue 𝔽)).get key).bind converted) = lastValue [e] := by
    have hvalue : converted e.value = some (convertField e.value) := by
      unfold converted
      split
      · contradiction
      · rfl
    funext key
    rw [lastValue, GoMap.get, lookup_cons]
    by_cases hkey : key = e.field
    · simp [hkey, hvalue]
    · simp [hkey, Ne.symm hkey]
  rw [Metric.view, Metric.toMap_ofMaps, MetricMap.ofMaps, htags, hfields]
  rfl

/-- The grouper after entries, when the metrics before are `n` : its map and its list have the
numbers of the groups' metrics, and these are as the groups say. -/
structure Grouped (n : ℕ) (es : List (Entry 𝔽)) (st : SeriesGrouper × List (Metric 𝔽)) :
    Prop where
  metrics : st.1.metrics = positions idOf n (es.map key).eraseDups
  ordered : st.1.ordered = List.range' n (es.map key).eraseDups.length
  length : n ≤ st.2.length
  views : (st.2.drop n).map (fun m => some m.view) = groups es

theorem Grouped.new (ms : List (Metric 𝔽)) : Grouped ms.length [] (new, ms) :=
  ⟨rfl, rfl, le_rfl, by rw [drop_length]; rfl⟩

theorem mem_keys {k : GroupKey} : k ∈ (es.map key).eraseDups ↔ ∃ e ∈ es, e.key = k := by
  rw [mem_eraseDups, mem_map]

/-- An entry goes to its own group only. -/
theorem filter_concat (es : List (Entry 𝔽)) (e : Entry 𝔽) (k : GroupKey) :
    ((es ++ [e]).filter fun e => e.key = k) =
      (es.filter fun e => e.key = k) ++ if e.key = k then [e] else [] := by
  rw [filter_append, filter_singleton]
  by_cases hk : e.key = k
  · simp [hk]
  · simp [hk]

section Grouped

variable {n : ℕ} {es : List (Entry 𝔽)} {st : SeriesGrouper × List (Metric 𝔽)}
  (h : Grouped n es st) {e : Entry 𝔽}
include h

theorem Grouped.get_metrics (hproper : Proper (es ++ [e])) :
    get st.1.metrics e.id =
      if e.key ∈ (es.map key).eraseDups then
        some (n + (es.map key).eraseDups.idxOf e.key)
      else none := by
  rw [h.metrics, e.id_eq]
  refine get_positions n fun k hk hcode => ?_
  obtain ⟨_, he', rfl⟩ := mem_keys.1 hk
  exact hproper.key_eq (mem_append_left _ he') (mem_append_right _ (by simp)) hcode

theorem Grouped.length_eq : st.2.length = n + (es.map key).eraseDups.length := by
  have hlength := congrArg List.length h.views
  rw [List.length_map, List.length_drop, groups, List.length_map] at hlength
  have hle := h.length
  omega

theorem Grouped.add_old (hproper : Proper (es ++ [e])) (hold : e.key ∈ (es.map key).eraseDups) :
    ∃ st', step st e = some st' ∧ Grouped n (es ++ [e]) st' := by
  have hadd : st.1.add st.2.length e =
      (st.1, .addField (n + (es.map key).eraseDups.idxOf e.key) e.field e.value) := by
    rw [add, h.get_metrics hproper, if_pos hold]
  have hlt := idxOf_lt_length_of_mem hold
  have hkeys : ((es ++ [e]).map key).eraseDups = (es.map key).eraseDups := by
    rw [map_append, map_singleton, eraseDups_concat, if_pos (mem_eraseDups.1 hold)]
  obtain ⟨m, hm⟩ : ∃ m, st.2[n + (es.map key).eraseDups.idxOf e.key]? = some m :=
    ⟨_, getElem?_eq_getElem (by rw [h.length_eq]; omega)⟩
  -- what the metric is before
  have hview : some m.view = describe (es.filter fun e' => e'.key = e.key) := by
    have hget := congrArg (fun l => l[(es.map key).eraseDups.idxOf e.key]?) h.views
    rw [getElem?_map, getElem?_drop, hm, groups, getElem?_map,
      getElem?_eq_getElem hlt, getElem_idxOf] at hget
    exact Option.some.inj hget
  have hne : (es.filter fun e' => e'.key = e.key) ≠ [] := by
    obtain ⟨e', he', hkey⟩ := mem_keys.1 hold
    exact ne_nil_of_mem (mem_filter.2 ⟨he', decide_eq_true hkey⟩)
  refine ⟨(st.1, st.2.set (n + (es.map key).eraseDups.idxOf e.key)
    (m.addField e.field (convertField e.value))), ?_, ?_⟩
  · rw [step, hadd]
    simp only [Metric.step, updateAt, hm, Option.map_some]
  · refine ⟨by rw [hkeys, h.metrics], by rw [hkeys, h.ordered],
      by rw [length_set]; exact h.length, ?_⟩
    have hset : groups (es ++ [e]) = (groups es).set ((es.map key).eraseDups.idxOf e.key)
        (describe ((es ++ [e]).filter fun e' => e'.key = e.key)) := by
      rw [groups, groups, hkeys]
      refine map_eq_set_idxOf (nodup_eraseDups _) hold fun k _ hk => ?_
      rw [filter_concat, if_neg (Ne.symm hk), append_nil]
    rw [drop_set, if_neg (Nat.not_lt.2 (Nat.le_add_right _ _)), Nat.add_sub_cancel_left,
      map_set, h.views, hset, filter_concat, if_pos rfl, describe_concat hne, ← hview,
      view_addField]
    rfl

theorem Grouped.add_new (hproper : Proper (es ++ [e])) (hnew : e.key ∉ (es.map key).eraseDups) :
    ∃ st', step st e = some st' ∧ Grouped n (es ++ [e]) st' := by
  have hget := h.get_metrics hproper
  rw [if_neg hnew] at hget
  have hkeys : ((es ++ [e]).map key).eraseDups =
      (es.map key).eraseDups ++ [e.key] := by
    rw [map_append, map_singleton, eraseDups_concat, if_neg (mt mem_eraseDups.2 hnew)]
  have hnone : (es.filter fun e' => e'.key = e.key) = [] := by
    rw [filter_eq_nil_iff]
    exact fun e' he' hkey => hnew (mem_keys.2 ⟨e', he', of_decide_eq_true hkey⟩)
  have hupsert : upsert e.id (fun _ => st.2.length) st.1.metrics =
      positions idOf n ((es.map key).eraseDups ++ [e.key]) := by
    rw [upsert_of_get_none _ hget, h.metrics, positions_concat, h.length_eq]
    rfl
  refine ⟨(⟨upsert e.id (fun _ => st.2.length) st.1.metrics, st.1.ordered ++ [st.2.length]⟩,
    st.2 ++ [Metric.ofMaps e.measurement e.again ⟨[(e.field, e.value)], nodup_singleton _⟩
      e.tm none]), ?_, ?_⟩
  · rw [step, add, hget]
    rfl
  · refine ⟨by rw [hkeys, ← hupsert], ?_, ?_, ?_⟩
    · rw [hkeys, h.ordered, length_append, length_singleton, range'_concat,
        h.length_eq, Nat.one_mul]
    · exact h.length.trans (by simp)
    · have hview := view_ofMaps (hproper.convertible e (by simp))
      rw [drop_append_of_le_length h.length, map_append, map_singleton, h.views,
        hview, groups, groups, hkeys, map_append, map_singleton, filter_concat,
        if_pos rfl, hnone, nil_append]
      congr 1
      refine map_congr_left fun k hk => ?_
      have hk' : e.key ≠ k := fun heq => hnew (heq ▸ hk)
      rw [filter_concat, if_neg hk', append_nil]

end Grouped

section

variable {n : ℕ} {es : List (Entry 𝔽)} {st : SeriesGrouper × List (Metric 𝔽)} (h : Grouped n es st)

include h

theorem Grouped.add {e : Entry 𝔽} (hproper : Proper (es ++ [e])) :
    ∃ st', step st e = some st' ∧ Grouped n (es ++ [e]) st' := by
  by_cases hold : e.key ∈ (es.map key).eraseDups
  · exact h.add_old hproper hold
  · exact h.add_new hproper hold

theorem Grouped.addAll (es' : List (Entry 𝔽)) (hproper : Proper (es ++ es')) :
    ∃ st', run step st es' = some st' ∧ Grouped n (es ++ es') st' := by
  induction es' using reverseRecOn with
  | nil => exact ⟨st, rfl, by rwa [append_nil]⟩
  | append_singleton es' e ih =>
    rw [← append_assoc] at hproper ⊢
    obtain ⟨_, hrun, h₁⟩ := ih (hproper.of_subset (subset_append_left _ _))
    obtain ⟨st₂, hstep, h₂⟩ := h₁.add hproper
    refine ⟨st₂, ?_, h₂⟩
    rw [run_snoc, hrun]
    exact hstep

/-- What is read is as the groups say. -/
theorem Grouped.read : (read st).map (Option.map Metric.view) = groups es := by
  rw [← h.views, SeriesGrouper.read, h.ordered, map_map]
  refine ext_getElem? fun i => ?_
  rw [getElem?_map, getElem?_map, getElem?_drop]
  have hlength := h.length_eq
  by_cases hi : i < (es.map key).eraseDups.length
  · rw [getElem?_range' hi, getElem?_eq_getElem (by omega)]
    simp [getElem?_eq_getElem (show n + i < st.2.length by omega)]
  · rw [getElem?_eq_none (by rw [length_range']; omega),
      getElem?_eq_none (show st.2.length ≤ n + i by omega)]
    rfl

end

/-! ## The merge aggregator -/

namespace Merge

/-- What was added since the last `Reset`, with the orders of the iterations. -/
def addedSince (calls : List (Call 𝔽)) : List ((m : Metric 𝔽) × (GoString → TagOrders m)) :=
  calls.foldl (fun added call =>
    match call with
    | .add m orders => added ++ [⟨m, orders⟩]
    | .push _ _ => added
    | .reset => []) []

/-- The calls of `SeriesGrouper.Add` for several metrics. -/
def allEntries (added : List ((m : Metric 𝔽) × (GoString → TagOrders m))) : List (Entry 𝔽) :=
  added.flatMap fun a => entries a.1 a.2

/-- The accumulators changed none of the metrics that they were given since the last `Reset`. -/
def Untouched (calls : List (Call 𝔽)) : Prop :=
  calls.foldl (fun P call =>
    match call with
    | .add _ _ => P
    | .push change _ => P ∧ ∀ ms, change ms = ms
    | .reset => True) True

/-- The group of a metric. -/
def key (m : Metric 𝔽) : GroupKey :=
  ⟨m.name, m.tags, unixNano m.tm⟩

/-- The union of the fields of the metrics in each group, with the last value where metrics have a
field in common. A metric without fields begins no group. -/
def unions (ms : List (Metric 𝔽)) : List (Option (MetricMap 𝔽 × ℤ)) :=
  ((ms.filter fun m => m.fields ≠ []).map key).eraseDups.map fun k =>
    ((ms.filter fun m => m.fields ≠ [] ∧ key m = k).head?).map fun m =>
      (⟨m.name, m.toMap.tags, fun field =>
        ((ms.filter fun m => key m = k).filterMap (Metric.getField · field)).getLast?⟩, m.tm)

theorem sortTags_eq {m : Metric 𝔽} {entries : List (GoString × GoString)}
    (h : entries.Perm (m.tags.map fun t => (t.key, t.value))) : sortTags entries = m.tags := by
  have hperm : (sortTags entries).Perm m.tags := by
    refine (sortTags_perm entries).trans ((h.map _).trans ?_)
    rw [map_map]
    exact List.Perm.of_eq (map_id _)
  refine hperm.eq_of_pairwise (fun t u _ _ htu hut => ?_)
    (sortTags_sorted ⟨entries, nodup_of_perm h⟩) m.tags_sorted
  exact absurd (List.lt_trans htu hut) (List.lt_irrefl _)

section

variable (m : Metric 𝔽) (o : TagOrders m) (f : Field 𝔽)

theorem key_entry : (entry m o f).key = key m := by
  rw [Entry.key, entry, sortTags_eq o.first_perm]
  rfl

theorem tags_entry : (entry m o f).tags.get = m.toMap.tags := by
  rw [← lookup_sortTags, entry, sortTags_eq o.first_perm]
  rfl

end

theorem map_key_entries (m : Metric 𝔽) (orders : GoString → TagOrders m) :
    (entries m orders).map Entry.key = List.replicate m.fields.length (key m) := by
  rw [entries, map_map, eq_replicate_iff]
  refine ⟨length_map _, fun k hk => ?_⟩
  obtain ⟨f, -, rfl⟩ := mem_map.1 hk
  exact key_entry m _ f

theorem filter_entries (m : Metric 𝔽) (orders : GoString → TagOrders m) (k : GroupKey) :
    ((entries m orders).filter fun e => e.key = k) =
      if key m = k then entries m orders else [] := by
  have hkey : ∀ e ∈ entries m orders, e.key = key m := by
    intro e he
    obtain ⟨f, -, rfl⟩ := mem_map.1 he
    exact key_entry m _ f
  split_ifs with hk
  · exact filter_eq_self.2 fun e he => decide_eq_true ((hkey e he).trans hk)
  · exact filter_eq_nil_iff.2 fun e he h => hk ((hkey e he).symm.trans (of_decide_eq_true h))

theorem keys_allEntries (added : List ((m : Metric 𝔽) × (GoString → TagOrders m))) :
    ((allEntries added).map Entry.key).eraseDups =
      (((added.map Sigma.fst).filter fun m => m.fields ≠ []).map key).eraseDups := by
  have hkeys : (allEntries added).map Entry.key =
      (added.map Sigma.fst).flatMap fun m => replicate m.fields.length (key m) := by
    rw [allEntries, map_flatMap, flatMap_map]
    exact flatMap_congr fun a _ => map_key_entries a.1 a.2
  rw [hkeys, eraseDups_flatMap_replicate]
  congr 3
  funext m
  simp [length_eq_zero_iff]

/-- The first entry of a group is of the first metric with fields. -/
theorem head_allEntries (k : GroupKey) :
    ∀ added : List ((m : Metric 𝔽) × (GoString → TagOrders m)),
    (((allEntries added).filter fun e => e.key = k).head?).map
        (fun e => (e.measurement, e.tags.get, e.tm)) =
      (((added.map Sigma.fst).filter fun m => m.fields ≠ [] ∧ key m = k).head?).map
        fun m => (m.name, m.toMap.tags, m.tm)
  | [] => rfl
  | ⟨m, orders⟩ :: added => by
    have ih := head_allEntries k added
    rw [allEntries, flatMap_cons, filter_append, filter_entries, ← allEntries,
      map_cons, filter_cons]
    by_cases hk : key m = k
    · cases hfields : m.fields with
      | nil => simpa [hk, hfields, entries] using ih
      | cons =>
        simp only [hk, hfields, entries, map_cons, if_true, cons_append, head?_cons,
          Option.map_some, tags_entry, ne_eq, reduceCtorEq, not_false_eq_true, true_and,
          decide_true]
        rfl
    · simpa [hk] using ih

/-- The values of a field of a metric. -/
theorem values_entries (m : Metric 𝔽) (orders : GoString → TagOrders m) (field : GoString) :
    (((entries m orders).filter fun e => e.field = field).map fun e => convertField e.value) =
      (m.getField field).toList := by
  have hvalues : (((entries m orders).filter fun e => e.field = field).map
      fun e => convertField e.value) =
      (m.fields.filter fun f => f.key == field).map Field.value := by
    rw [entries, filter_map, map_map]
    have hfilter : ((fun e : Entry 𝔽 => decide (e.field = field)) ∘
        fun f : Field 𝔽 => entry m (orders f.key) f) = fun f => f.key == field := by
      funext f
      rw [beq_eq_decide]
      rfl
    rw [hfilter]
    exact map_congr_left fun f _ => convertField_toGoValue f.value
  rw [hvalues, Metric.getField, ← head?_filter]
  have hnodup : ((m.fields.filter fun f => f.key == field).map Field.key).Nodup :=
    m.fields_nodup.sublist (filter_sublist.map Field.key)
  cases hfields : m.fields.filter fun f => f.key == field with
  | nil => rfl
  | cons f fields =>
    cases fields with
    | nil => rfl
    | cons f' fields =>
      have hmem : ∀ g ∈ m.fields.filter (fun f => f.key == field), g.key = field := fun g hg =>
        eq_of_beq (mem_filter.1 hg).2
      rw [hfields] at hmem hnodup
      rw [map_cons, map_cons, nodup_cons, hmem f (by simp), hmem f' (by simp)]
        at hnodup
      simp at hnodup

theorem lastValue_allEntries (k : GroupKey) (field : GoString)
    (added : List ((m : Metric 𝔽) × (GoString → TagOrders m))) :
    lastValue ((allEntries added).filter fun e => e.key = k) field =
      (((added.map Sigma.fst).filter fun m => key m = k).filterMap
        (Metric.getField · field)).getLast? := by
  have hvalues : ((((allEntries added).filter fun e => e.key = k).filter
      fun e => e.field = field).map fun e => convertField e.value) =
      ((added.map Sigma.fst).filter fun m => key m = k).filterMap (Metric.getField · field) := by
    induction added with
    | nil => rfl
    | cons a added ih =>
      rw [allEntries, flatMap_cons, filter_append, filter_entries, ← allEntries,
        filter_append, map_append, ih, map_cons, filter_cons]
      by_cases hk : key a.1 = k
      · rw [if_pos hk, values_entries, if_pos (decide_eq_true hk), filterMap_cons]
        cases a.1.getField field <;> rfl
      · rw [if_neg hk, if_neg (by simpa using hk)]
        rfl
  rw [lastValue, ← getLast?_map, hvalues]

/-- The groups of all entries are the unions of the metrics. -/
theorem groups_allEntries (added : List ((m : Metric 𝔽) × (GoString → TagOrders m))) :
    groups (allEntries added) = unions (added.map Sigma.fst) := by
  rw [groups, unions, keys_allEntries]
  refine map_congr_left fun k _ => ?_
  have hhead := congrArg (Option.map fun d : GoString × (GoString → Option GoString) × ℤ =>
    ((⟨d.1, d.2.1, lastValue ((allEntries added).filter fun e => e.key = k)⟩ : MetricMap 𝔽), d.2.2))
    (head_allEntries k added)
  rw [Option.map_map, Option.map_map] at hhead
  rw [describe, ← funext (lastValue_allEntries k · added)]
  exact hhead

/-! ### Runs -/

/-- The references of the grouper are to metrics. -/
def Valid (st : SeriesGrouper × List (Metric 𝔽)) : Prop :=
  ∀ p ∈ st.1.metrics, p.2 < st.2.length

section

variable {st : SeriesGrouper × List (Metric 𝔽)} (h : Valid st)

include h

theorem Valid.step (e : Entry 𝔽) : ∃ st', SeriesGrouper.step st e = some st' ∧ Valid st' := by
  cases hget : get st.1.metrics e.id with
  | none =>
    refine ⟨_, by rw [SeriesGrouper.step, SeriesGrouper.add, hget]; rfl, fun p hp => ?_⟩
    dsimp only at hp ⊢
    rw [length_append, length_singleton]
    rw [upsert_of_get_none _ hget] at hp
    rcases mem_append.1 hp with hp | hp
    · exact Nat.lt_succ_of_lt (h p hp)
    · rw [mem_singleton.1 hp]
      exact Nat.lt_succ_self _
  | some i =>
    have hi := h (e.id, i) (mem_of_get hget)
    refine ⟨(st.1, st.2.set i (st.2[i].addField e.field (convertField e.value))), ?_, ?_⟩
    · rw [SeriesGrouper.step, SeriesGrouper.add, hget]
      simp only [Metric.step, updateAt, getElem?_eq_getElem hi, Option.map_some]
    · intro p hp
      dsimp only
      rw [length_set]
      exact h p hp

theorem Valid.run (es : List (Entry 𝔽)) :
    ∃ st', run SeriesGrouper.step st es = some st' ∧ Valid st' := by
  induction es generalizing st with
  | nil => exact ⟨st, rfl, h⟩
  | cons e es ih =>
    obtain ⟨_, hstep, h₁⟩ := h.step e
    obtain ⟨st₂, hrun, h₂⟩ := ih h₁
    refine ⟨st₂, ?_, h₂⟩
    rw [run_cons, hstep]
    exact hrun

end

/-- Every call returns, and the grouper has what was added since the last `Reset`. -/
theorem run_grouped (ms₀ : List (Metric 𝔽)) (calls : List (Call 𝔽)) :
    ∃ st, run step (SeriesGrouper.new, ms₀) calls = some st ∧ Valid st ∧
      (Proper (allEntries (addedSince calls)) → Untouched calls →
        ∃ n, Grouped n (allEntries (addedSince calls)) st) := by
  induction calls using reverseRecOn with
  | nil =>
    exact ⟨_, rfl, fun p hp => absurd hp not_mem_nil, fun _ _ => ⟨_, Grouped.new ms₀⟩⟩
  | append_singleton calls call ih =>
    obtain ⟨st, hrun, hvalid, hgrouped⟩ := ih
    rw [run_snoc, hrun, Option.bind_some, addedSince, Untouched, foldl_append,
      foldl_append, ← addedSince, ← Untouched]
    cases call with
    | add m orders =>
      have hall : allEntries (addedSince calls ++ [⟨m, orders⟩]) =
          allEntries (addedSince calls) ++ entries m orders := by
        rw [allEntries, flatMap_append, flatMap_singleton, ← allEntries]
      obtain ⟨st', hrun', hvalid'⟩ := hvalid.run (entries m orders)
      refine ⟨st', hrun', hvalid', fun hproper huntouched => ?_⟩
      simp only [foldl_cons, foldl_nil, hall] at hproper huntouched ⊢
      obtain ⟨n, h⟩ := hgrouped (hproper.of_subset (subset_append_left _ _)) huntouched
      obtain ⟨_, hrun'', h''⟩ := h.addAll (entries m orders) hproper
      rw [hrun'] at hrun''
      rw [Option.some.inj hrun'']
      exact ⟨n, h''⟩
    | push change hlength =>
      refine ⟨_, rfl, fun p hp => ?_, fun hproper huntouched => ?_⟩
      · dsimp only
        rw [hlength]
        exact hvalid p hp
      · simp only [foldl_cons, foldl_nil] at hproper huntouched ⊢
        rw [huntouched.2]
        exact hgrouped hproper huntouched.1
    | reset =>
      exact ⟨_, rfl, fun p hp => absurd hp not_mem_nil, fun _ _ => ⟨_, Grouped.new st.2⟩⟩

end Merge

/-! ## Times -/

/-- The times that `UnixNano` can represent. -/
def InRange (tm : ℤ) : Prop :=
  -2 ^ 63 ≤ tm ∧ tm < 2 ^ 63

theorem unixNano_inj {tm tm' : ℤ} (h : InRange tm) (h' : InRange tm')
    (heq : unixNano tm = unixNano tm') : tm = tm' := by
  have hint := congrArg Int64.toInt heq
  rwa [unixNano, unixNano, Int64.toInt_ofInt_of_le h.1 h.2, Int64.toInt_ofInt_of_le h'.1 h'.2]
    at hint

theorem sortTags_eq_iff (tags tags' : GoMap GoString) :
    sortTags tags.entries = sortTags tags'.entries ↔ tags.get = tags'.get := by
  constructor
  · intro h
    rw [← lookup_sortTags, ← lookup_sortTags, h]
  · intro h
    have hmaps : (Metric.ofMaps [] tags ⟨[], nodup_nil⟩ 0 none : Metric Unit).toMap.tags =
        (Metric.ofMaps [] tags' ⟨[], nodup_nil⟩ 0 none : Metric Unit).toMap.tags := by
      rw [Metric.toMap_ofMaps, Metric.toMap_ofMaps]
      exact h
    exact Metric.tags_eq_of_toMap hmaps

/-- Up to the range of the times, a group is a name, a map of tags and a time. -/
theorem Entry.key_eq_iff (h : InRange e.tm) (h' : InRange e'.tm) :
    e.key = e'.key ↔ e.measurement = e'.measurement ∧ e.tags.get = e'.tags.get ∧ e.tm = e'.tm := by
  rw [GroupKey.ext_iff, key, key, sortTags_eq_iff]
  exact and_congr_right fun _ => and_congr_right fun _ => ⟨unixNano_inj h h', congrArg unixNano⟩

/-- Entries without newlines and collisions are grouped without loss : `Metrics` returns one metric
for each name, map of tags and `UnixNano` of the time, in the order of the first entries, with the
last value of each field. The merge aggregator pushes the unions of the metrics since the last
`Reset`. Where `UnixNano` can represent the times, it stands for the time. -/
theorem grouped_without_loss (ms₀ : List (Metric 𝔽)) :
    (∀ es : List (Entry 𝔽), Proper es →
      ∃ st, run step (new, ms₀) es = some st ∧
        (read st).map (Option.map Metric.view) = groups es) ∧
    (∀ calls : List (Merge.Call 𝔽), Proper (Merge.allEntries (Merge.addedSince calls)) →
      Merge.Untouched calls →
      ∃ st, run Merge.step (new, ms₀) calls = some st ∧
        (read st).map (Option.map Metric.view) =
          Merge.unions ((Merge.addedSince calls).map Sigma.fst)) ∧
    ∀ e e' : Entry 𝔽, InRange e.tm → InRange e'.tm → (e.key = e'.key ↔
      e.measurement = e'.measurement ∧ e.tags.get = e'.tags.get ∧ e.tm = e'.tm) := by
  refine ⟨fun es hproper => ?_, fun calls hproper huntouched => ?_,
    fun e e' h h' => key_eq_iff h h'⟩
  · obtain ⟨st, hrun, h⟩ := (Grouped.new ms₀).addAll es (by rwa [nil_append])
    rw [nil_append] at h
    exact ⟨st, hrun, h.read⟩
  · obtain ⟨st, hrun, -, hgrouped⟩ := Merge.run_grouped ms₀ calls
    obtain ⟨n, h⟩ := hgrouped hproper huntouched
    exact ⟨st, hrun, h.read.trans (Merge.groups_allEntries _)⟩

/-- All iterations as the list of the tags has it. -/
def Merge.inOrder (m : Metric Unit) (_ : GoString) : Merge.TagOrders m :=
  ⟨_, _, List.Perm.refl _, List.Perm.refl _⟩

/-- A field of a host. -/
def hostMetric (host field : GoString) (tm : ℤ) : Metric Unit :=
  ((Metric.empty (str "cpu") tm .untyped).addTag (str "host") host).addField field (.int 1)

/-- Two fields of one host and one of another, which are pushed. -/
def threeFields : List (Merge.Call Unit) :=
  [.add (hostMetric (str "a") (str "idle") 0) (Merge.inOrder _),
    .add (hostMetric (str "b") (str "idle") 0) (Merge.inOrder _),
    .add (hostMetric (str "a") (str "user") 0) (Merge.inOrder _), .push id fun _ => rfl]

theorem grouped_without_loss_three_fields :
    Proper (Merge.allEntries (Merge.addedSince threeFields)) ∧ Merge.Untouched threeFields ∧
    (∃ st, run step (new, [])
        (Merge.allEntries (Merge.addedSince threeFields)) = some st ∧
      (read st).map (Option.map Metric.view) =
        groups (Merge.allEntries (Merge.addedSince threeFields))) ∧
    ∃ st, run Merge.step (new, []) threeFields = some st ∧
      (read st).map (Option.map Metric.view) =
        Merge.unions ((Merge.addedSince threeFields).map Sigma.fst) := by
  have hproper : Proper (Merge.allEntries (Merge.addedSince threeFields)) :=
    ⟨by decide +kernel, by decide +kernel, by decide +kernel⟩
  have huntouched : Merge.Untouched threeFields := ⟨trivial, fun _ => rfl⟩
  obtain ⟨hgroups, hmerge, -⟩ := grouped_without_loss ([] : List (Metric Unit))
  exact ⟨hproper, huntouched, hgroups _ hproper, hmerge _ hproper huntouched⟩

/-- Two metrics of one host, 2^64 nanoseconds apart. -/
def yearsApart : List (Entry Unit) :=
  Merge.allEntries [⟨hostMetric (str "a") (str "idle") 0, Merge.inOrder _⟩,
    ⟨hostMetric (str "a") (str "user") (2 ^ 64), Merge.inOrder _⟩]

/-- The accumulator that the first `Push` is given renames the metric. -/
def renamed : List (Merge.Call Unit) :=
  [.add (hostMetric (str "a") (str "idle") 0) (Merge.inOrder _),
    .push (map fun m => { m with name := str "mem" }) fun _ => length_map _]

theorem years_apart_grouped :
    (Proper yearsApart ∧ (yearsApart.map tm).Nodup ∧ yearsApart.length = 2 ∧
      ∃ st, run step (new, []) yearsApart = some st ∧ (read st).length = 1) ∧
    Proper (Merge.allEntries (Merge.addedSince renamed)) ∧
      ∃ st, run Merge.step (new, []) renamed = some st ∧
        (read st).map (Option.map Metric.view) ≠
          Merge.unions ((Merge.addedSince renamed).map Sigma.fst) := by
  have hproper : Proper yearsApart := ⟨by decide +kernel, by decide +kernel, by decide +kernel⟩
  have hrun : ((run step (new, []) yearsApart).map
      fun st => (read st).length) = some 1 := by decide +kernel
  obtain ⟨st, hrun, hlength⟩ := Option.map_eq_some_iff.1 hrun
  have hrenamed : ((run Merge.step (new, []) renamed).map
      fun st => (read st).map (Option.map Metric.name)) = some [some (str "mem")] := by
    decide +kernel
  obtain ⟨st', hrun', hnames⟩ := Option.map_eq_some_iff.1 hrenamed
  refine ⟨⟨hproper, by decide +kernel, by decide +kernel, st, hrun, hlength⟩,
    ⟨by decide +kernel, by decide +kernel, by decide +kernel⟩, st', hrun', fun heq => ?_⟩
  have hviews : ((read st').map (Option.map Metric.view)).map (Option.map fun v => v.1.name) =
      (read st').map (Option.map Metric.name) := by
    rw [map_map]
    exact map_congr_left fun o _ => Option.map_map ..
  rw [heq, hnames] at hviews
  revert hviews
  decide +kernel

end Telegraf
