import Telegraf.Histogram

/-!
# The cache of the histogram aggregator

The borders of a field are those of the last config for it (`borders`) : they are selected at the
first call of `getBuckets`, sorted in place and cached (`Ready`). `Holds` says what the cache has
after a list of metrics : one entry for each series, and for each of its fields with borders the
tally of the values (`countsOf_eq`). `Ready.add` and `Holds.added` : a call of `Add` returns and
keeps both, as long as no two series have one hash.
-/

open List hiding get lookup lookup_cons lookup_nil

namespace Telegraf.Histogram

open KeyedLists Tally HistogramAggregator

/-! ## Borders -/

/-- The borders for a field of a metric : those of the last config for it, in order. -/
def borders (configs : List Config) (metric field : GoString) : Option (List ℚ) :=
  ((configs.filter fun cfg => cfg.covers metric field).getLast?).bind fun cfg => cfg.sorted.buckets

theorem pairwise_of_needsSort : ∀ {b : List ℚ}, needsSort b = false → b.Pairwise (· ≤ ·)
  | [], _ => List.Pairwise.nil
  | [b], _ => List.pairwise_singleton _ _
  | b :: b' :: bs, h => by
    simp only [needsSort, Bool.or_eq_false_iff, decide_eq_false_iff_not, not_le] at h
    have hrest := pairwise_of_needsSort h.2
    refine pairwise_cons.2 ⟨fun c hc => ?_, hrest⟩
    rcases mem_cons.1 hc with rfl | hc
    · exact h.1.le
    · exact h.1.le.trans (rel_of_pairwise_cons hrest hc)

theorem pairwise_sortBuckets (b : List ℚ) : (sortBuckets b).Pairwise (· ≤ ·) := by
  unfold sortBuckets
  split_ifs with h
  · exact pairwise_insertionSort _ b
  · exact pairwise_of_needsSort (by simpa using h)

theorem sortBuckets_sortBuckets (b : List ℚ) : sortBuckets (sortBuckets b) = sortBuckets b := by
  conv_lhs => rw [sortBuckets]
  split_ifs
  · exact List.Pairwise.insertionSort_eq (pairwise_sortBuckets b)
  · rfl

theorem Config.sorted_sorted (cfg : Config) : cfg.sorted.sorted = cfg.sorted := by
  simp [Config.sorted, Option.map_map, Function.comp_def, sortBuckets_sortBuckets]

variable {configs : List Config} {b : List ℚ}

theorem pairwise_borders {metric field : GoString}
    (h : borders configs metric field = some b) : b.Pairwise (· ≤ ·) := by
  obtain ⟨_, -, hcfg⟩ := Option.bind_eq_some_iff.1 h
  obtain ⟨b', -, rfl⟩ := Option.map_eq_some_iff.1 hcfg
  exact pairwise_sortBuckets b'

/-- The borders are the same after slices were sorted in place. -/
theorem borders_map_sorted (configs : List Config) (p : Config → Bool) (metric field : GoString) :
    borders (configs.map fun cfg => if p cfg then cfg.sorted else cfg) metric field =
      borders configs metric field := by
  have hcovers : ∀ cfg : Config, (if p cfg then cfg.sorted else cfg).covers metric field =
      cfg.covers metric field := by
    intro cfg
    split_ifs <;> rfl
  have hsorted : ∀ cfg : Config, (if p cfg then cfg.sorted else cfg).sorted = cfg.sorted := by
    intro cfg
    split_ifs
    · exact cfg.sorted_sorted
    · rfl
  rw [borders, borders, filter_map, getLast?_map, Option.bind_map]
  simp only [Function.comp_def, hcovers, hsorted]

/-- The borders that are cached are those of the configuration, which may have been sorted. -/
structure Ready (configs : List Config) (h : HistogramAggregator) : Prop where
  borders_eq : ∀ metric field, borders h.configs metric field = borders configs metric field
  cached : ∀ metric field b, get h.buckets (metric, field) = some b →
    b = borders configs metric field

theorem get_foldl_select (metric field : GoString) (configs : List Config)
    (buckets : List ((GoString × GoString) × Option (List ℚ))) (key : GoString × GoString) :
    get (configs.foldl (fun buckets cfg =>
      if cfg.covers metric field then
        upsert (metric, field) (fun _ => cfg.sorted.buckets) buckets
      else buckets) buckets) key =
    if key = (metric, field) ∧ (configs.filter fun cfg => cfg.covers metric field) ≠ [] then
      some (borders configs metric field)
    else get buckets key := by
  induction configs using reverseRecOn with
  | nil => simp
  | append_singleton configs cfg ih =>
    rw [foldl_append, foldl_cons, foldl_nil, borders, filter_append]
    by_cases hcovers : cfg.covers metric field
    · rw [if_pos hcovers, get_upsert, ih, filter_cons_of_pos hcovers, filter_nil, getLast?_concat]
      by_cases hkey : key = (metric, field) <;> simp [hkey]
    · rw [if_neg hcovers, ih, filter_cons_of_neg hcovers, filter_nil, append_nil, borders]

/-- `getBuckets` gives the borders of the configuration, and changes nothing else. -/
theorem Ready.getBuckets {h : HistogramAggregator} (hr : Ready configs h)
    (metric field : GoString) :
    (h.getBuckets metric field).2 = borders configs metric field ∧
      Ready configs (h.getBuckets metric field).1 ∧
      ∃ cfgs bs, (h.getBuckets metric field).1 = { h with configs := cfgs, buckets := bs } := by
  unfold HistogramAggregator.getBuckets
  cases hget : get h.buckets (metric, field) with
  | some b => exact ⟨hr.cached metric field b hget, hr, h.configs, h.buckets, rfl⟩
  | none =>
    dsimp only
    refine ⟨?_, ⟨fun m f => ?_, fun m f b hb => ?_⟩, _, _, rfl⟩
    · rw [get_foldl_select, hget, ← hr.borders_eq]
      split_ifs with hsome
      · rfl
      · have hnil : (h.configs.filter fun cfg => cfg.covers metric field) = [] := by
          by_contra hne
          exact hsome ⟨rfl, hne⟩
        rw [borders, hnil]
        rfl
    · exact (borders_map_sorted h.configs _ m f).trans (hr.borders_eq m f)
    · rw [get_foldl_select] at hb
      split_ifs at hb with hkey
      · obtain ⟨rfl, rfl⟩ := Prod.mk.inj hkey.1
        rw [← Option.some.inj hb, hr.borders_eq]
      · exact hr.cached m f b hb

/-! ## Add -/

/-- The metric has a field with borders. -/
def configured (configs : List Config) (m : Metric ℚ) : Bool :=
  m.fields.any fun f => (borders configs m.name f.key).isSome

/-- The first loop finds the borders of all fields. -/
theorem Ready.foldl_findBuckets (metric : GoString) :
    ∀ (fields : List (Field ℚ)) {h : HistogramAggregator} (found : List (GoString × List ℚ)),
      Ready configs h →
      Ready configs (fields.foldl (findBuckets metric) (h, found)).1 ∧
      (∃ cfgs bs, (fields.foldl (findBuckets metric) (h, found)).1 =
        { h with configs := cfgs, buckets := bs }) ∧
      ∀ k, get (fields.foldl (findBuckets metric) (h, found)).2 k =
        if k ∈ fields.map Field.key ∧ (borders configs metric k).isSome then
          borders configs metric k
        else get found k
  | [], h, found, hr => ⟨hr, ⟨h.configs, h.buckets, rfl⟩, fun k => by simp⟩
  | field :: fields, h, found, hr => by
    obtain ⟨hb, hr', cfgs, bs, hsame⟩ := hr.getBuckets metric field.key
    rw [foldl_cons]
    have hstep : ∃ found', findBuckets metric (h, found) field =
          ((h.getBuckets metric field.key).1, found') ∧
        ∀ k, get found' k = if k = field.key ∧ (borders configs metric k).isSome then
          borders configs metric k else get found k := by
      unfold findBuckets
      dsimp only
      rw [hb]
      cases hborders : borders configs metric field.key with
      | none =>
        refine ⟨found, rfl, fun k => (if_neg ?_).symm⟩
        rintro ⟨rfl, hsome⟩
        rw [hborders] at hsome
        cases hsome
      | some =>
        refine ⟨_, rfl, fun k => ?_⟩
        rw [get_upsert]
        by_cases hk : k = field.key
        · simp [hk, hborders]
        · simp [hk]
    obtain ⟨found', heq, hfound'⟩ := hstep
    rw [heq]
    obtain ⟨hr'', ⟨cfgs', bs', hsame'⟩, hget⟩ := hr'.foldl_findBuckets metric fields found'
    refine ⟨hr'', ⟨cfgs', bs', by rw [hsame', hsame]⟩, fun k => ?_⟩
    rw [hget, hfound']
    simp only [map_cons, mem_cons]
    by_cases hsome : (borders configs metric k).isSome = true
    · simp only [hsome, and_true]
      by_cases hk : k = field.key
      · simp only [hk, true_or, if_true, ite_self]
      · simp only [hk, false_or, if_false]
    · simp [hsome]

/-- The counts of a field after a value. -/
def bumpCounts (b : List ℚ) (old : Option (List ℕ)) (v : Option ℚ) : List ℕ :=
  v.elim (old.getD (List.replicate (b.length + 1) 0)) fun v =>
    (old.getD (List.replicate (b.length + 1) 0)).modify (slot b v) (· + 1)

/-- The counts of a field after a metric : they change if the field has borders and the metric has
the field. -/
def countsAfter (old : Option (List ℕ)) :
    Option (List ℚ) → Option (FieldValue ℚ) → Option (List ℕ)
  | some b, some v => some (bumpCounts b old (convert v))
  | _, _ => old

/-- The counts that are there fit the borders. -/
def Fitting (found : List (GoString × List ℚ)) (collection : List (GoString × List ℕ)) : Prop :=
  ∀ k b, get found k = some b → b.Pairwise (· ≤ ·) ∧
    ∀ counts, get collection k = some counts → counts.length = b.length + 1

theorem length_bumpCounts {old : Option (List ℕ)}
    (h : ∀ counts, old = some counts → counts.length = b.length + 1) (v : Option ℚ) :
    (bumpCounts b old v).length = b.length + 1 := by
  have hold : (old.getD (replicate (b.length + 1) 0)).length = b.length + 1 := by
    cases old with
    | none => exact length_replicate
    | some counts => exact h counts rfl
  cases v with
  | none => exact hold
  | some =>
    rw [bumpCounts, Option.elim_some, length_modify]
    exact hold

section

variable {found : List (GoString × List ℚ)}

theorem countField_spec {collection : List (GoString × List ℕ)} (hfit : Fitting found collection)
    (hnodup : (collection.map Prod.fst).Nodup) (field : Field ℚ) :
    ∃ collection', countField found collection field = some collection' ∧
      (collection'.map Prod.fst).Nodup ∧ ∀ k, get collection' k =
        if k = field.key then countsAfter (get collection k) (get found k) (some field.value)
        else get collection k := by
  unfold countField
  cases hb : get found field.key with
  | none =>
    refine ⟨collection, rfl, hnodup, fun k => ?_⟩
    split_ifs with hk
    · rw [hk, hb]
      rfl
    · rfl
  | some b =>
    obtain ⟨hsorted, hlength⟩ := hfit field.key b hb
    have hold := length_bumpCounts hlength none
    -- the counts that are written are those of `bumpCounts`
    have hwrite : ∀ counts, counts = bumpCounts b (get collection field.key) (convert field.value) →
        ∀ k, get (upsert field.key (fun _ => counts) collection) k =
          if k = field.key then countsAfter (get collection k) (get found k) (some field.value)
          else get collection k := by
      intro counts hcounts k
      rw [get_upsert]
      split_ifs with hk
      · rw [hk, hb, hcounts]
        rfl
      · rfl
    dsimp only
    cases hv : convert field.value with
    | none =>
      rw [hv] at hwrite
      exact ⟨_, rfl, nodup_upsert hnodup, hwrite _ rfl⟩
    | some v =>
      rw [hv] at hwrite
      have hslot : slot b v <
          ((get collection field.key).getD (List.replicate (b.length + 1) 0)).length := by
        have := slot_le_length hsorted v
        simp only [bumpCounts, Option.elim_none] at hold
        omega
      exact ⟨_, if_pos hslot, nodup_upsert hnodup, hwrite _ rfl⟩

theorem Fitting.of_countsAfter
    {collection collection' : List (GoString × List ℕ)} (hfit : Fitting found collection)
    (h : ∀ k, get collection' k = get collection k ∨
      ∃ v, get collection' k = countsAfter (get collection k) (get found k) (some v)) :
    Fitting found collection' := by
  intro k b hb
  obtain ⟨hsorted, hlength⟩ := hfit k b hb
  refine ⟨hsorted, fun counts hcounts => ?_⟩
  rcases h k with heq | ⟨v, heq⟩
  · exact hlength counts (heq.symm.trans hcounts)
  · rw [heq, hb] at hcounts
    rw [← Option.some.inj hcounts]
    exact length_bumpCounts hlength _

/-- The second loop counts every field once. -/
theorem foldlM_countField :
    ∀ {fields : List (Field ℚ)} {collection : List (GoString × List ℕ)},
      (fields.map Field.key).Nodup → Fitting found collection →
      (collection.map Prod.fst).Nodup →
      ∃ collection', fields.foldlM (countField found) collection =
          some collection' ∧
        (collection'.map Prod.fst).Nodup ∧ ∀ k, get collection' k =
          countsAfter (get collection k) (get found k) (lookup Field.key Field.value fields k)
  | [], collection, _, _, hnodup => by
    refine ⟨collection, rfl, hnodup, fun k => ?_⟩
    rw [lookup_nil]
    cases get found k <;> rfl
  | field :: fields, collection, hkeys, hfit, hnodup => by
    obtain ⟨hnew, hkeys⟩ := nodup_cons.1 hkeys
    obtain ⟨collection₁, hcount, hnodup₁, hget₁⟩ := countField_spec hfit hnodup field
    have hfit₁ : Fitting found collection₁ := by
      refine hfit.of_countsAfter fun k => ?_
      rw [hget₁]
      split_ifs
      · exact .inr ⟨_, rfl⟩
      · exact .inl rfl
    obtain ⟨collection', hfold, hnodup', hget'⟩ := foldlM_countField hkeys hfit₁ hnodup₁
    refine ⟨collection', ?_, hnodup', fun k => ?_⟩
    · rw [foldlM_cons, hcount]
      exact hfold
    · rw [hget', hget₁, lookup_cons]
      split_ifs with hk
      · -- the key does not come again
        have hnone : lookup Field.key Field.value fields k = none := by
          rw [← Option.not_isSome_iff_eq_none, isSome_lookup, any_eq_true]
          rintro ⟨f, hf, hkey⟩
          exact hnew (mem_map.2 ⟨f, hf, (eq_of_beq hkey).trans hk⟩)
        rw [hnone]
        cases get found k <;> rfl
      · rfl

end

theorem isSome_getField (m : Metric ℚ) (k : GoString) :
    (m.getField k).isSome ↔ k ∈ m.fields.map Field.key := by
  have hlookup : m.getField k = lookup Field.key Field.value m.fields k := rfl
  rw [hlookup, isSome_lookup]
  simp

/-- The entry of the cache for a metric, before it is counted. -/
def entryFor (cache : Cache) (m : Metric ℚ) : Collection :=
  (get cache m.hashID).getD ⟨m.name, m.tags, []⟩

/-- What a call of `Add` does to the cache : nothing to a metric without borders, and otherwise the
entry of the metric is counted. -/
structure Added (configs : List Config) (m : Metric ℚ) (cache cache' : Cache) : Prop where
  unchanged : configured configs m = false → cache' = cache
  counted : configured configs m = true → ∃ collection : List (GoString × List ℕ),
    cache' = upsert m.hashID
      (fun _ => { entryFor cache m with histogramCollection := collection }) cache ∧
    (collection.map Prod.fst).Nodup ∧
    ∀ k, get collection k = countsAfter (get (entryFor cache m).histogramCollection k)
      (borders configs m.name k) (m.getField k)

theorem Ready.add {h : HistogramAggregator} (hr : Ready configs h) (o : Orders) (m : Metric ℚ)
    (hentry : configured configs m = true →
      ((entryFor h.cache m).histogramCollection.map Prod.fst).Nodup ∧
      ∀ k b, borders configs m.name k = some b →
        ∀ counts, get (entryFor h.cache m).histogramCollection k = some counts →
          counts.length = b.length + 1) :
    ∃ h', h.add o m = some h' ∧ Ready configs h' ∧ h'.resetBuckets = h.resetBuckets ∧
      h'.cumulative = h.cumulative ∧ Added configs m h.cache h'.cache := by
  obtain ⟨hr', ⟨_, _, hsame⟩, hget⟩ := hr.foldl_findBuckets m.name (o.fields m.fields) []
  have hkeys : ∀ k, k ∈ (o.fields m.fields).map Field.key ↔ (m.getField k).isSome := by
    intro k
    rw [((o.fields_perm m.fields).map _).mem_iff, isSome_getField]
  unfold HistogramAggregator.add
  generalize (o.fields m.fields).foldl (findBuckets m.name) (h, []) = st
    at hr' hsame hget
  obtain ⟨_, found⟩ := st
  dsimp only at hr' hsame hget ⊢
  subst hsame
  have hfound : ∀ k b, get found k = some b ↔
      (m.getField k).isSome ∧ borders configs m.name k = some b := by
    intro k b
    rw [hget, ← hkeys]
    split_ifs with hk
    · exact (and_iff_right hk.1).symm
    · refine iff_of_false (fun hb => nomatch hb) fun ⟨hk', hb⟩ => hk ⟨hk', by rw [hb]; rfl⟩
  have hconfigured : configured configs m = true ↔ found ≠ [] := by
    rw [configured, any_eq_true]
    constructor
    · rintro ⟨f, hf, hsome⟩ rfl
      obtain ⟨b, hb⟩ := Option.isSome_iff_exists.1 hsome
      have hfield := (isSome_getField m f.key).2 (mem_map_of_mem hf)
      exact nomatch (hfound f.key b).2 ⟨hfield, hb⟩
    · intro hne
      obtain ⟨e, l, rfl⟩ := exists_cons_of_ne_nil hne
      obtain ⟨hfield, hb⟩ := (hfound e.1 e.2).1 (by rw [get_cons, if_pos rfl])
      obtain ⟨f, hf, hkey⟩ := mem_map.1 ((isSome_getField m e.1).1 hfield)
      exact ⟨f, hf, by rw [hkey, hb]; rfl⟩
  by_cases hnil : found = []
  · rw [if_pos hnil]
    exact ⟨_, rfl, hr', rfl, rfl, fun _ => rfl, fun hc => absurd hnil (hconfigured.1 hc)⟩
  · rw [if_neg hnil]
    obtain ⟨hnodup, hfit⟩ := hentry (hconfigured.2 hnil)
    have hfitting : Fitting found (entryFor h.cache m).histogramCollection := by
      intro k b hb
      have hborders := ((hfound k b).1 hb).2
      exact ⟨pairwise_borders hborders, hfit k b hborders⟩
    have hperm := o.fieldsAgain_perm m.fields
    have hnodup' := ((hperm.map Field.key).nodup_iff).2 m.fields_nodup
    obtain ⟨collection, hfold, hcollection, hcounts⟩ := foldlM_countField hnodup' hfitting hnodup
    refine ⟨_, congrArg (Option.map _) hfold, ⟨hr'.borders_eq, hr'.cached⟩, rfl, rfl,
      fun hc => absurd (hconfigured.2 hnil) (by rw [hc]; exact Bool.false_ne_true),
      fun _ => ⟨collection, rfl, hcollection, fun k => ?_⟩⟩
    rw [hcounts, lookup_perm hperm hnodup']
    show countsAfter _ _ (m.getField k) = _
    cases hv : m.getField k with
    | none => cases get found k <;> cases borders configs m.name k <;> rfl
    | some =>
      have hsame : get found k = borders configs m.name k := by
        refine Option.ext fun b => ?_
        rw [hfound, hv]
        simp
      rw [hsame]

/-! ## The cache -/

/-- The metrics of a series. -/
def seriesOf (ms : List (Metric ℚ)) (name : GoString) (tags : List Tag) : List (Metric ℚ) :=
  ms.filter fun m => m.name = name ∧ m.tags = tags

/-- The values of a field that are counted. -/
def countedValues (ms : List (Metric ℚ)) (name : GoString) (tags : List Tag) (k : GoString) :
    List ℚ :=
  (seriesOf ms name tags).filterMap fun m => (m.getField k).bind convert

/-- The counts of a field of a series. -/
def countsOf (configs : List Config) (ms : List (Metric ℚ)) (name : GoString) (tags : List Tag)
    (k : GoString) : Option (List ℕ) :=
  (seriesOf ms name tags).foldl
    (fun old m => countsAfter old (borders configs name k) (m.getField k)) none

theorem seriesOf_concat (ms : List (Metric ℚ)) (m : Metric ℚ) (name : GoString) (tags : List Tag) :
    seriesOf (ms ++ [m]) name tags =
      seriesOf ms name tags ++ if m.name = name ∧ m.tags = tags then [m] else [] := by
  simp [seriesOf, filter_append, filter_cons]

/-- The counts are the tally of the values, once the series had the field. -/
theorem countsOf_eq (configs : List Config) (ms : List (Metric ℚ)) (name : GoString)
    (tags : List Tag) (k : GoString) :
    countsOf configs ms name tags k =
      if ∃ m ∈ seriesOf ms name tags, (m.getField k).isSome then
        (borders configs name k).map fun b => tally b (countedValues ms name tags k)
      else none := by
  rw [countsOf, countedValues]
  generalize seriesOf ms name tags = l
  cases borders configs name k with
  | none =>
    have hnone : ∀ l : List (Metric ℚ),
        l.foldl (fun old m => countsAfter old none (m.getField k)) none = none := by
      intro l
      induction l with
      | nil => rfl
      | cons m l ih => exact ih
    simp [hnone]
  | some b =>
    induction l using reverseRecOn with
    | nil => simp
    | append_singleton l m ih =>
      rw [foldl_append, foldl_cons, foldl_nil, ih, filterMap_append]
      cases hv : m.getField k with
      | none => simp [countsAfter, hv]
      | some v =>
        have hsome : ∃ m' ∈ l ++ [m], (m'.getField k).isSome := ⟨m, by simp, by rw [hv]; rfl⟩
        rw [if_pos hsome, Option.map_some, countsAfter]
        -- a field that is new has no values before
        have hold : (if ∃ m ∈ l, (m.getField k).isSome then
            some (tally b (l.filterMap fun m => (m.getField k).bind convert)) else none).getD
              (replicate (b.length + 1) 0) =
            tally b (l.filterMap fun m => (m.getField k).bind convert) := by
          split_ifs with hl
          · rfl
          · have hnil : (l.filterMap fun m => (m.getField k).bind convert) = [] := by
              refine filterMap_eq_nil_iff.2 fun m' hm' => ?_
              cases hm'' : m'.getField k with
              | none => rfl
              | some => exact absurd ⟨m', hm', by rw [hm'']; rfl⟩ hl
            rw [hnil]
            rfl
        rw [bumpCounts, hold]
        cases hc : convert v with
        | none => simp [hv, hc]
        | some => simp [hv, hc, tally_concat]

theorem length_countsOf {ms : List (Metric ℚ)} {name : GoString} {tags : List Tag} {k : GoString}
    {counts : List ℕ} (h : countsOf configs ms name tags k = some counts)
    (hb : borders configs name k = some b) : counts.length = b.length + 1 := by
  rw [countsOf_eq, hb] at h
  split_ifs at h
  rw [← Option.some.inj h, length_tally]

/-- No two series of the metrics have one hash. -/
def NoCollision (ms : List (Metric ℚ)) : Prop :=
  ∀ m ∈ ms, ∀ m' ∈ ms, m.hashID = m'.hashID → m.name = m'.name ∧ m.tags = m'.tags

instance (ms : List (Metric ℚ)) : Decidable (NoCollision ms) :=
  inferInstanceAs (Decidable (∀ m ∈ ms, ∀ m' ∈ ms, _ → _))

theorem NoCollision.filter_of_subset {ms ms' : List (Metric ℚ)} {p : Metric ℚ → Bool}
    (h : NoCollision (ms'.filter p)) (hsub : ms ⊆ ms') : NoCollision (ms.filter p) := by
  have hmem : ∀ m ∈ ms.filter p, m ∈ ms'.filter p := fun m hm =>
    mem_filter.2 ⟨hsub (mem_filter.1 hm).1, (mem_filter.1 hm).2⟩
  exact fun m hm m' hm' => h m (hmem m hm) m' (hmem m' hm')

/-- The cache after metrics with borders. -/
structure Holds (configs : List Config) (ms : List (Metric ℚ)) (cache : Cache) : Prop where
  keys : (cache.map Prod.fst).Nodup
  fields : ∀ e ∈ cache, (e.2.histogramCollection.map Prod.fst).Nodup
  series : ∀ e ∈ cache, ∃ m ∈ ms, m.hashID = e.1 ∧ m.name = e.2.name ∧ m.tags = e.2.tags
  complete : ∀ m ∈ ms, ∃ e ∈ cache, e.1 = m.hashID ∧ e.2.name = m.name ∧ e.2.tags = m.tags
  counts : ∀ e ∈ cache, ∀ k, get e.2.histogramCollection k =
    countsOf configs ms e.2.name e.2.tags k

theorem hashID_eq {m m' : Metric ℚ} (hname : m.name = m'.name) (htags : m.tags = m'.tags) :
    m.hashID = m'.hashID := by
  rw [Metric.hashID, Metric.hashID, hname, htags]

section Holds

variable {configs : List Config} {ms : List (Metric ℚ)} {cache : Cache}
  (h : Holds configs ms cache) {m : Metric ℚ} (hhash : NoCollision (ms ++ [m]))
include h hhash

theorem Holds.entryFor :
    (entryFor cache m).name = m.name ∧ (entryFor cache m).tags = m.tags ∧
      ((entryFor cache m).histogramCollection.map Prod.fst).Nodup ∧
      ∀ k, get (entryFor cache m).histogramCollection k = countsOf configs ms m.name m.tags k := by
  unfold Histogram.entryFor
  cases hget : get cache m.hashID with
  | none =>
    refine ⟨rfl, rfl, nodup_nil, fun k => ?_⟩
    have hnil : seriesOf ms m.name m.tags = [] := by
      refine filter_eq_nil_iff.2 fun m' hm' hsame => ?_
      obtain ⟨hname, htags⟩ := of_decide_eq_true hsame
      obtain ⟨e, he, hid, -⟩ := h.complete m' hm'
      rw [hashID_eq hname htags] at hid
      rw [← hid, (get_eq_some_iff h.keys).2 he] at hget
      cases hget
    rw [countsOf, hnil]
    rfl
  | some =>
    have he := (get_eq_some_iff h.keys).1 hget
    obtain ⟨m', hm', hid, hname, htags⟩ := h.series _ he
    obtain ⟨hname', htags'⟩ := hhash m' (mem_append_left _ hm') m (by simp) hid
    have hn := hname.symm.trans hname'
    have ht := htags.symm.trans htags'
    refine ⟨hn, ht, h.fields _ he, fun k => ?_⟩
    rw [← hn, ← ht]
    exact h.counts _ he k

theorem Holds.added (hc : configured configs m = true) {cache' : Cache}
    (hadded : Added configs m cache cache') : Holds configs (ms ++ [m]) cache' := by
  obtain ⟨hname, htags, -, hold⟩ := h.entryFor hhash
  obtain ⟨collection, rfl, hnodup, hcollection⟩ := hadded.counted hc
  have hcases : ∀ e, e ∈ upsert m.hashID
      (fun _ => { Histogram.entryFor cache m with histogramCollection := collection }) cache ↔
      e = (m.hashID, { Histogram.entryFor cache m with histogramCollection := collection }) ∨
        e ∈ cache ∧ e.1 ≠ m.hashID := fun e => mem_upsert_iff h.keys
  refine ⟨nodup_upsert h.keys, fun e he => ?_, fun e he => ?_, fun m' hm' => ?_, fun e he k => ?_⟩
  · rcases (hcases e).1 he with rfl | ⟨he, -⟩
    · exact hnodup
    · exact h.fields e he
  · rcases (hcases e).1 he with rfl | ⟨he, -⟩
    · exact ⟨m, by simp, rfl, hname.symm, htags.symm⟩
    · obtain ⟨m', hm', hseries⟩ := h.series e he
      exact ⟨m', mem_append_left _ hm', hseries⟩
  · by_cases hid : m'.hashID = m.hashID
    · obtain ⟨hname', htags'⟩ := hhash m' hm' m (by simp) hid
      exact ⟨_, (hcases _).2 (.inl rfl), hid.symm, hname.trans hname'.symm,
        htags.trans htags'.symm⟩
    · rcases mem_append.1 hm' with hm' | hm'
      · obtain ⟨e, he, heq, hseries⟩ := h.complete m' hm'
        exact ⟨e, (hcases e).2 (.inr ⟨he, by rw [heq]; exact hid⟩), heq, hseries⟩
      · rw [mem_singleton.1 hm'] at hid
        exact absurd rfl hid
  · rcases (hcases e).1 he with rfl | ⟨he, hne⟩
    · dsimp only
      rw [hcollection, hold, hname, htags, countsOf, countsOf, seriesOf_concat, if_pos ⟨rfl, rfl⟩,
        foldl_append]
      rfl
    · have hother : ¬(m.name = e.2.name ∧ m.tags = e.2.tags) := by
        rintro ⟨hn, ht⟩
        obtain ⟨m', -, hid, hname', htags'⟩ := h.series e he
        exact hne (hid.symm.trans (hashID_eq (hname'.trans hn.symm) (htags'.trans ht.symm)))
      rw [h.counts e he, countsOf, countsOf, seriesOf_concat, if_neg hother, append_nil]

end Holds

end Telegraf.Histogram
