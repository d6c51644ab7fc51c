import Telegraf.HistogramPush

/-!
# The counts in the reports of the histogram aggregator

Which counts `Push` puts into one metric, and what it then reports of them, for all orders of its
iterations. Only counts of one bucket are ever put together (`SameBucket.of_sameMetric`), and in one
series they have one key (`SameBucket.key_eq`). A count is reported under its own tags, with a
given number, in every order if and only if it is taken only for counts with its tags and every
count of the field that is taken for it is that number (`Inv.reported_iff`) : a series that comes
first takes over the count (`Inv.clear_of_reported`), and one that comes last overwrites it
(`Inv.exists_overwriting`).
-/

open List hiding get

namespace Telegraf.Histogram

open KeyedLists Tally FirstMatch

/-! ## Tags -/

/-- Two maps have the same tags. -/
def SameMap (tags tags' : TagMap) : Prop :=
  ∀ k, get tags k = get tags' k

/-- `isTagsIdentical` sees only the maps. -/
theorem isTagsIdentical_congr {tags tags' checked checked' : TagMap}
    (hperm : tags.Perm tags') (hperm' : checked.Perm checked') (hsame : SameMap checked checked') :
    isTagsIdentical tags checked = isTagsIdentical tags' checked' := by
  rw [isTagsIdentical, isTagsIdentical, hperm.length_eq, hperm'.length_eq, Bool.eq_iff_iff]
  simp only [Bool.and_eq_true, all_eq_true, hsame _, hperm.mem_iff]

variable {tags : TagMap}

theorem isTagsIdentical_self (h : (tags.map Prod.fst).Nodup) :
    isTagsIdentical tags tags = true := by
  rw [isTagsIdentical, beq_self_eq_true, Bool.true_and, all_eq_true]
  intro t ht
  rw [(get_eq_some_iff h).2 ht]
  exact beq_self_eq_true _

theorem value_of_isTagsIdentical {tags checked : TagMap} (h : isTagsIdentical tags checked = true)
    {k v w : GoString} (hv : get tags k = some v) (hw : get checked k = some w) : v = w := by
  rw [isTagsIdentical, Bool.and_eq_true, all_eq_true] at h
  have hvalue := h.2 (k, v) (mem_of_get hv)
  rw [hw] at hvalue
  exact eq_of_beq hvalue

theorem get_right_placeTags (fmt : FormatFloat) (cumulative : Bool) (lower upper : Option ℚ)
    (tags : TagMap) : get (placeTags fmt cumulative lower upper tags) bucketRightTag =
      some (upper.elim bucketPosInf fmt.format) := by
  rw [placeTags, get_upsert, if_pos rfl]

theorem get_left_placeTags (fmt : FormatFloat) (lower upper : Option ℚ) (tags : TagMap) :
    get (placeTags fmt false lower upper tags) bucketLeftTag =
      some (lower.elim bucketNegInf fmt.format) := by
  have hne : bucketLeftTag ≠ bucketRightTag := by decide
  rw [placeTags, get_upsert, if_neg hne, if_neg Bool.false_ne_true, get_upsert, if_pos rfl]

theorem elim_injective (fmt : FormatFloat) {text : GoString} (htext : ∀ b, fmt.format b ≠ text)
    {x y : Option ℚ} (h : x.elim text fmt.format = y.elim text fmt.format) : x = y := by
  cases x with
  | none =>
    cases y with
    | none => rfl
    | some b => exact absurd h.symm (htext b)
  | some a =>
    cases y with
    | none => exact absurd h (htext a)
    | some => exact congrArg some (fmt.injective h)

/-- Two counts are of one bucket, as far as `Push` tells. -/
def SameBucket (cumulative : Bool) (x y : Count) : Prop :=
  x.upper = y.upper ∧ (cumulative = false → x.lower = y.lower)

section Tags

variable {fmt : FormatFloat} {cumulative : Bool} {x y z : Count}

/-- Whatever the tags of two series, only counts of one bucket are put together. -/
theorem SameBucket.of_sameMetric
    (h : sameMetric (x.key fmt cumulative) (y.key fmt cumulative) = true) :
    SameBucket cumulative x y := by
  rw [sameMetric, Bool.and_eq_true] at h
  constructor
  · exact elim_injective fmt fmt.ne_posInf (value_of_isTagsIdentical h.2
      (get_right_placeTags fmt cumulative x.lower x.upper _)
      (get_right_placeTags fmt cumulative y.lower y.upper _))
  · rintro rfl
    exact elim_injective fmt fmt.ne_negInf (value_of_isTagsIdentical h.2
      (get_left_placeTags fmt x.lower x.upper _) (get_left_placeTags fmt y.lower y.upper _))

section

variable (h : SameBucket cumulative x y)

include h

theorem SameBucket.symm : SameBucket cumulative y x :=
  ⟨h.1.symm, fun hc => (h.2 hc).symm⟩

theorem SameBucket.trans (h' : SameBucket cumulative y z) : SameBucket cumulative x z :=
  ⟨h.1.trans h'.1, fun hc => (h.2 hc).trans (h'.2 hc)⟩

theorem SameBucket.key_eq (hseries : x.series = y.series) :
    x.key fmt cumulative = y.key fmt cumulative := by
  obtain ⟨hname, hown⟩ := Prod.ext_iff.1 hseries
  have htags : x.tags fmt cumulative = y.tags fmt cumulative := by
    rw [Count.tags, Count.tags, placeTags, placeTags, h.1, show x.own = y.own from hown]
    cases cumulative with
    | true => rfl
    | false => rw [h.2 rfl]
  rw [Count.key, Count.key, htags, show x.name = y.name from hname]

end

theorem numberIn_congr {lower lower' : Option ℚ} (h : cumulative = false → lower = lower')
    (upper : Option ℚ) (vs : List ℚ) :
    numberIn cumulative lower upper vs = numberIn cumulative lower' upper vs := by
  cases cumulative with
  | true => rfl
  | false => rw [h rfl]

variable {configs : List Config} {ms : List (Metric ℚ)}

/-- In one series and for one field the counts of a bucket are the same. -/
theorem SameBucket.count_eq (h : SameBucket cumulative x y) (hseries : x.series = y.series)
    (hfield : x.field = y.field) (hx : IsCount configs cumulative ms x)
    (hy : IsCount configs cumulative ms y) : x.count = y.count := by
  obtain ⟨-, b, -, i, -, -, -, hxcount⟩ := hx
  obtain ⟨-, _, -, _, -, -, -, hycount⟩ := hy
  obtain ⟨hname, hown⟩ := Prod.ext_iff.1 hseries
  rw [hxcount, hycount, h.1, hfield, show x.name = y.name from hname, show x.own = y.own from hown]
  exact numberIn_congr h.2 _ _

theorem nodup_placeTags (fmt : FormatFloat) (cumulative : Bool) (lower upper : Option ℚ)
    (h : (tags.map Prod.fst).Nodup) :
    ((placeTags fmt cumulative lower upper tags).map Prod.fst).Nodup := by
  rw [placeTags]
  refine nodup_upsert ?_
  split_ifs
  · exact h
  · exact nodup_upsert h

theorem IsCount.nodup_tags (hx : IsCount configs cumulative ms x) (fmt : FormatFloat) :
    ((x.tags fmt cumulative).map Prod.fst).Nodup := by
  obtain ⟨⟨m, -, -, hown, -⟩, -⟩ := hx
  refine nodup_placeTags fmt cumulative _ _ ?_
  rw [copyTags, map_map, ← hown]
  exact tags_nodup m

theorem IsCount.sameMetric_self (hx : IsCount configs cumulative ms x) (fmt : FormatFloat) :
    sameMetric (x.key fmt cumulative) (x.key fmt cumulative) = true := by
  rw [sameMetric, Bool.and_eq_true]
  exact ⟨decide_eq_true rfl, isTagsIdentical_self (hx.nodup_tags fmt)⟩

/-- Two counts have the same name and the same tags. -/
def SameKey (fmt : FormatFloat) (cumulative : Bool) (x y : Count) : Prop :=
  x.name = y.name ∧ SameMap (x.tags fmt cumulative) (y.tags fmt cumulative)

theorem sameMetric_congr {x' y' : Count} (hx : IsCount configs cumulative ms x)
    (hx' : IsCount configs cumulative ms x') (hy : IsCount configs cumulative ms y)
    (hy' : IsCount configs cumulative ms y') (h : SameKey fmt cumulative x x')
    (h' : SameKey fmt cumulative y y') :
    sameMetric (x.key fmt cumulative) (y.key fmt cumulative) =
      sameMetric (x'.key fmt cumulative) (y'.key fmt cumulative) := by
  have htags := isTagsIdentical_congr (perm_of_get_eq (hx.nodup_tags fmt) (hx'.nodup_tags fmt) h.2)
    (perm_of_get_eq (hy.nodup_tags fmt) (hy'.nodup_tags fmt) h'.2) h'.2
  rw [sameMetric, sameMetric, Count.key, Count.key, Count.key, Count.key, htags, h.1, h'.1]

theorem SameKey.refl (fmt : FormatFloat) (cumulative : Bool) (x : Count) :
    SameKey fmt cumulative x x :=
  ⟨rfl, fun _ => rfl⟩

theorem SameKey.symm (h : SameKey fmt cumulative x y) : SameKey fmt cumulative y x :=
  ⟨h.1.symm, fun k => (h.2 k).symm⟩

theorem SameKey.trans (h : SameKey fmt cumulative x y) (h' : SameKey fmt cumulative y z) :
    SameKey fmt cumulative x z :=
  ⟨h.1.trans h'.1, fun k => (h.2 k).trans (h'.2 k)⟩

theorem SameKey.of_eq (h : x.key fmt cumulative = y.key fmt cumulative) :
    SameKey fmt cumulative x y := by
  obtain ⟨hname, htags⟩ := Prod.ext_iff.1 h
  refine ⟨hname, fun k => ?_⟩
  rw [show x.tags fmt cumulative = y.tags fmt cumulative from htags]

theorem SameKey.sameMetric (h : SameKey fmt cumulative x y) (hx : IsCount configs cumulative ms x)
    (hy : IsCount configs cumulative ms y) :
    sameMetric (x.key fmt cumulative) (y.key fmt cumulative) = true := by
  rw [sameMetric_congr hx hy hy hy h (SameKey.refl fmt cumulative y)]
  exact hy.sameMetric_self fmt

end Tags

/-! ## Clusters -/

/-- The counts of an entry of the cache, without regard to the order. -/
def entryCounts (configs : List Config) (cumulative : Bool) (e : UInt64 × Collection) :
    List Count :=
  e.2.histogramCollection.flatMap fun field => fieldCounts configs cumulative (e.2, field)

/-- An order of the cache, and all other iterations as they come. -/
def Orders.ofCache (f : Cache → Cache) (hf : ∀ l, (f l).Perm l) : Orders :=
  ⟨id, id, f, fun _ => id, List.Perm.refl, List.Perm.refl, hf, fun _ => List.Perm.refl⟩

theorem series_bucketCounts (cumulative : Bool) (b : List ℚ) (name : GoString) (own : List Tag)
    (field : GoString) : ∀ (counts : List ℕ) (index sum : ℕ),
      ∀ x ∈ bucketCounts cumulative b name own field index sum counts, x.series = (name, own)
  | [], _, _, _, hx => absurd hx List.not_mem_nil
  | count :: counts, index, sum, x, hx => by
    rw [bucketCounts] at hx
    rcases mem_cons.1 hx with rfl | hx
    · rfl
    · exact series_bucketCounts cumulative b name own field counts _ _ x hx

variable {x : Count} {cumulative : Bool} {configs : List Config}

theorem series_entryCounts {e : UInt64 × Collection} (hx : x ∈ entryCounts configs cumulative e) :
    x.series = (e.2.name, e.2.tags) := by
  obtain ⟨_, -, hx⟩ := mem_flatMap.1 hx
  exact series_bucketCounts _ _ _ _ _ _ _ _ x hx

/-- There is an order with the counts of one series first and those of another last. -/
theorem exists_order (configs : List Config) (cumulative : Bool) (cache : Cache)
    (s t : GoString × List Tag) :
    ∃ (o : Orders) (xs ys zs : List Count),
      allCounts configs cumulative o cache = xs ++ (ys ++ zs) ∧
      (∀ x ∈ xs, x.series = s ∧ x.series ≠ t) ∧ (∀ x ∈ ys, x.series ≠ s ∧ x.series ≠ t) ∧
      ∀ x ∈ zs, x.series = t := by
  let first : UInt64 × Collection → Bool := fun e =>
    decide ((e.2.name, e.2.tags) = s ∧ (e.2.name, e.2.tags) ≠ t)
  let last : UInt64 × Collection → Bool := fun e => decide ((e.2.name, e.2.tags) = t)
  let rest : Cache → Cache := fun l => l.filter fun e => !first e
  have hperm : ∀ l : Cache, (l.filter first ++
      ((rest l).filter (fun e => !last e) ++ (rest l).filter last)).Perm l := fun l =>
    (((perm_append_comm.trans (filter_append_perm last (rest l))).append_left _).trans
      (filter_append_perm first l))
  refine ⟨Orders.ofCache _ hperm, (cache.filter first).flatMap (entryCounts configs cumulative),
    ((rest cache).filter fun e => !last e).flatMap (entryCounts configs cumulative),
    ((rest cache).filter last).flatMap (entryCounts configs cumulative), ?_, ?_, ?_, ?_⟩
  · rw [← flatMap_append, ← flatMap_append]
    rfl
  · intro x hx
    obtain ⟨e, he, hx⟩ := mem_flatMap.1 hx
    rw [series_entryCounts hx]
    exact of_decide_eq_true (mem_filter.1 he).2
  · intro x hx
    obtain ⟨e, he, hx⟩ := mem_flatMap.1 hx
    obtain ⟨he, hlast⟩ := mem_filter.1 he
    have hfirst := (mem_filter.1 he).2
    rw [series_entryCounts hx]
    simp only [first, last, Bool.not_eq_true', decide_eq_false_iff_not] at hfirst hlast
    exact ⟨fun hs => hfirst ⟨hs, hlast⟩, hlast⟩
  · intro x hx
    obtain ⟨e, he, hx⟩ := mem_flatMap.1 hx
    rw [series_entryCounts hx]
    exact of_decide_eq_true (mem_filter.1 he).2

variable {fmt : FormatFloat}

/-- Where all counts are of one series, those of a cluster have its key. -/
theorem key_eq_of_series {ms : List (Metric ℚ)} {s : GoString × List Tag} {xs : List Count}
    {c : Cluster} (hxs : ∀ x ∈ xs, IsCount configs cumulative ms x ∧ x.series = s)
    (hc : c ∈ clusters (Count.key fmt cumulative) sameMetric xs) (hx : x ∈ c.items) :
    c.key = x.key fmt cumulative := by
  obtain ⟨w, hw, hkey⟩ := exists_key_eq hc
  have hmatch := matches_of_mem (fun y hy => (hxs y hy).1.sameMetric_self fmt) hc x hx
  rw [← hkey] at hmatch ⊢
  have hseries : x.series = w.series :=
    (hxs x (mem_of_mem_items hc hx)).2.trans (hxs w (mem_of_mem_items hc hw)).2.symm
  exact ((SameBucket.of_sameMetric hmatch).key_eq hseries).symm

variable {resetBuckets : Bool} {ms : List (Metric ℚ)} {h : HistogramAggregator} {o : Orders}
  {c : Cluster}

section Clusters

variable (hinv : Inv configs resetBuckets cumulative ms h) (fmt)
include hinv

section

variable (hc : c ∈ clustersOf fmt configs cumulative o h.cache)

include hc

theorem Inv.mem_items (hx : x ∈ c.items) :
    IsCount configs cumulative ms x ∧ sameMetric (x.key fmt cumulative) c.key = true := by
  refine ⟨(hinv.mem_allCounts o x).1 (mem_of_mem_items hc hx), ?_⟩
  refine matches_of_mem (fun y hy => ?_) hc x hx
  exact ((hinv.mem_allCounts o y).1 hy).sameMetric_self fmt

theorem Inv.exists_key :
    ∃ w ∈ c.items, IsCount configs cumulative ms w ∧ w.key fmt cumulative = c.key := by
  obtain ⟨w, hw, hkey⟩ := exists_key_eq hc
  exact ⟨w, hw, (hinv.mem_items fmt hc hw).1, hkey⟩

end

/-- There is an order with the counts of one series before, and those of another after, all
others. -/
theorem Inv.exists_order (s t : GoString × List Tag) :
    ∃ (o : Orders) (xs ys zs : List Count),
      allCounts configs cumulative o h.cache = xs ++ (ys ++ zs) ∧
      (∀ x, x ∈ xs ↔ (IsCount configs cumulative ms x ∧ x.series = s) ∧ x.series ≠ t) ∧
      (∀ x ∈ ys, x.series ≠ t) ∧ ∀ x ∈ zs, x.series = t := by
  obtain ⟨o, xs, ys, zs, heq, hxs, hys, hzs⟩ :=
    Histogram.exists_order configs cumulative h.cache s t
  refine ⟨o, xs, ys, zs, heq, fun x => ⟨fun hx => ?_, ?_⟩, fun x hx => (hys x hx).2, hzs⟩
  · exact ⟨⟨(hinv.mem_allCounts o x).1 (heq ▸ mem_append_left _ hx), (hxs x hx).1⟩, (hxs x hx).2⟩
  · rintro ⟨⟨hx, hs⟩, ht⟩
    have hmem := (hinv.mem_allCounts o x).2 hx
    rw [heq, mem_append, mem_append] at hmem
    rcases hmem with hmem | hmem | hmem
    · exact hmem
    · exact absurd hs (hys x hmem).1
    · exact absurd (hzs x hmem) ht

theorem Inv.exists_mem (o : Orders) (hx : IsCount configs cumulative ms x) :
    ∃ c ∈ clustersOf fmt configs cumulative o h.cache, x ∈ c.items :=
  exists_cluster _ _ ((hinv.mem_allCounts o x).2 hx)

end Clusters

/-! ## Counts in reports -/

/-- The report has the name of the count and its tags. -/
def Carries (fmt : FormatFloat) (cumulative : Bool) (x : Count) (r : Report) : Prop :=
  r.name = x.name ∧ SameMap r.tags (x.tags fmt cumulative)

theorem carries_iff {x w : Count} {c : Cluster} (hkey : w.key fmt cumulative = c.key) :
    Carries fmt cumulative x (report c) ↔ SameKey fmt cumulative w x := by
  rw [Carries, report, ← hkey]
  rfl

theorem get_makeFieldsWithCount (k : GoString) : ∀ fields : List (GoString × ℕ),
    get (makeFieldsWithCount fields) (k ++ str "_bucket") = get fields k
  | [] => rfl
  | f :: fields => by
    rw [makeFieldsWithCount, map_cons, get_cons, get_cons, ← makeFieldsWithCount,
      get_makeFieldsWithCount k fields]
    simp only [append_left_inj]

theorem get_report (c : Cluster) (k : GoString) :
    get (report c).fields (k ++ str "_bucket") =
      get (writeAll (c.items.map fun x => (x.field, x.count))) k :=
  get_makeFieldsWithCount k _

/-- The last count of a field is the one that is reported. -/
theorem get_writeAll_counts (front : List Count) {back : List Count} (hx : x ∈ back)
    (hcount : ∀ y ∈ back, y.field = x.field → y.count = x.count) :
    get (writeAll ((front ++ back).map fun x => (x.field, x.count))) x.field = some x.count := by
  obtain ⟨n, hn⟩ := isSome_get_writeAll
    (mem_map_of_mem (f := fun x : Count => (x.field, x.count)) hx)
  obtain ⟨y, hy, heq⟩ := mem_map.1 (mem_of_get_writeAll hn)
  obtain ⟨hfield, rfl⟩ := Prod.ext_iff.1 heq
  rw [map_append, get_writeAll_append, hn, Option.some_or]
  exact congrArg some (hcount y hy hfield)

section Reports

variable (hinv : Inv configs resetBuckets cumulative ms h)
  (hclear : ∀ y, IsCount configs cumulative ms y →
    sameMetric (x.key fmt cumulative) (y.key fmt cumulative) = true → SameKey fmt cumulative x y)
include hinv

include hclear in
/-- A count that is taken only for counts with its tags is reported with them. -/
theorem Inv.carries (hc : c ∈ clustersOf fmt configs cumulative o h.cache) (hx : x ∈ c.items) :
    Carries fmt cumulative x (report c) := by
  obtain ⟨w, -, hw, hkey⟩ := hinv.exists_key fmt hc
  have hmatch := (hinv.mem_items fmt hc hx).2
  rw [← hkey] at hmatch
  exact (carries_iff hkey).2 (hclear w hw hmatch).symm

/-- At most one metric is reported with the name and the tags of a count. -/
theorem Inv.eq_of_carries {c' : Cluster} (hc : c ∈ clustersOf fmt configs cumulative o h.cache)
    (hc' : c' ∈ clustersOf fmt configs cumulative o h.cache)
    (hx : Carries fmt cumulative x (report c)) (hx' : Carries fmt cumulative x (report c')) :
    c = c' := by
  by_contra hne
  have hpairwise : (clustersOf fmt configs cumulative o h.cache).Pairwise
      fun c c' => sameMetric c'.key c.key = false ∨ sameMetric c.key c'.key = false :=
    (pairwise_clusters _ _ _).imp .inl
  have : Std.Symm fun c c' : Cluster =>
      sameMetric c'.key c.key = false ∨ sameMetric c.key c'.key = false := ⟨fun _ _ => Or.symm⟩
  obtain ⟨w, -, hw, hkey⟩ := hinv.exists_key fmt hc
  obtain ⟨w', -, hw', hkey'⟩ := hinv.exists_key fmt hc'
  have hsame : SameKey fmt cumulative w w' :=
    ((carries_iff hkey).1 hx).trans ((carries_iff hkey').1 hx').symm
  rcases hpairwise.forall hc hc' hne with hmatch | hmatch
  · rw [← hkey, ← hkey', hsame.symm.sameMetric hw' hw] at hmatch
    cases hmatch
  · rw [← hkey, ← hkey', hsame.sameMetric hw hw'] at hmatch
    cases hmatch

section

variable (hx : IsCount configs cumulative ms x)

include hx

/-- If every `Push` reports a metric with the name and tags of a count, then the count is taken only
for counts with its tags. -/
theorem Inv.clear_of_reported (hreport : ∀ o, ∃ c ∈ clustersOf fmt configs cumulative o h.cache,
      Carries fmt cumulative x (report c))
    (y : Count) (hy : IsCount configs cumulative ms y)
    (hmatch : sameMetric (x.key fmt cumulative) (y.key fmt cumulative) = true) :
    SameKey fmt cumulative x y := by
  have hbucket := SameBucket.of_sameMetric hmatch
  by_cases hseries : x.series = y.series
  · exact SameKey.of_eq (hbucket.key_eq hseries)
  -- the series of `y` comes first, so `x` does not get a metric of its own
  obtain ⟨o, xs, _, _, heq, hxs, -, -⟩ := hinv.exists_order y.series x.series
  have hall : ∀ z ∈ xs, IsCount configs cumulative ms z ∧ z.series = y.series := fun z hz =>
    ((hxs z).1 hz).1
  have hyxs : y ∈ xs := (hxs y).2 ⟨⟨hy, rfl⟩, Ne.symm hseries⟩
  obtain ⟨c₀, hc₀, hyc₀⟩ := exists_cluster (Count.key fmt cumulative) sameMetric hyxs
  obtain ⟨c, hc, hcarries⟩ := hreport o
  obtain ⟨w, -, hw, hkey⟩ := hinv.exists_key fmt hc
  have hwx := (carries_iff hkey).1 hcarries
  rw [clustersOf, heq] at hc
  rcases key_cases hc with ⟨z, hz, hzkey⟩ | hnone
  · obtain ⟨hzcount, hzseries⟩ := hall z hz
    have hxz : SameKey fmt cumulative x z := hwx.symm.trans (SameKey.of_eq (hkey.trans hzkey.symm))
    have hzx := SameBucket.of_sameMetric (hxz.symm.sameMetric hzcount hx)
    exact hxz.trans (SameKey.of_eq ((hzx.trans hbucket).key_eq hzseries))
  · have hfalse := hnone c₀ hc₀
    rw [key_eq_of_series hall hc₀ hyc₀, ← hkey,
      sameMetric_congr hw hx hy hy hwx (SameKey.refl fmt cumulative y), hmatch] at hfalse
    cases hfalse

include hclear in
/-- A count that is taken for another one can be the one that is reported. -/
theorem Inv.exists_overwriting {y : Count} (hy : IsCount configs cumulative ms y)
    (hmatch : sameMetric (y.key fmt cumulative) (x.key fmt cumulative) = true) :
    ∃ o, ∃ c ∈ clustersOf fmt configs cumulative o h.cache, Carries fmt cumulative x (report c) ∧
      get (report c).fields (y.field ++ str "_bucket") = some y.count := by
  have hbucket := SameBucket.of_sameMetric hmatch
  -- the series of `x` comes first, so `y` joins its metric, and that of `y` last
  obtain ⟨o, xs, ys, zs, heq, hxs, hys, hzs⟩ := hinv.exists_order x.series y.series
  have hnot : y ∉ xs ++ ys := by
    intro hmem
    rcases mem_append.1 hmem with hmem | hmem
    · exact ((hxs y).1 hmem).2 rfl
    · exact hys y hmem rfl
  have hjoined : ∃ c ∈ clustersOf fmt configs cumulative o h.cache, y ∈ c.items ∧
      Carries fmt cumulative x (report c) := by
    by_cases hseries : x.series = y.series
    · obtain ⟨c, hc, hyc⟩ := hinv.exists_mem fmt o hy
      obtain ⟨w, -, hw, hkey⟩ := hinv.exists_key fmt hc
      have hyw := (hinv.mem_items fmt hc hyc).2
      rw [← hkey, hbucket.key_eq hseries.symm] at hyw
      exact ⟨c, hc, hyc, (carries_iff hkey).2 (hclear w hw hyw).symm⟩
    · have hall : ∀ z ∈ xs, IsCount configs cumulative ms z ∧ z.series = x.series := fun z hz =>
        ((hxs z).1 hz).1
      obtain ⟨c₀, hc₀, hxc₀⟩ := exists_cluster (Count.key fmt cumulative) sameMetric
        ((hxs x).2 ⟨⟨hx, rfl⟩, hseries⟩)
      have hymem := (hinv.mem_allCounts o y).2 hy
      rw [heq] at hymem
      have hylater : y ∈ ys ++ zs :=
        (mem_append.1 hymem).resolve_left fun hmem => hnot (mem_append_left _ hmem)
      obtain ⟨c, hc, hyc, z, hz, -, hzkey⟩ := exists_shared hylater
        ⟨c₀, hc₀, by rw [key_eq_of_series hall hc₀ hxc₀]; exact hmatch⟩
      rw [← heq] at hc
      obtain ⟨hzcount, hzseries⟩ := hall z hz
      have hyz := (hinv.mem_items fmt hc hyc).2
      rw [← hzkey] at hyz
      have hzx := (SameBucket.of_sameMetric hyz).symm.trans hbucket
      exact ⟨c, hc, hyc, (carries_iff hzkey).2 (SameKey.of_eq (hzx.key_eq hzseries))⟩
  obtain ⟨c, hc, hyc, hcarries⟩ := hjoined
  refine ⟨o, c, hc, hcarries, ?_⟩
  have hsub : c.items.Sublist ((xs ++ ys) ++ zs) := by
    rw [append_assoc, ← heq]
    exact items_sublist hc
  obtain ⟨front, _, hitems, hfront, hback⟩ := sublist_append_iff.1 hsub
  rw [get_report, hitems]
  rw [hitems] at hyc
  refine get_writeAll_counts front
    ((mem_append.1 hyc).resolve_left fun hmem => hnot (hfront.subset hmem))
    fun z hz hfield => ?_
  obtain ⟨w, -, hw, hkey⟩ := hinv.exists_key fmt hc
  obtain ⟨hzcount, hzw⟩ := hinv.mem_items fmt hc (hitems ▸ mem_append_right front hz)
  have hyw := (hinv.mem_items fmt hc (hitems ▸ hyc)).2
  rw [← hkey] at hzw hyw
  exact ((SameBucket.of_sameMetric hzw).trans (SameBucket.of_sameMetric hyw).symm).count_eq
    (hzs z (hback.subset hz)) hfield hzcount hy

/-- Every `Push` reports `n` for a count, under its name and tags and only so, if and only if the
count is taken only for counts with its tags, and what is taken for it is `n`. -/
theorem Inv.reported_iff (n : ℕ) :
    (∀ o, (∃ c ∈ clustersOf fmt configs cumulative o h.cache,
        Carries fmt cumulative x (report c)) ∧
      ∀ c ∈ clustersOf fmt configs cumulative o h.cache, Carries fmt cumulative x (report c) →
        get (report c).fields (x.field ++ str "_bucket") = some n) ↔
    ∀ y, IsCount configs cumulative ms y →
      (sameMetric (x.key fmt cumulative) (y.key fmt cumulative) = true →
        SameKey fmt cumulative x y) ∧
      (sameMetric (y.key fmt cumulative) (x.key fmt cumulative) = true → y.field = x.field →
        y.count = n) := by
  constructor
  · intro hreport
    have hclear := hinv.clear_of_reported hx fun o => (hreport o).1
    refine fun y hy => ⟨hclear y hy, fun hmatch hfield => ?_⟩
    obtain ⟨o, c, hc, hcarries, hcount⟩ := hinv.exists_overwriting hclear hx hy hmatch
    have hn := (hreport o).2 c hc hcarries
    rw [← hfield, hcount] at hn
    exact Option.some.inj hn
  · intro hall o
    have hclear := fun y hy => (hall y hy).1
    obtain ⟨c, hc, hxc⟩ := hinv.exists_mem fmt o hx
    have hcarries := hinv.carries hclear hc hxc
    refine ⟨⟨c, hc, hcarries⟩, fun c' hc' hcarries' => ?_⟩
    obtain rfl := hinv.eq_of_carries hc hc' hcarries hcarries'
    have hxn : x.count = n := (hall x hx).2 (hx.sameMetric_self fmt) rfl
    rw [get_report, ← hxn]
    refine get_writeAll_counts [] hxc fun y hyc hfield => ?_
    obtain ⟨hy, hmatch⟩ := hinv.mem_items fmt hc hyc
    obtain ⟨w, -, hw, hkey⟩ := hinv.exists_key fmt hc
    rw [← hkey, sameMetric_congr hy hy hw hx (SameKey.refl fmt cumulative y)
      ((carries_iff hkey).1 hcarries)] at hmatch
    rw [hxn]
    exact (hall y hy).2 hmatch hfield

end

end Reports

end Telegraf.Histogram
