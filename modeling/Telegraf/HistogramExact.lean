import Telegraf.HistogramReports

/-!
# Exact counts and separate series of the histogram aggregator

What `Push` reports after any calls of the aggregator. The counts of two series go into one metric
if and only if `isTagsIdentical` takes their tags, with those of the bucket, for each other : a tag
that is missing counts as empty there, and the tags of the bucket replace those of the series
(`push_separated_iff`). A series is counted exactly if and only if none of its values is a `uint64`,
which `convert` leaves out, and no other series gets in its way (`push_exact_iff`).
-/

open List

namespace Telegraf.Histogram

open KeyedLists Tally FirstMatch

/-! ## Separate series -/

/-- The metrics of a report keep the series apart : each has the counts of one series, under its
name, its own tags and those of the bucket, and each count is in one of them. -/
structure Separated (fmt : FormatFloat) (cumulative : Bool) (counts : Count → Prop)
    (cs : List Cluster) : Prop where
  series : ∀ c ∈ cs, ∀ x ∈ c.items, ∀ y ∈ c.items, x.series = y.series
  placed : ∀ x, counts x → ∃! c, c ∈ cs ∧ x ∈ c.items
  counted : ∀ c ∈ cs, ∀ x ∈ c.items,
    get (report c).fields (x.field ++ str "_bucket") = some x.count
  tagged : ∀ c ∈ cs, ∀ x ∈ c.items, Carries fmt cumulative x (report c)
  own : ∀ c ∈ cs, ∀ x ∈ c.items, ∀ t ∈ x.own, get (report c).tags t.key = some t.value

/-- The tags of the bucket replace none of the series' own by another value. -/
def Count.KeepsOwn (fmt : FormatFloat) (cumulative : Bool) (x : Count) : Prop :=
  ∀ t ∈ x.own, get (x.tags fmt cumulative) t.key = some t.value

section Separated

variable {configs : List Config} {resetBuckets cumulative : Bool} {ms : List (Metric ℚ)}
  {h : HistogramAggregator} (hinv : Inv configs resetBuckets cumulative ms h)
  {fmt : FormatFloat}
include hinv

/-- Where no two series are taken for each other, they are kept apart in every order. -/
theorem Inv.separated
    (hkeeps : ∀ x, IsCount configs cumulative ms x → x.KeepsOwn fmt cumulative)
    (hapart : ∀ x y, IsCount configs cumulative ms x → IsCount configs cumulative ms y →
      sameMetric (x.key fmt cumulative) (y.key fmt cumulative) = true → x.series = y.series)
    (o : Orders) :
    Separated fmt cumulative (IsCount configs cumulative ms)
      (clustersOf fmt configs cumulative o h.cache) := by
  have hclear : ∀ x, IsCount configs cumulative ms x → ∀ y, IsCount configs cumulative ms y →
      sameMetric (x.key fmt cumulative) (y.key fmt cumulative) = true →
        SameKey fmt cumulative x y := fun x hx y hy hmatch =>
    SameKey.of_eq ((SameBucket.of_sameMetric hmatch).key_eq (hapart x y hx hy hmatch))
  have hsame : ∀ c ∈ clustersOf fmt configs cumulative o h.cache, ∀ x ∈ c.items, ∀ y ∈ c.items,
      SameBucket cumulative x y ∧ x.series = y.series := by
    intro c hc x hxc y hyc
    obtain ⟨w, -, hw, hkey⟩ := hinv.exists_key fmt hc
    obtain ⟨hx, hxw⟩ := hinv.mem_items fmt hc hxc
    obtain ⟨hy, hyw⟩ := hinv.mem_items fmt hc hyc
    rw [← hkey] at hxw hyw
    exact ⟨(SameBucket.of_sameMetric hxw).trans (SameBucket.of_sameMetric hyw).symm,
      (hapart x w hx hw hxw).trans (hapart y w hy hw hyw).symm⟩
  have htagged : ∀ c ∈ clustersOf fmt configs cumulative o h.cache, ∀ x ∈ c.items,
      Carries fmt cumulative x (report c) := fun c hc x hxc =>
    hinv.carries (hclear x (hinv.mem_items fmt hc hxc).1) hc hxc
  refine ⟨fun c hc x hx y hy => (hsame c hc x hx y hy).2, fun x hx => ?_, fun c hc x hxc => ?_,
    htagged, fun c hc x hxc t ht => ?_⟩
  · obtain ⟨c, hc, hxc⟩ := hinv.exists_mem fmt o hx
    refine ⟨c, ⟨hc, hxc⟩, fun c' hc' => ?_⟩
    exact hinv.eq_of_carries hc'.1 hc (htagged c' hc'.1 x hc'.2) (htagged c hc x hxc)
  · rw [get_report]
    refine get_writeAll_counts [] hxc fun y hyc hfield => ?_
    obtain ⟨hbucket, hseries⟩ := hsame c hc y hyc x hxc
    exact hbucket.count_eq hseries hfield (hinv.mem_items fmt hc hyc).1
      (hinv.mem_items fmt hc hxc).1
  · rw [(htagged c hc x hxc).2]
    exact hkeeps x (hinv.mem_items fmt hc hxc).1 t ht

/-- A series that is taken for another one shares a metric with it, when the other comes first. -/
theorem Inv.exists_mixed {x y : Count} (hx : IsCount configs cumulative ms x)
    (hy : IsCount configs cumulative ms y) (hseries : x.series ≠ y.series)
    (hmatch : sameMetric (x.key fmt cumulative) (y.key fmt cumulative) = true) :
    ∃ o, ∃ c ∈ clustersOf fmt configs cumulative o h.cache, x ∈ c.items ∧
      ∃ z ∈ c.items, z.series = y.series := by
  obtain ⟨o, _, _, _, heq, hxs, -, -⟩ := hinv.exists_order y.series x.series
  obtain ⟨c₀, hc₀, hyc₀⟩ := exists_cluster (Count.key fmt cumulative) sameMetric
    ((hxs y).2 ⟨⟨hy, rfl⟩, Ne.symm hseries⟩)
  have hkey := key_eq_of_series (fun z hz => ((hxs z).1 hz).1) hc₀ hyc₀
  have hxmem := (hinv.mem_allCounts o x).2 hx
  rw [heq] at hxmem
  obtain ⟨c, hc, hxc, z, hz, hzc, -⟩ := exists_shared
    ((mem_append.1 hxmem).resolve_left fun hmem => ((hxs x).1 hmem).2 rfl)
    ⟨c₀, hc₀, by rw [hkey]; exact hmatch⟩
  refine ⟨o, c, ?_, hxc, z, hzc, ((hxs z).1 hz).1.2⟩
  rw [clustersOf, heq]
  exact hc

theorem Inv.separated_iff :
    (∀ o, Separated fmt cumulative (IsCount configs cumulative ms)
      (clustersOf fmt configs cumulative o h.cache)) ↔
    (∀ x, IsCount configs cumulative ms x → x.KeepsOwn fmt cumulative) ∧
      ∀ x y, IsCount configs cumulative ms x → IsCount configs cumulative ms y →
        sameMetric (x.key fmt cumulative) (y.key fmt cumulative) = true → x.series = y.series := by
  refine ⟨fun hsep => ⟨fun x hx t ht => ?_, fun x y hx hy hmatch => ?_⟩,
    fun hcond => hinv.separated hcond.1 hcond.2⟩
  · obtain ⟨o, -⟩ := hinv.exists_order x.series x.series
    obtain ⟨c, ⟨hc, hxc⟩, -⟩ := (hsep o).placed x hx
    rw [← ((hsep o).tagged c hc x hxc).2]
    exact (hsep o).own c hc x hxc t ht
  · by_contra hseries
    obtain ⟨o, c, hc, hxc, z, hzc, hz⟩ := hinv.exists_mixed hx hy hseries hmatch
    exact hseries (((hsep o).series c hc x hxc z hzc).trans hz)

end Separated

/-- After any calls in which no two series have one hash, the metrics of every `Push` keep the
series apart if and only if the tags of the buckets replace no tag of a series, and no two series
have tags that are taken for each other. -/
theorem push_separated_iff (fmt : FormatFloat) (configs : List Config)
    (resetBuckets cumulative : Bool) (calls : List Call)
    (hhash : NoCollision ((adds calls).filter (configured configs))) :
    ∃ h, run fmt (newHistogramAggregator configs resetBuckets cumulative) calls = some h ∧
      (∀ o, ∃ h', h.push fmt o =
        some (h', (clustersOf fmt configs cumulative o h.cache).map report)) ∧
      ((∀ o, Separated fmt cumulative
          (IsCount configs cumulative (addedSince resetBuckets calls))
          (clustersOf fmt configs cumulative o h.cache)) ↔
        (∀ x, IsCount configs cumulative (addedSince resetBuckets calls) x →
          x.KeepsOwn fmt cumulative) ∧
        ∀ x y, IsCount configs cumulative (addedSince resetBuckets calls) x →
          IsCount configs cumulative (addedSince resetBuckets calls) y →
          sameMetric (x.key fmt cumulative) (y.key fmt cumulative) = true →
            x.series = y.series) := by
  obtain ⟨h, hrun, hinv⟩ := run_inv fmt configs resetBuckets cumulative calls hhash
  refine ⟨h, hrun, fun o => ?_, hinv.separated_iff⟩
  obtain ⟨h', -, hpush⟩ := hinv.push fmt o
  exact ⟨h', hpush⟩

/-! ### Two series -/

/-- A number with its numerator in ones and its denominator in twos. -/
def unaryText (q : ℚ) : GoString :=
  (if q.num < 0 then str "-" else []) ++ List.replicate q.num.natAbs 49 ++ List.replicate q.den 50

theorem count_unaryText (c : UInt8) (q : ℚ) : List.count c (unaryText q) =
    (if q.num < 0 then List.count c (str "-") else 0) +
      (if c = 49 then q.num.natAbs else 0) + if c = 50 then q.den else 0 := by
  rw [unaryText, count_append, count_append, count_replicate, count_replicate, apply_ite (count c)]
  simp only [beq_iff_eq, @eq_comm UInt8 _ c, count_nil]

/-- A format that tells numbers apart. -/
def unary : FormatFloat where
  format := unaryText
  injective := by
    intro q r h
    have hsign := congrArg (List.count 45) h
    have hnum := congrArg (List.count 49) h
    have hden := congrArg (List.count 50) h
    rw [count_unaryText, count_unaryText] at hsign hnum hden
    have h45 : List.count 45 (str "-") = 1 := by decide
    have h49 : List.count 49 (str "-") = 0 := by decide
    have h50 : List.count 50 (str "-") = 0 := by decide
    have hne : (45 : UInt8) ≠ 49 ∧ (45 : UInt8) ≠ 50 ∧ (49 : UInt8) ≠ 50 := by decide
    simp only [h45, hne, if_false, Nat.add_zero] at hsign
    simp only [h49, hne, ite_self, if_true, if_false, Nat.zero_add, Nat.add_zero] at hnum
    simp only [h50, hne.2.2.symm, ite_self, if_true, if_false, Nat.zero_add] at hden
    refine Rat.ext ?_ hden
    split_ifs at hsign <;> omega
  ne_posInf := by
    intro q h
    have hplus := congrArg (List.count 43) h
    have h43 : List.count 43 (str "-") = 0 := by decide
    have hinf : List.count 43 (str "+Inf") = 1 := by decide
    rw [count_unaryText, h43, hinf] at hplus
    simp at hplus
  ne_negInf := by
    intro q h
    have hletter := congrArg (List.count 73) h
    have h73 : List.count 73 (str "-") = 0 := by decide
    have hinf : List.count 73 (str "-Inf") = 1 := by decide
    rw [count_unaryText, h73, hinf] at hletter
    simp at hletter

/-- All iterations as the lists have it. -/
def inOrder : Orders :=
  Orders.ofCache id List.Perm.refl

/-- A config for all fields of a metric, with one border. -/
def oneBorder : List Config := [⟨str "m", [], some [10]⟩]

/-- A metric with a field and tags. -/
def sample (tags : List (GoString × GoString)) (v : FieldValue ℚ) : Metric ℚ :=
  tags.foldl (fun m t => m.addTag t.1 t.2)
    ((Metric.empty (str "m") 0 .untyped).addField (str "x") v)

variable {x : Count}

/-- Tags with other names stay. -/
theorem get_tags_of_not_bucket (fmt : FormatFloat) (cumulative : Bool) {k : GoString}
    (hk : k ≠ bucketRightTag ∧ k ≠ bucketLeftTag) :
    get (x.tags fmt cumulative) k = get (copyTags x.own) k := by
  rw [Count.tags, placeTags, get_upsert, if_neg hk.1]
  cases cumulative with
  | true => rfl
  | false => rw [if_neg Bool.false_ne_true, get_upsert, if_neg hk.2]

/-- No tag of the series has the name of a tag of the buckets. -/
def Count.NoBucketTags (x : Count) : Prop :=
  ∀ t ∈ x.own, t.key ≠ bucketRightTag ∧ t.key ≠ bucketLeftTag

section NoBucketTags

variable (fmt : FormatFloat) (cumulative : Bool)

theorem Count.NoBucketTags.keepsOwn (h : x.NoBucketTags) (hnodup : (x.own.map Tag.key).Nodup) :
    x.KeepsOwn fmt cumulative := by
  intro t ht
  rw [get_tags_of_not_bucket fmt cumulative (h t ht),
    get_eq_some_iff (by rw [copyTags, map_map]; exact hnodup)]
  exact mem_map_of_mem ht

/-- The tags of the bucket. -/
def Count.bucketTags (x : Count) : TagMap :=
  (if cumulative then [] else [(bucketLeftTag, x.lower.elim bucketNegInf fmt.format)]) ++
    [(bucketRightTag, x.upper.elim bucketPosInf fmt.format)]

theorem Count.NoBucketTags.tags_eq (h : x.NoBucketTags) :
    x.tags fmt cumulative = copyTags x.own ++ x.bucketTags fmt cumulative := by
  have hnone : ∀ key, (∀ t ∈ x.own, t.key ≠ key) → get (copyTags x.own) key = none := by
    intro key hne
    refine lookup_eq_none_iff.2 fun hmem => ?_
    rw [copyTags, map_map] at hmem
    obtain ⟨t, ht, hkey⟩ := mem_map.1 hmem
    exact hne t ht hkey
  have hright := hnone bucketRightTag fun t ht => (h t ht).1
  have hleft := hnone bucketLeftTag fun t ht => (h t ht).2
  rw [Count.tags, placeTags, Count.bucketTags]
  cases cumulative with
  | true => exact upsert_of_get_none _ hright
  | false =>
    have hne : bucketRightTag ≠ bucketLeftTag := by decide
    rw [if_neg Bool.false_ne_true, if_neg Bool.false_ne_true, upsert_of_get_none _,
      upsert_of_get_none _ hleft, append_assoc]
    rw [get_upsert, if_neg hne, hright]

/-- Counts are taken for each other if and only if they are of one bucket and their series have the
same name, as many tags, and each tag of the first the same value in the second, where a missing tag
is read as empty. -/
theorem sameMetric_iff {y : Count} (hx : x.NoBucketTags) (hy : y.NoBucketTags) :
    sameMetric (x.key fmt cumulative) (y.key fmt cumulative) = true ↔
      SameBucket cumulative x y ∧ x.name = y.name ∧ x.own.length = y.own.length ∧
        ∀ t ∈ x.own, t.value = (get (copyTags y.own) t.key).getD [] := by
  have hlength : ∀ z : Count, (z.bucketTags fmt cumulative).length = if cumulative then 1 else 2 :=
    fun z => by cases cumulative <;> rfl
  have hown : (∀ t ∈ copyTags x.own, t.2 = (get (y.tags fmt cumulative) t.1).getD []) ↔
      ∀ t ∈ x.own, t.value = (get (copyTags y.own) t.key).getD [] := by
    rw [copyTags, forall_mem_map]
    exact forall₂_congr fun t ht => by rw [get_tags_of_not_bucket fmt cumulative (hx t ht)]
  have hiff : sameMetric (x.key fmt cumulative) (y.key fmt cumulative) = true ↔
      x.name = y.name ∧ x.own.length = y.own.length ∧
        (∀ t ∈ x.own, t.value = (get (copyTags y.own) t.key).getD []) ∧
        ∀ t ∈ x.bucketTags fmt cumulative, t.2 = (get (y.tags fmt cumulative) t.1).getD [] := by
    rw [sameMetric, Bool.and_eq_true, decide_eq_true_iff, isTagsIdentical, Bool.and_eq_true,
      beq_iff_eq, all_eq_true, ← hown, ← forall_mem_append]
    simp only [Count.key, hx.tags_eq, hy.tags_eq, length_append, hlength, Nat.add_right_cancel_iff,
      copyTags, length_map, beq_iff_eq]
  constructor
  · intro h
    obtain ⟨hname, hlen, hall, -⟩ := hiff.1 h
    exact ⟨SameBucket.of_sameMetric h, hname, hlen, hall⟩
  · rintro ⟨hbucket, hname, hlen, hall⟩
    refine hiff.2 ⟨hname, hlen, hall, fun t ht => ?_⟩
    have hright := get_right_placeTags fmt cumulative y.lower y.upper (copyTags y.own)
    rcases mem_append.1 ht with ht | ht
    · cases cumulative with
      | true => exact absurd ht not_mem_nil
      | false =>
        rw [mem_singleton.1 ht, Count.tags, get_left_placeTags, hbucket.2 rfl]
        rfl
    · rw [mem_singleton.1 ht, Count.tags, hright, hbucket.1]
      rfl

end NoBucketTags

/-- The metrics have the tag `host` and no others. -/
def OnlyHost (ms : List (Metric ℚ)) : Prop :=
  ∀ m ∈ ms, m.name = str "m" ∧ ∃ v, m.tags = [⟨str "host", v⟩]

namespace OnlyHost

variable {ms : List (Metric ℚ)} (h : OnlyHost ms) {configs : List Config} {cumulative : Bool}
  (hx : IsCount configs cumulative ms x)

include h hx

theorem of_isCount : x.name = str "m" ∧ ∃ v, x.own = [⟨str "host", v⟩] := by
  obtain ⟨⟨m, hm, hname, hown, -⟩, -⟩ := hx
  rw [← hname, ← hown]
  exact h m hm

theorem noBucketTags : x.NoBucketTags := by
  obtain ⟨-, v, hown⟩ := h.of_isCount hx
  intro t ht
  rw [hown] at ht
  rw [mem_singleton.1 ht]
  exact (by decide : str "host" ≠ bucketRightTag ∧ str "host" ≠ bucketLeftTag)

theorem keepsOwn (fmt : FormatFloat) : x.KeepsOwn fmt cumulative := by
  refine (h.noBucketTags hx).keepsOwn fmt cumulative ?_
  obtain ⟨-, v, hown⟩ := h.of_isCount hx
  rw [hown]
  exact nodup_singleton _

theorem series_eq {fmt : FormatFloat} {y : Count} (hy : IsCount configs cumulative ms y)
    (hmatch : sameMetric (x.key fmt cumulative) (y.key fmt cumulative) = true) :
    x.series = y.series := by
  obtain ⟨-, hname, -, hall⟩ :=
    (sameMetric_iff fmt cumulative (h.noBucketTags hx) (h.noBucketTags hy)).1 hmatch
  obtain ⟨-, v, hxown⟩ := h.of_isCount hx
  obtain ⟨-, w, hyown⟩ := h.of_isCount hy
  have hvalue : v = w := by
    rw [hxown, forall_mem_singleton, hyown, copyTags, map_singleton, get_cons, if_pos rfl] at hall
    exact hall
  rw [Count.series, Count.series, hname, hxown, hyown, hvalue]

end OnlyHost

/-- Two series that a tag tells apart. -/
def twoHosts : List Call :=
  [.add inOrder (sample [(str "host", str "a")] (.float 5)),
    .add inOrder (sample [(str "host", str "b")] (.float 20))]

theorem onlyHost_twoHosts : OnlyHost (addedSince false twoHosts) := by
  have hall : ∀ m ∈ addedSince false twoHosts, m.name = str "m" ∧
      (m.tags = [⟨str "host", str "a"⟩] ∨ m.tags = [⟨str "host", str "b"⟩]) := by
    decide +kernel
  exact fun m hm => ⟨(hall m hm).1, (hall m hm).2.elim (fun h => ⟨_, h⟩) fun h => ⟨_, h⟩⟩

theorem push_separated_two_hosts :
    NoCollision ((adds twoHosts).filter (configured oneBorder)) ∧
    ∃ h, run unary (newHistogramAggregator oneBorder false true) twoHosts = some h ∧
      ∀ o, Separated unary true (IsCount oneBorder true (addedSince false twoHosts))
        (clustersOf unary oneBorder true o h.cache) := by
  refine (and_iff_left_of_imp fun hhash => ?_).2 (by decide +kernel)
  obtain ⟨h, hrun, -, hiff⟩ := push_separated_iff unary oneBorder false true twoHosts hhash
  exact ⟨h, hrun, hiff.2 ⟨fun x hx => onlyHost_twoHosts.keepsOwn hx unary,
    fun x y hx hy => onlyHost_twoHosts.series_eq hx hy⟩⟩

/-- Two series with different tags, one of them empty. -/
def emptyTag : List Call :=
  [.add inOrder (sample [(str "y", str "2")] (.float 5)),
    .add inOrder (sample [(str "x", [])] (.float 20))]

theorem empty_tag_mixed :
    ∃ h, run unary (newHistogramAggregator oneBorder false true) emptyTag = some h ∧
      (∃ c ∈ clustersOf unary oneBorder true inOrder h.cache,
        ∃ x ∈ c.items, ∃ y ∈ c.items, x.series ≠ y.series) ∧
      ¬Separated unary true (IsCount oneBorder true (addedSince false emptyTag))
        (clustersOf unary oneBorder true inOrder h.cache) := by
  have hmixed : ((run unary (newHistogramAggregator oneBorder false true) emptyTag).any fun h =>
      (clustersOf unary oneBorder true inOrder h.cache).any fun c =>
        c.items.any fun x => c.items.any fun y => decide (x.series ≠ y.series)) = true := by
    decide +kernel
  obtain ⟨h, hrun, hmixed⟩ := (Option.any_eq_true _ _).1 hmixed
  simp only [any_eq_true, decide_eq_true_iff] at hmixed
  refine ⟨h, hrun, hmixed, fun hsep => ?_⟩
  obtain ⟨c, hc, x, hx, y, hy, hne⟩ := hmixed
  exact hne (hsep.series c hc x hx y hy)

/-! ## Exact counts -/

/-- The number in a field. -/
def numeric : FieldValue ℚ → Option ℚ
  | .float v => some v
  | .int v => some v.toInt
  | .uint v => some v.toNat
  | _ => none

/-- The numbers in a field of a series. -/
def addedValues (ms : List (Metric ℚ)) (name : GoString) (tags : List Tag) (k : GoString) :
    List ℚ :=
  (seriesOf ms name tags).filterMap fun m => (m.getField k).bind numeric

/-- A number that `convert` leaves out. -/
def unsigned : FieldValue ℚ → Option ℚ
  | .uint v => some v.toNat
  | _ => none

theorem countP_numeric (p : ℚ → Bool) (k : GoString) : ∀ ms : List (Metric ℚ),
    (ms.filterMap fun m => (m.getField k).bind numeric).countP p =
      (ms.filterMap fun m => (m.getField k).bind convert).countP p +
        (ms.filterMap fun m => (m.getField k).bind unsigned).countP p
  | [] => rfl
  | m :: ms => by
    have ih := countP_numeric p k ms
    cases hk : m.getField k with
    | none => simpa [hk] using ih
    | some v =>
      cases v <;>
        simp only [filterMap_cons, hk, Option.bind_some, numeric, convert, unsigned,
          countP_cons, ih] <;> omega

/-- No value of the field is left out. -/
def NoUnsigned (ms : List (Metric ℚ)) (name : GoString) (tags : List Tag) (k : GoString) : Prop :=
  ∀ m ∈ ms, m.name = name → m.tags = tags → ∀ v, m.getField k ≠ some (.uint v)

variable {b : List ℚ}

/-- The numbers of counted values are right in all buckets if and only if no value is left out. -/
theorem numberIn_countedValues_iff (cumulative : Bool) (hb : b.Pairwise (· ≤ ·))
    (ms : List (Metric ℚ)) (name : GoString) (tags : List Tag) (k : GoString) :
    (∀ i ≤ b.length,
      numberIn cumulative (lower b i) b[i]? (countedValues ms name tags k) =
        numberIn cumulative (lower b i) b[i]? (addedValues ms name tags k)) ↔
      NoUnsigned ms name tags k := by
  have hsplit : ∀ i, numberIn cumulative (lower b i) b[i]? (addedValues ms name tags k) =
      numberIn cumulative (lower b i) b[i]? (countedValues ms name tags k) +
        numberIn cumulative (lower b i) b[i]?
          ((seriesOf ms name tags).filterMap fun m => (m.getField k).bind unsigned) :=
    fun i => countP_numeric _ k _
  constructor
  · intro hnumber m hm hname htags v hv
    have hslot := slot_le_length hb (v.toNat : ℚ)
    have hzero := hsplit (slot b v.toNat)
    rw [hnumber _ hslot, left_eq_add, numberIn, countP_eq_zero] at hzero
    have hmem : (v.toNat : ℚ) ∈
        (seriesOf ms name tags).filterMap fun m => (m.getField k).bind unsigned :=
      mem_filterMap.2 ⟨m, mem_filter.2 ⟨hm, decide_eq_true ⟨hname, htags⟩⟩,
        by rw [hv]; rfl⟩
    obtain ⟨hlower, hupper⟩ := (slot_eq_iff hb hslot _).1 rfl
    refine hzero _ hmem ?_
    rw [decide_eq_true hlower, decide_eq_true hupper, Bool.or_true, Bool.and_self]
  · intro hnone i _
    have hnil : (seriesOf ms name tags).filterMap (fun m => (m.getField k).bind unsigned) = [] := by
      rw [filterMap_eq_nil_iff]
      intro m hm
      obtain ⟨hm, hseries⟩ := mem_filter.1 hm
      obtain ⟨hname, htags⟩ := of_decide_eq_true hseries
      have hv := hnone m hm hname htags
      cases hk : m.getField k with
      | none => rfl
      | some v =>
        rw [hk] at hv
        cases v with
        | uint v => exact absurd rfl (hv v)
        | float | int | string | bool | nil => rfl
    rw [hsplit, hnil]
    rfl

/-- The reports have the numbers of the values in all buckets of a field of a series : for each
bucket there is a metric with the tags, and such a metric has the number. -/
def Exact (fmt : FormatFloat) (cumulative : Bool) (b vs : List ℚ) (name : GoString)
    (own : List Tag) (k : GoString) (reports : List Report) : Prop :=
  ∀ i ≤ b.length,
    (∃ r ∈ reports, r.name = name ∧
      SameMap r.tags (placeTags fmt cumulative (lower b i) b[i]? (copyTags own))) ∧
    ∀ r ∈ reports, r.name = name →
      SameMap r.tags (placeTags fmt cumulative (lower b i) b[i]? (copyTags own)) →
      get r.fields (k ++ str "_bucket") = some (numberIn cumulative (lower b i) b[i]? vs)

/-- No other count gets in the way of a count : it is taken only for counts with its tags, and those
of the field that are taken for it are the same. -/
def Undisturbed (fmt : FormatFloat) (configs : List Config) (cumulative : Bool)
    (ms : List (Metric ℚ)) (x : Count) : Prop :=
  ∀ y, IsCount configs cumulative ms y →
    (sameMetric (x.key fmt cumulative) (y.key fmt cumulative) = true →
      SameKey fmt cumulative x y) ∧
    (sameMetric (y.key fmt cumulative) (x.key fmt cumulative) = true → y.field = x.field →
      y.count = x.count)

/-- The count of a bucket of a field of a series. -/
def countOf (cumulative : Bool) (b : List ℚ) (ms : List (Metric ℚ)) (name : GoString)
    (own : List Tag) (k : GoString) (i : ℕ) : Count :=
  ⟨name, own, k, lower b i, b[i]?,
    numberIn cumulative (lower b i) b[i]? (countedValues ms name own k)⟩

variable {ms : List (Metric ℚ)} {configs : List Config}

theorem Inv.exact_iff {resetBuckets cumulative : Bool} {h : HistogramAggregator}
    (hinv : Inv configs resetBuckets cumulative ms h) {fmt : FormatFloat} {name k : GoString}
    {own : List Tag} (hb : borders configs name k = some b)
    (hadded : ∃ m ∈ ms, m.name = name ∧ m.tags = own ∧ (m.getField k).isSome) :
    (∀ o, Exact fmt cumulative b (addedValues ms name own k) name own k
      ((clustersOf fmt configs cumulative o h.cache).map report)) ↔
    NoUnsigned ms name own k ∧
      ∀ i ≤ b.length, Undisturbed fmt configs cumulative ms
        (countOf cumulative b ms name own k i) := by
  have hcount : ∀ i ≤ b.length,
      IsCount configs cumulative ms (countOf cumulative b ms name own k i) := fun i hi =>
    ⟨hadded, b, hb, i, hi, rfl, rfl, rfl⟩
  have hreported : (∀ o, Exact fmt cumulative b (addedValues ms name own k) name own k
      ((clustersOf fmt configs cumulative o h.cache).map report)) ↔
      ∀ i ≤ b.length, ∀ y, IsCount configs cumulative ms y →
        (sameMetric ((countOf cumulative b ms name own k i).key fmt cumulative)
          (y.key fmt cumulative) = true →
            SameKey fmt cumulative (countOf cumulative b ms name own k i) y) ∧
        (sameMetric (y.key fmt cumulative)
          ((countOf cumulative b ms name own k i).key fmt cumulative) = true → y.field = k →
            y.count = numberIn cumulative (lower b i) b[i]? (addedValues ms name own k)) := by
    constructor
    · intro hexact i hi
      refine (hinv.reported_iff (hcount i hi) _).1 fun o => ?_
      obtain ⟨hexists, hvalue⟩ := hexact o i hi
      obtain ⟨r, hr, hcarries⟩ := hexists
      obtain ⟨c, hc, rfl⟩ := mem_map.1 hr
      exact ⟨⟨c, hc, hcarries⟩, fun c hc hcarries =>
        hvalue (report c) (mem_map_of_mem hc) hcarries.1 hcarries.2⟩
    · intro hall o i hi
      obtain ⟨⟨c, hc, hcarries⟩, hvalue⟩ := (hinv.reported_iff (hcount i hi) _).2 (hall i hi) o
      refine ⟨⟨report c, mem_map_of_mem hc, hcarries⟩, fun r hr hname htags => ?_⟩
      obtain ⟨c, hc, rfl⟩ := mem_map.1 hr
      exact hvalue c hc ⟨hname, htags⟩
  rw [hreported, ← numberIn_countedValues_iff cumulative (pairwise_borders hb)]
  constructor
  · intro hall
    have hnumber : ∀ i ≤ b.length,
        numberIn cumulative (lower b i) b[i]? (countedValues ms name own k) =
          numberIn cumulative (lower b i) b[i]? (addedValues ms name own k) := fun i hi =>
      (hall i hi _ (hcount i hi)).2 ((hcount i hi).sameMetric_self fmt) rfl
    refine ⟨hnumber, fun i hi y hy => ⟨(hall i hi y hy).1, fun hmatch hfield => ?_⟩⟩
    exact ((hall i hi y hy).2 hmatch hfield).trans (hnumber i hi).symm
  · rintro ⟨hnumber, hall⟩ i hi y hy
    refine ⟨(hall i hi y hy).1, fun hmatch hfield => ?_⟩
    exact ((hall i hi y hy).2 hmatch hfield).trans (hnumber i hi)

/-- After any calls in which no two series have one hash, every `Push` reports the exact numbers for
a field with borders that a series had, if and only if none of its values is a `uint64` and no
other count gets in the way. -/
theorem push_exact_iff (fmt : FormatFloat) (configs : List Config) (resetBuckets cumulative : Bool)
    (calls : List Call) (hhash : NoCollision ((adds calls).filter (configured configs))) :
    ∃ h, run fmt (newHistogramAggregator configs resetBuckets cumulative) calls = some h ∧
      ∃ reports : Orders → List Report,
        (∀ o, ∃ h', h.push fmt o = some (h', reports o)) ∧
        ∀ (name : GoString) (own : List Tag) (k : GoString) (b : List ℚ),
          borders configs name k = some b →
          (∃ m ∈ addedSince resetBuckets calls,
            m.name = name ∧ m.tags = own ∧ (m.getField k).isSome) →
          ((∀ o, Exact fmt cumulative b
              (addedValues (addedSince resetBuckets calls) name own k) name own k (reports o)) ↔
            NoUnsigned (addedSince resetBuckets calls) name own k ∧
            ∀ i ≤ b.length, Undisturbed fmt configs cumulative (addedSince resetBuckets calls)
              (countOf cumulative b (addedSince resetBuckets calls) name own k i)) := by
  obtain ⟨h, hrun, hinv⟩ := run_inv fmt configs resetBuckets cumulative calls hhash
  refine ⟨h, hrun, fun o => (clustersOf fmt configs cumulative o h.cache).map report,
    fun o => ?_, fun name own k b hb hadded => hinv.exact_iff hb hadded⟩
  obtain ⟨h', -, hpush⟩ := hinv.push fmt o
  exact ⟨h', hpush⟩

/-- Counts of one series do not get in each other's way. -/
theorem undisturbed_of_series {cumulative : Bool} {fmt : FormatFloat}
    (hx : IsCount configs cumulative ms x)
    (h : ∀ y, IsCount configs cumulative ms y →
      sameMetric (x.key fmt cumulative) (y.key fmt cumulative) = true ∨
        sameMetric (y.key fmt cumulative) (x.key fmt cumulative) = true → y.series = x.series) :
    Undisturbed fmt configs cumulative ms x := by
  refine fun y hy => ⟨fun hmatch => ?_, fun hmatch hfield => ?_⟩
  · have hseries := (h y hy (.inl hmatch)).symm
    exact SameKey.of_eq ((SameBucket.of_sameMetric hmatch).key_eq hseries)
  · exact (SameBucket.of_sameMetric hmatch).count_eq (h y hy (.inr hmatch)) hfield hy hx

/-- Another value of the first series. -/
def threeValues : List Call :=
  .add inOrder (sample [(str "host", str "a")] (.int 30)) :: twoHosts

theorem push_exact_two_hosts :
    NoCollision ((adds threeValues).filter (configured oneBorder)) ∧
    ∃ h, run unary (newHistogramAggregator oneBorder false true) threeValues = some h ∧
      ∃ reports : Orders → List Report, (∀ o, ∃ h', h.push unary o = some (h', reports o)) ∧
        ∀ o, Exact unary true [10] [30, 5] (str "m") [⟨str "host", str "a"⟩] (str "x")
          (reports o) := by
  refine (and_iff_left_of_imp fun hhash => ?_).2 (by decide +kernel)
  obtain ⟨h, hrun, reports, hpush, hexact⟩ := push_exact_iff unary oneBorder false true _ hhash
  refine ⟨h, hrun, reports, hpush, ?_⟩
  have hadded : ∃ m ∈ addedSince false threeValues,
      m.name = str "m" ∧ m.tags = [⟨str "host", str "a"⟩] ∧ (m.getField (str "x")).isSome := by
    decide +kernel
  have hborders : borders oneBorder (str "m") (str "x") = some [10] := by decide +kernel
  have hiff := hexact (str "m") [⟨str "host", str "a"⟩] (str "x") [10] hborders hadded
  have hvalues : addedValues (addedSince false threeValues)
      (str "m") [⟨str "host", str "a"⟩] (str "x") = [30, 5] := by decide +kernel
  have honly : OnlyHost (addedSince false threeValues) :=
    forall_mem_cons.2 ⟨⟨rfl, str "a", rfl⟩, onlyHost_twoHosts⟩
  have hsigned : ∀ m ∈ addedSince false threeValues,
      (m.getField (str "x")).bind unsigned = none := by
    decide +kernel
  rw [hvalues] at hiff
  refine hiff.2 ⟨fun m hm _ _ v hv => ?_, fun i hi => ?_⟩
  · have hnone := hsigned m hm
    rw [hv] at hnone
    cases hnone
  · have hx : IsCount oneBorder true (addedSince false threeValues)
        (countOf true [10] (addedSince false threeValues) (str "m") [⟨str "host", str "a"⟩]
          (str "x") i) := ⟨hadded, [10], hborders, i, hi, rfl, rfl, rfl⟩
    refine undisturbed_of_series hx fun y hy hmatch => ?_
    rcases hmatch with hmatch | hmatch
    · exact (honly.series_eq hx hy hmatch).symm
    · exact honly.series_eq hy hx hmatch

theorem uint_not_counted :
    ∃ h h' reports,
      run unary (newHistogramAggregator oneBorder false true)
        [.add inOrder (sample [] (.uint 5))] = some h ∧
      h.push unary inOrder = some (h', reports) ∧
      (∀ r ∈ reports, get r.fields (str "x_bucket") = some 0) ∧
      ¬Exact unary true [10]
        (addedValues (addedSince false [.add inOrder (sample [] (.uint 5))]) (str "m") [] (str "x"))
        (str "m") [] (str "x") reports := by
  have hpush : ((run unary (newHistogramAggregator oneBorder false true)
      [.add inOrder (sample [] (.uint 5))]).any fun h => (h.push unary inOrder).any fun p =>
        p.2.all fun r => decide (get r.fields (str "x_bucket") = some 0)) = true := by
    decide +kernel
  obtain ⟨h, hrun, hpush⟩ := (Option.any_eq_true _ _).1 hpush
  obtain ⟨⟨h', reports⟩, hpush, hzero⟩ := (Option.any_eq_true _ _).1 hpush
  simp only [all_eq_true, decide_eq_true_iff] at hzero
  refine ⟨h, h', reports, hrun, hpush, hzero, fun hexact => ?_⟩
  obtain ⟨⟨r, hr, hname, htags⟩, hvalue⟩ := hexact 0 (Nat.zero_le _)
  have hone := hvalue r hr hname htags
  rw [show str "x" ++ str "_bucket" = str "x_bucket" from by decide, hzero r hr] at hone
  revert hone
  decide +kernel

end Telegraf.Histogram
