import Telegraf.Metric

/-!
# The tag limit

The processor of `plugins/processors/tag_limit`. `Apply` scans the tags of a metric for keys that
are not in `keep` and writes them to a list, which it has made as long as the number of tags over
the limit, and then removes them. The list is filled because `initOnce` has checked that there are
not more keys to keep than the limit allows (`surplus_length`), so what is removed are the first
surplus tags (`tagsToRemove_eq`), for every sequence of calls (`limited_apply`).
-/

open List

namespace Telegraf

variable {𝔽 : Type}

/-- The processor `tag_limit`. -/
structure TagLimit where
  limit : ℤ
  keep : List GoString
  init : Bool
  /-- The keys of the map. -/
  keepTags : List GoString

namespace TagLimit

/-- The processor with its configuration. -/
def new (limit : ℤ) (keep : List GoString) : TagLimit :=
  ⟨limit, keep, false, []⟩

variable (d : TagLimit)

def initOnce : Except String TagLimit :=
  if d.init then .ok d
  else if d.keep.length > d.limit then
    .error (toString d.keep.length ++ " keep tags is greater than " ++ toString d.limit ++
      " total tag limit")
  else .ok { d with init := true, keepTags := d.keep }

/-- The loop over the tags. `none` is an index that is out of range. -/
def tagsToRemove : List Tag → (toRemove : List GoString) → (removeIdx : ℕ) → (lenPointTags : ℤ) →
    Option (List GoString)
  | [], toRemove, _, _ => some toRemove
  | t :: tags, toRemove, removeIdx, lenPointTags => do
    let (toRemove, removeIdx, lenPointTags) ←
      if t.key ∈ d.keepTags then some (toRemove, removeIdx, lenPointTags)
      else if removeIdx < toRemove.length then
        some (toRemove.set removeIdx t.key, removeIdx + 1, lenPointTags - 1)
      else none
    if lenPointTags ≤ d.limit then some toRemove
    else tagsToRemove tags toRemove removeIdx lenPointTags

/-- The body of the loop of `Apply`. -/
def applyMetric (m : Metric 𝔽) : Option (Metric 𝔽) :=
  if m.tags.length ≤ d.limit then some m
  else do
    let toRemove ← d.tagsToRemove m.tags
      (List.replicate (m.tags.length - d.limit).toNat []) 0 m.tags.length
    pure (toRemove.foldl Metric.removeTag m)

/-- `TagLimit.Apply`. -/
def apply (metrics : List (Metric 𝔽)) : Option (TagLimit × List (Metric 𝔽)) :=
  match d.initOnce with
  | .error _ => some (d, metrics)
  | .ok d => (metrics.mapM d.applyMetric).map fun out => (d, out)

/-- What the calls of `Apply` return, one after the other. -/
def applyAll : TagLimit → List (List (Metric 𝔽)) → Option (List (List (Metric 𝔽)))
  | _, [] => some []
  | d, metrics :: rest => do
    let (d, out) ← d.apply metrics
    let outs ← applyAll d rest
    pure (out :: outs)

/-! ## What should be removed -/

/-- The first tags in order of the keys that are not to be kept, as many as are over the limit. -/
def surplus (limit : ℤ) (keep : List GoString) (tags : List Tag) : List Tag :=
  (tags.filter fun t => t.key ∉ keep).take (tags.length - limit).toNat

/-- Exactly the surplus is removed. -/
structure Limited (limit : ℤ) (keep : List GoString) (m m' : Metric 𝔽) : Prop where
  length : m'.tags.length = min (m.tags.length : ℤ) limit
  kept : ∀ t ∈ m.tags, t.key ∈ keep → t ∈ m'.tags
  tags : m'.tags = m.tags.filter fun t => t ∉ surplus limit keep m.tags
  name : m'.name = m.name
  fields : m'.fields = m.fields
  tm : m'.tm = m.tm
  tp : m'.tp = m.tp
  aggregate : m'.aggregate = m.aggregate

variable {keep : List GoString} {limit : ℤ}

/-- There are enough tags that are not to be kept. -/
theorem surplus_length (h : keep.length ≤ limit) (m : Metric 𝔽) :
    (surplus limit keep m.tags).length = (m.tags.length - limit).toNat := by
  have hkept : ((m.tags.filter fun t => t.key ∈ keep).map Tag.key).length ≤ keep.length := by
    refine (subperm_of_subset ?_ fun key hkey => ?_).length_le
    · exact (tags_nodup m).sublist (filter_sublist.map _)
    · obtain ⟨t, ht, rfl⟩ := mem_map.1 hkey
      simpa using (mem_filter.1 ht).2
  have hsplit := m.tags.length_eq_length_filter_add fun t => t.key ∈ keep
  have hnot : (m.tags.filter fun t => !decide (t.key ∈ keep)) =
      m.tags.filter fun t => t.key ∉ keep := by
    simp only [decide_not]
  rw [hnot] at hsplit
  rw [length_map] at hkept
  rw [surplus, length_take]
  omega

/-! ## What is removed -/

variable {d}

/-- After the keys `done`, with `j` places left : the loop fills them with the next keys that are
not to be kept, and stops. -/
theorem tagsToRemove_eq : ∀ (tags : List Tag) {j : ℕ} (done : List GoString), 0 < j →
    j ≤ (tags.filter fun t => t.key ∉ d.keepTags).length →
      d.tagsToRemove tags (done ++ List.replicate j []) done.length (d.limit + j) =
        some (done ++ ((tags.filter fun t => t.key ∉ d.keepTags).take j).map Tag.key)
  | [], j, done, hj, hle => by
    rw [filter_nil, length_nil] at hle
    omega
  | t :: tags, j, done, hj, hle => by
    rw [tagsToRemove]
    by_cases hkeep : t.key ∈ d.keepTags
    · have hlimit : ¬d.limit + j ≤ d.limit := by omega
      rw [filter_cons_of_neg (by simpa using hkeep)] at hle ⊢
      simpa [hkeep, hlimit] using tagsToRemove_eq tags done hj hle
    · obtain ⟨j, rfl⟩ : ∃ i, j = i + 1 := ⟨j - 1, by omega⟩
      rw [filter_cons_of_pos (by simpa using hkeep), length_cons] at hle
      rw [filter_cons_of_pos (by simpa using hkeep), take_succ_cons, map_cons]
      have hset : (done ++ replicate (j + 1) []).set done.length t.key =
          (done ++ [t.key]) ++ replicate j [] := by
        rw [set_append_right _ _ (Nat.le_refl _), Nat.sub_self, replicate_succ,
          set_cons_zero, append_assoc, singleton_append]
      have hlen : d.limit + (j + 1 : ℕ) - 1 = d.limit + j := by omega
      have hidx : done.length < (done ++ replicate (j + 1) ([] : GoString)).length := by simp
      simp only [hkeep, hidx, hset, hlen, if_true, if_false, Option.bind_eq_bind, Option.bind_some]
      obtain rfl | hj' := Nat.eq_zero_or_pos j
      · simp
      · have hlimit : ¬d.limit + j ≤ d.limit := by omega
        have ih := tagsToRemove_eq tags (done ++ [t.key]) hj' (Nat.le_of_succ_le_succ hle)
        rw [length_append, length_singleton] at ih
        rw [if_neg hlimit, ih, append_assoc, singleton_append]

/-- Metrics with keys of the surplus removed. -/
theorem keepTags_surplus (limit : ℤ) (keep : List GoString) (m : Metric 𝔽) :
    ((surplus limit keep m.tags).map Tag.key).foldl Metric.removeTag m =
      m.keepTags fun t => t ∉ surplus limit keep m.tags := by
  rw [Metric.foldl_removeTag]
  refine Metric.keepTags_congr fun t ht => ?_
  have hiff : t.key ∈ (surplus limit keep m.tags).map Tag.key ↔ t ∈ surplus limit keep m.tags := by
    refine ⟨fun h => ?_, fun h => mem_map_of_mem h⟩
    obtain ⟨u, hu, hkey⟩ := mem_map.1 h
    have hmem : u ∈ m.tags := mem_of_mem_filter (mem_of_mem_take hu)
    rwa [← inj_on_of_nodup_map (tags_nodup m) hmem ht hkey]
  rw [Bool.eq_iff_iff]
  simpa using not_congr hiff

theorem limited_keepTags (h : keep.length ≤ limit)
    (m : Metric 𝔽) : Limited limit keep m (m.keepTags fun t => t ∉ surplus limit keep m.tags) where
  length := by
    have hnodup : m.tags.Nodup := (tags_nodup m).of_map
    have hsub : (surplus limit keep m.tags).Sublist m.tags :=
      (take_sublist _ _).trans filter_sublist
    have hperm : (surplus limit keep m.tags).Perm
        (m.tags.filter fun t => t ∈ surplus limit keep m.tags) := by
      rw [perm_ext_iff_of_nodup (hnodup.sublist hsub) (hnodup.filter _)]
      intro t
      simpa using fun ht => hsub.subset ht
    have hsplit := m.tags.length_eq_length_filter_add fun t => t ∈ surplus limit keep m.tags
    rw [← hperm.length_eq, surplus_length h] at hsplit
    have hnot : (m.tags.filter fun t => !decide (t ∈ surplus limit keep m.tags)) =
        (m.keepTags fun t => t ∉ surplus limit keep m.tags).tags := by
      simp [Metric.keepTags]
    rw [hnot] at hsplit
    omega
  kept t ht hkeep := by
    refine mem_filter.2 ⟨ht, decide_eq_true fun hmem => ?_⟩
    have hnot := (mem_filter.1 (mem_of_mem_take hmem)).2
    exact (of_decide_eq_true hnot) hkeep
  tags := rfl
  name := rfl
  fields := rfl
  tm := rfl
  tp := rfl
  aggregate := rfl

theorem limited_applyMetric (hkeep : d.keepTags = d.keep) (h : d.keep.length ≤ d.limit)
    (m : Metric 𝔽) : ∃ m', d.applyMetric m = some m' ∧ Limited d.limit d.keep m m' := by
  have hlimited := limited_keepTags h m
  rw [applyMetric]
  split_ifs with hle
  · refine ⟨m, rfl, ?_⟩
    have hsurplus : surplus d.limit d.keep m.tags = [] := by
      rw [surplus, Int.toNat_of_nonpos (by omega), take_zero]
    have heq : (m.keepTags fun t => t ∉ surplus d.limit d.keep m.tags) = m :=
      Metric.ext rfl (by simp [Metric.keepTags, hsurplus]) rfl rfl rfl rfl
    rwa [heq] at hlimited
  · have hlength := surplus_length h m
    rw [surplus, length_take] at hlength
    have hloop := tagsToRemove_eq (d := d) m.tags (j := (m.tags.length - d.limit).toNat) []
      (by omega) (by rw [hkeep]; omega)
    have hlen : d.limit + ((m.tags.length - d.limit).toNat : ℤ) = m.tags.length := by omega
    rw [hlen, hkeep] at hloop
    refine ⟨_, ?_, hlimited⟩
    rw [← keepTags_surplus]
    simp only [nil_append, length_nil] at hloop
    rw [hloop]
    rfl

theorem limited_mapM (hkeep : d.keepTags = d.keep) (h : d.keep.length ≤ d.limit) :
    ∀ metrics : List (Metric 𝔽), ∃ out, metrics.mapM d.applyMetric = some out ∧
      List.Forall₂ (Limited d.limit d.keep) metrics out
  | [] => ⟨[], rfl, List.Forall₂.nil⟩
  | m :: metrics => by
    obtain ⟨m', hm', hlimited⟩ := limited_applyMetric hkeep h m
    obtain ⟨out, hout, hall⟩ := limited_mapM hkeep h metrics
    exact ⟨m' :: out, by rw [mapM_cons, hm', hout]; rfl, List.Forall₂.cons hlimited hall⟩

/-- Once `initOnce` has accepted the configuration, it stays as it is. -/
theorem limited_applyAll {d' : TagLimit} (hinit : d'.initOnce = .ok d) (hd : d.initOnce = .ok d)
    (hkeep : d.keepTags = d.keep) (h : d.keep.length ≤ d.limit) :
    ∀ batches : List (List (Metric 𝔽)), ∃ outs, d'.applyAll batches = some outs ∧
      List.Forall₂ (List.Forall₂ (Limited d.limit d.keep)) batches outs
  | [] => ⟨[], rfl, List.Forall₂.nil⟩
  | metrics :: rest => by
    obtain ⟨out, hout, hlimited⟩ := limited_mapM hkeep h metrics
    obtain ⟨outs, houts, hall⟩ := limited_applyAll hd hd hkeep h rest
    have happly : d'.apply metrics = some (d, out) := by simp [apply, hinit, hout]
    exact ⟨out :: outs, by rw [applyAll, happly]; simp [houts], List.Forall₂.cons hlimited hall⟩

/-- For every limit and list of keys that `initOnce` accepts and every sequence of calls : `Apply`
removes exactly the surplus from each metric. -/
theorem limited_apply {limit : ℤ} {keep : List GoString}
    (haccepted : (new limit keep).initOnce = .ok d) (batches : List (List (Metric 𝔽))) :
    ∃ outs, (new limit keep).applyAll batches = some outs ∧
      List.Forall₂ (List.Forall₂ (Limited limit keep)) batches outs := by
  have hcases := haccepted
  rw [initOnce, if_neg (by simp [new])] at hcases
  split_ifs at hcases with hle
  obtain rfl := Except.ok.inj hcases
  exact limited_applyAll haccepted rfl rfl (Int.not_lt.1 hle) batches

/-- Four tags, of which `host` is to be kept. -/
def fourTags : Metric ℤ :=
  [str "app", str "host", str "path", str "zone"].foldl (fun m key => m.addTag key (str "x"))
    (Metric.empty (str "cpu") 0 .untyped)

theorem limited_apply_four_tags :
    (∃ d, (new 2 [str "host"]).initOnce = .ok d) ∧
      ∃ outs, (new 2 [str "host"]).applyAll [[fourTags]] = some outs ∧
        List.Forall₂ (List.Forall₂ (Limited 2 [str "host"])) [[fourTags]] outs :=
  ⟨⟨_, rfl⟩, limited_apply rfl _⟩

end TagLimit

end Telegraf
