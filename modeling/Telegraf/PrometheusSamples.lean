import Telegraf.Prometheus

/-!
# Samples of a Prometheus collection

A collection as a map from families and keys to samples (`Collection.find`), and what `Add` and
`Expire` do to this map. A metric gives parts to a sample, which come to it one after the other :
`find_add`, `foldl_addTo` and `find_expire` are all that is used of `Add` and `Expire` later.
-/

open List Option

namespace Telegraf.Prometheus

open KeyedLists

variable {𝔽 : Type}

/-! ## Samples by family and key -/

namespace Collection

variable {c : Collection 𝔽}

/-- The sample of a key. -/
def find (c : Collection 𝔽) (family : MetricFamily) (key : MetricKey) : Option (Sample 𝔽) :=
  (get c family).bind fun metrics => get metrics key

/-- Keys do not repeat. -/
structure WF (c : Collection 𝔽) : Prop where
  families : (c.map Prod.fst).Nodup
  metrics : ∀ e ∈ c, (e.2.map Prod.fst).Nodup

theorem WF.nil : WF ([] : Collection 𝔽) :=
  ⟨nodup_nil, by simp⟩

theorem WF.find_eq_some (hwf : WF c) {family : MetricFamily} {key : MetricKey} {s : Sample 𝔽} :
    c.find family key = some s ↔ ∃ metrics, (family, metrics) ∈ c ∧ (key, s) ∈ metrics := by
  rw [find, bind_eq_some_iff]
  refine exists_congr fun metrics => ?_
  rw [get_eq_some_iff hwf.families]
  exact and_congr_right fun hmem => get_eq_some_iff (hwf.metrics _ hmem)

theorem get_getD (family : MetricFamily) (key : MetricKey) :
    get ((get c family).getD []) key = c.find family key := by
  rw [find]
  cases get c family <;> rfl

theorem find_upsert (family fam : MetricFamily) (key : MetricKey)
    (g : List (MetricKey × Sample 𝔽) → List (MetricKey × Sample 𝔽)) :
    find (upsert family (fun metrics => g (metrics.getD [])) c) fam key =
      if fam = family then get (g ((get c family).getD [])) key else c.find fam key := by
  rw [find, get_upsert]
  split_ifs with h
  · rfl
  · rfl

theorem WF.upsert (hwf : WF c) (family : MetricFamily)
    {g : List (MetricKey × Sample 𝔽) → List (MetricKey × Sample 𝔽)}
    (hg : ∀ l, (l.map Prod.fst).Nodup → ((g l).map Prod.fst).Nodup) :
    WF (upsert family (fun metrics => g (metrics.getD [])) c) := by
  have hkeys : ((KeyedLists.upsert family (fun metrics => g (metrics.getD [])) c).map
      Prod.fst).Nodup := nodup_upsert hwf.families
  refine ⟨hkeys, fun e he => ?_⟩
  have hget := (get_eq_some_iff hkeys).2 he
  rw [get_upsert] at hget
  split_ifs at hget with h
  · rw [← some.inj hget]
    refine hg _ ?_
    cases hold : get c family with
    | none => exact nodup_nil
    | some metrics => exact hwf.metrics _ ((get_eq_some_iff hwf.families).1 hold)
  · exact hwf.metrics _ ((get_eq_some_iff hwf.families).1 hget)

end Collection

/-! ## What a metric does to a sample -/

namespace FormatConfig

variable (cfg : FormatConfig 𝔽) (m : Metric 𝔽) (now : ℤ)

/-- A part that comes to a sample. -/
def addTo (old : Option (Sample 𝔽)) (p : Part 𝔽) : Option (Sample 𝔽) :=
  if older m old then old else some (cfg.write (cfg.base m now old) p)

/-- The parts of a metric for a family. -/
def parts (name : GoString) (fields : List (Field 𝔽)) : List (Part 𝔽) :=
  fields.filterMap fun field => if familyName m field = some name then cfg.part m field else none

variable {cfg m now} {c : Collection 𝔽}

theorem get_addPart (p : Part 𝔽) (metrics : List (MetricKey × Sample 𝔽)) (key : MetricKey) :
    get (cfg.addPart m now (some p) metrics) key =
      if key = cfg.key m then cfg.addTo m now (get metrics (cfg.key m)) p
      else get metrics key := by
  unfold addPart addTo
  dsimp only
  split_ifs with hold hkey hkey
  · rw [hkey]
  · rfl
  · rw [get_upsert, if_pos hkey]
  · rw [get_upsert, if_neg hkey]

theorem wf_addField (hwf : c.WF) (field : Field 𝔽) : (cfg.addField m now c field).WF := by
  unfold addField
  split
  · exact hwf
  · refine hwf.upsert _ fun l hl => ?_
    unfold addPart
    split
    · exact hl
    · split
      · exact hl
      · exact nodup_upsert hl

theorem wf_add (hwf : c.WF) : (cfg.add c m now).WF := by
  unfold add
  generalize m.fields = fields
  induction fields generalizing c with
  | nil => exact hwf
  | cons field fields ih => exact ih (wf_addField hwf field)

theorem find_addField (c : Collection 𝔽) (field : Field 𝔽) (name : GoString) (tp : ValueType)
    (key : MetricKey) :
    (cfg.addField m now c field).find ⟨name, tp⟩ key =
      if tp = m.tp ∧ key = cfg.key m then
        (cfg.parts m name [field]).foldl (cfg.addTo m now) (c.find ⟨name, tp⟩ key)
      else c.find ⟨name, tp⟩ key := by
  have hparts : cfg.parts m name [field] =
      if familyName m field = some name then (cfg.part m field).toList else [] := by
    unfold parts
    rw [filterMap_cons, filterMap_nil]
    split_ifs with h
    · cases cfg.part m field <;> rfl
    · rfl
  rw [hparts]
  unfold addField
  cases hname : familyName m field with
  | none => simp
  | some name' =>
    dsimp only
    rw [Collection.find_upsert]
    cases hp : cfg.part m field with
    | none =>
      have hget : get (cfg.addPart m now none ((get c ⟨name', m.tp⟩).getD [])) key =
          c.find ⟨name', m.tp⟩ key := Collection.get_getD _ _
      rw [hget]
      by_cases hfam : (⟨name, tp⟩ : MetricFamily) = ⟨name', m.tp⟩
      · simp [hfam]
      · simp [hfam]
    | some =>
      rw [get_addPart, Collection.get_getD, Collection.get_getD]
      by_cases hfam : (⟨name, tp⟩ : MetricFamily) = ⟨name', m.tp⟩
      · obtain ⟨rfl, rfl⟩ := MetricFamily.mk.inj hfam
        by_cases hkey : key = cfg.key m
        · simp [hkey]
        · simp [hkey]
      · rw [if_neg hfam]
        by_cases htp : tp = m.tp
        · have hne : name' ≠ name := fun h => hfam (by rw [h, htp])
          simp [hne]
        · simp [htp]

/-- What `Add` makes of a sample : the parts of the metric for the family come to it, one after the
other. -/
theorem find_add (c : Collection 𝔽) (name : GoString) (tp : ValueType) (key : MetricKey) :
    (cfg.add c m now).find ⟨name, tp⟩ key =
      if tp = m.tp ∧ key = cfg.key m then
        (cfg.parts m name m.fields).foldl (cfg.addTo m now) (c.find ⟨name, tp⟩ key)
      else c.find ⟨name, tp⟩ key := by
  unfold add
  generalize m.fields = fields
  induction fields generalizing c with
  | nil => simp [parts]
  | cons field fields ih =>
    have hcons : cfg.parts m name (field :: fields) =
        cfg.parts m name [field] ++ cfg.parts m name fields := by
      rw [parts, ← singleton_append, filterMap_append]
      rfl
    rw [foldl_cons, ih, find_addField, hcons, foldl_append]
    split_ifs <;> rfl

theorem write_stamp (s : Sample 𝔽) (p : Part 𝔽) :
    (cfg.write s p).time = s.time ∧ (cfg.write s p).addTime = s.addTime := by
  cases p <;> exact ⟨rfl, rfl⟩

theorem time_base_le (cfg : FormatConfig 𝔽) (now : ℤ) {old : Option (Sample 𝔽)}
    (h : older m old = false) : (cfg.base m now old).time ≤ m.tm := by
  unfold base
  split_ifs
  · exact le_rfl
  · cases old with
    | none => exact le_rfl
    | some => exact not_lt.1 (of_decide_eq_false h)

theorem foldl_addTo_of_older {old : Option (Sample 𝔽)} (h : older m old = true) :
    ∀ ps : List (Part 𝔽), ps.foldl (cfg.addTo m now) old = old
  | [] => rfl
  | p :: ps => by
    rw [foldl_cons, addTo, if_pos h]
    exact foldl_addTo_of_older h ps

/-- The sample after parts of a metric that is not older has the times of the base. -/
theorem foldl_addTo (cfg : FormatConfig 𝔽) (now : ℤ) {old : Option (Sample 𝔽)}
    (h : older m old = false) : ∀ {ps : List (Part 𝔽)}, ps ≠ [] →
      ∃ s, ps.foldl (cfg.addTo m now) old = some s ∧
        s.time = (cfg.base m now old).time ∧ s.addTime = (cfg.base m now old).addTime
  | p :: ps, _ => by
    obtain ⟨htime, haddTime⟩ := cfg.write_stamp (cfg.base m now old) p
    have hnext : older m (some (cfg.write (cfg.base m now old) p)) = false := by
      simpa [older, htime] using time_base_le cfg now h
    have hfold : (p :: ps).foldl (cfg.addTo m now) old =
        ps.foldl (cfg.addTo m now) (some (cfg.write (cfg.base m now old) p)) := by
      rw [foldl_cons, addTo, h]
      rfl
    rw [hfold]
    by_cases hps : ps = []
    · rw [hps]
      exact ⟨_, rfl, htime, haddTime⟩
    · obtain ⟨s, hs, htime', haddTime'⟩ := foldl_addTo cfg now hnext hps
      have hbase : (cfg.base m now (some (cfg.write (cfg.base m now old) p))).time =
            (cfg.base m now old).time ∧
          (cfg.base m now (some (cfg.write (cfg.base m now old) p))).addTime =
            (cfg.base m now old).addTime := by
        unfold base
        split_ifs with hscaler
        · exact ⟨rfl, rfl⟩
        · rw [base, if_neg hscaler] at htime haddTime
          exact ⟨htime, haddTime⟩
      exact ⟨s, hs, htime'.trans hbase.1, haddTime'.trans hbase.2⟩

end FormatConfig

/-! ## Expire -/

namespace Collection

variable {c : Collection 𝔽}

theorem mem_expire {now age : ℤ} {family : MetricFamily} {metrics : List (MetricKey × Sample 𝔽)} :
    (family, metrics) ∈ Prometheus.expire c now age ↔ ∃ metrics₀, (family, metrics₀) ∈ c ∧
      metrics = metrics₀.filter (fun x => !decide (x.2.addTime < now - age)) ∧
      ¬(metrics = [] ∧ metrics₀ ≠ []) := by
  rw [Prometheus.expire, mem_filterMap]
  constructor
  · rintro ⟨⟨_, metrics₀⟩, hmem, heq⟩
    dsimp only at heq
    split_ifs at heq with hnil
    cases heq
    exact ⟨metrics₀, hmem, rfl, hnil⟩
  · rintro ⟨metrics₀, hmem, rfl, hnil⟩
    exact ⟨(family, metrics₀), hmem, if_neg hnil⟩

theorem map_fst_expire (now age : ℤ) : ∀ c : Collection 𝔽,
    ((Prometheus.expire c now age).map Prod.fst).Sublist (c.map Prod.fst)
  | [] => List.Sublist.slnil
  | e :: c => by
    have ih := map_fst_expire now age c
    rw [Prometheus.expire, filterMap_cons]
    dsimp only
    split_ifs
    · exact ih.cons e.1
    · exact ih.cons_cons e.1

theorem WF.expire (hwf : c.WF) (now age : ℤ) : (Prometheus.expire c now age).WF := by
  refine ⟨(map_fst_expire now age c).nodup hwf.families, fun e he => ?_⟩
  obtain ⟨_, hmem, hmetrics, -⟩ := mem_expire.1 (show (e.1, e.2) ∈ _ from he)
  rw [hmetrics]
  exact (filter_sublist.map Prod.fst).nodup (hwf.metrics _ hmem)

theorem WF.find_expire (hwf : c.WF) (now age : ℤ) (family : MetricFamily) (key : MetricKey) :
    (Prometheus.expire c now age).find family key =
      (c.find family key).filter fun s => !decide (s.addTime < now - age) := by
  ext s
  rw [filter_eq_some_iff, (hwf.expire now age).find_eq_some, hwf.find_eq_some]
  constructor
  · rintro ⟨_, hmem, hs⟩
    obtain ⟨metrics₀, hmem₀, rfl, -⟩ := mem_expire.1 hmem
    obtain ⟨hs, hkept⟩ := mem_filter.1 hs
    exact ⟨⟨metrics₀, hmem₀, hs⟩, hkept⟩
  · rintro ⟨⟨metrics₀, hmem₀, hs⟩, hkept⟩
    have hs' : (key, s) ∈ metrics₀.filter fun x => !decide (x.2.addTime < now - age) :=
      mem_filter.2 ⟨hs, hkept⟩
    exact ⟨_, mem_expire.2 ⟨metrics₀, hmem₀, rfl, fun h => ne_nil_of_mem hs' h.1⟩, hs'⟩

end Collection

end Telegraf.Prometheus
