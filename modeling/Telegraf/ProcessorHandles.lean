import Telegraf.Processors

/-!
# Tracked metrics in processors

A processor should return each tracked metric that it is given or finalise it, and likewise
each copy that it makes, so that the groups of the metrics can be finished downstream. Every
call of a processor is compared with that : `owed` are the metrics it has to account for, and
`accounted` those it returns or finalises. `dedup` does not account for a metric that it
suppresses, `unpivot` not for the copy that it uses as a template, and `parser` not for the
original where it drops originals. All metrics are accounted for exactly if no tracked
metric gets there (`conserved_iff_conserving`).
-/

open List

open Option hiding map_map

namespace Telegraf

open Tracker Handle

variable {𝔽 : Type}

/-! ## One metric -/

/-- The metrics a call has to account for : the one it is given and the copies it makes. -/
def owed (w w' : Tracker) (h : Handle 𝔽) : List ℕ :=
  h.id.toList ++ List.range' w.groups.length (w'.groups.length - w.groups.length)

/-- The metrics a call returns or finalises. -/
def accounted (calls : List (ℕ × Outcome)) (out : List (Handle 𝔽)) : List ℕ :=
  ids out ++ calls.map Prod.fst

/-- What a call of a processor with the metric `h` does to the tracked metrics, where `keeps`
is that it accounts for all of them. -/
structure Accounts (w w' : Tracker) (h : Handle 𝔽) (out : List (Handle 𝔽)) (keeps : Prop) :
    Prop where
  groups : w.groups <+: w'.groups
  calls : ∃ calls, w'.calls = w.calls ++ calls ∧ (∀ i ∈ accounted calls out, i ∈ owed w w' h) ∧
    ((∀ i ∈ owed w w' h, (accounted calls out).count i = 1) ↔ keeps)

section

variable {w w' : Tracker} {h : Handle 𝔽} {out : List (Handle 𝔽)} {keeps : Prop}

theorem Accounts.intro
    (added : List ℕ) (calls : List (ℕ × Outcome)) (hgroups : w'.groups = w.groups ++ added)
    (hcalls : w'.calls = w.calls ++ calls)
    (hsub : ∀ i ∈ accounted calls out,
      i ∈ h.id.toList ++ List.range' w.groups.length added.length)
    (hkeeps : (∀ i ∈ h.id.toList ++ List.range' w.groups.length added.length,
      (accounted calls out).count i = 1) ↔ keeps) : Accounts w w' h out keeps := by
  have howed : owed w w' h = h.id.toList ++ range' w.groups.length added.length := by
    rw [owed, hgroups, length_append, Nat.add_sub_cancel_left]
  exact ⟨⟨added, hgroups.symm⟩, calls, hcalls, by rwa [howed], by rwa [howed]⟩

/-- A metric that is not tracked is not followed. -/
theorem accounts_of_untracked (hid : h.id = none) (hw : w' = w) (hout : ids out = []) :
    Accounts w w' h out (h.id.isSome → keeps) := by
  refine Accounts.intro [] [] ?_ ?_ ?_ ?_
  · rw [hw, append_nil]
  · rw [hw, append_nil]
  · simp [accounted, hout]
  · simp [hid]

end

variable {h : Handle 𝔽} {out : List (Handle 𝔽)}

theorem accounts_returned {w : Tracker}
    (hout : ids out = h.id.toList) : Accounts w w h out True := by
  refine Accounts.intro [] [] (append_nil _).symm (append_nil _).symm ?_ ?_
  · simp [accounted, hout]
  · cases hid : h.id <;> simp [accounted, hout, hid]

theorem accounts_finalised (w : Tracker) (h : Handle 𝔽) (outcome : Outcome) :
    Accounts w (w.finalise outcome h) h [] True := by
  refine Accounts.intro [] (h.id.toList.map fun i => (i, outcome)) (append_nil _).symm rfl ?_ ?_
  · cases hid : h.id <;> simp [accounted, ids]
  · cases hid : h.id <;> simp [accounted, ids]

/-- A tracked metric that is neither returned nor finalised. -/
theorem accounts_lost (w : Tracker) (hout : ids out = [])
    {keeps : Prop} (hkeeps : ¬keeps) : Accounts w w h out (h.id.isSome → keeps) := by
  refine Accounts.intro [] [] (append_nil _).symm (append_nil _).symm ?_ ?_
  · simp [accounted, hout]
  · cases hid : h.id <;> simp [accounted, hout, hkeeps]

variable {w w' : Tracker}

theorem Accounts.congr {keeps keeps' : Prop} (ha : Accounts w w' h out keeps)
    (hiff : keeps ↔ keeps') : Accounts w w' h out keeps' := by
  rwa [← propext hiff]

namespace Dedup

/-- `Apply` takes the metric out : it is cached, not expired and not changed. -/
def suppresses [GoFloat 𝔽] (d : Dedup 𝔽) (now : ℤ) (m : Metric 𝔽) : Bool :=
  match d.cache m.hashID with
  | none => false
  | some cached => decide (since now cached.tm < d.dedupInterval) && !changed m cached

theorem apply_singleton [GoFloat 𝔽] (clock : DedupClock) (d : Dedup 𝔽) (w : Tracker)
    (h : Handle 𝔽) :
    d.apply clock w [h] = if d.suppresses (clock.check 0) h.metric then
        some (d.cleanup clock, w, [])
      else
        some ((d.save w h h.metric.hashID).1.cleanup clock, (d.save w h h.metric.hashID).2,
          [h]) := by
  rw [apply, suppresses]
  simp only [length_singleton, applyLoop, getElem?_cons_zero, bind_eq_bind, bind_some]
  cases hc : d.cache h.metric.hashID with
  | none => rfl
  | some cached =>
    by_cases hage : since (clock.check 0) cached.tm ≥ d.dedupInterval
    · have hage' : ¬since (clock.check 0) cached.tm < d.dedupInterval := by omega
      simp [hage, hage']
    · have hage' : since (clock.check 0) cached.tm < d.dedupInterval := by omega
      cases hch : changed h.metric cached <;> simp [hage, hage', hch, remove]

theorem accounts_save (d : Dedup 𝔽) (w : Tracker) (h : Handle 𝔽) (id : UInt64)
    (hlt : ∀ i ∈ h.id, i < w.groups.length) : Accounts w (d.save w h id).2 h [h] True := by
  cases hid : h.id with
  | none =>
    refine Accounts.intro [] [] ?_ ?_ ?_ ?_
    · simp [save, copy, finalise, hid]
    · simp [save, copy, finalise, hid]
    · simp [accounted, ids, hid]
    · simp [hid]
  | some i =>
    have hi : i < w.groups.length := hlt i hid
    refine Accounts.intro [w.groups.getD i 0] [(w.groups.length, .accept)] ?_ ?_ ?_ ?_
    · simp [save, copy, finalise, hid]
    · simp [save, copy, finalise, hid]
    · simp [accounted, ids, hid]
    · have hne : i ≠ w.groups.length := Nat.ne_of_lt hi
      simp [accounted, ids, hid, hne, hne.symm, count_cons]

theorem accounts_apply [GoFloat 𝔽] (clock : DedupClock) (d : Dedup 𝔽) (w : Tracker)
    (h : Handle 𝔽) (hlt : ∀ i ∈ h.id, i < w.groups.length) :
    ∃ d' w' out, d.apply clock w [h] = some (d', w', out) ∧
      Accounts w w' h out (h.id.isSome → d.suppresses (clock.check 0) h.metric = false) := by
  rw [apply_singleton]
  cases hs : d.suppresses (clock.check 0) h.metric with
  | true => exact ⟨_, w, [], rfl, accounts_lost w rfl (by simp)⟩
  | false =>
    exact ⟨_, _, [h], rfl, (d.accounts_save w h h.metric.hashID hlt).congr (by simp)⟩

end Dedup

namespace Unpivot

theorem applyFields_spec (p : Unpivot) (base : Handle 𝔽) {j : ℕ} (hbase : base.id = some j) :
    ∀ (fields : List (Field 𝔽)) (w : Tracker), ∃ results w' added,
      p.applyFields base fields w = (results, w') ∧ w'.groups = w.groups ++ added ∧
        added.length = fields.length ∧ w'.calls = w.calls ∧
        ids results = List.range' w.groups.length fields.length
  | [], w => ⟨[], w, [], rfl, (List.append_nil _).symm, rfl, rfl, rfl⟩
  | f :: fields, w => by
    obtain ⟨results, w', added, happly, hgroups, hlen, hcalls, hids⟩ :=
      applyFields_spec p base hbase fields { w with groups := w.groups ++ [w.groups.getD j 0] }
    have hcons : p.applyFields base (f :: fields) w =
        (⟨some w.groups.length, (base.metric.addField p.valueKey f.value).addTag p.tagKey f.key⟩ ::
          results, w') := by
      rw [applyFields, copy, hbase]
      simp only
      rw [happly]
    refine ⟨_, w', w.groups.getD j 0 :: added, hcons, ?_, ?_, hcalls, ?_⟩
    · rw [hgroups, append_assoc]
      rfl
    · rw [length_cons, hlen, length_cons]
    · rw [length_append, length_singleton] at hids
      rw [length_cons, range'_succ, ← hids]
      rfl

theorem applyFields_of_untracked (p : Unpivot) (base : Handle 𝔽) (hbase : base.id = none) :
    ∀ (fields : List (Field 𝔽)) (w : Tracker), ∃ results,
      p.applyFields base fields w = (results, w) ∧ ids results = []
  | [], w => ⟨[], rfl, rfl⟩
  | f :: fields, w => by
    obtain ⟨results, happly, hids⟩ := applyFields_of_untracked p base hbase fields w
    have hcons : p.applyFields base (f :: fields) w =
        (⟨none, (base.metric.addField p.valueKey f.value).addTag p.tagKey f.key⟩ :: results,
          w) := by
      rw [applyFields, copy, hbase]
      simp only [happly, hbase]
    exact ⟨_, hcons, hids⟩

theorem apply_singleton (p : Unpivot) {w w₁ w₂ : Tracker} {h base : Handle 𝔽}
    {news : List (Handle 𝔽)} (hbase : copyWithoutFields w h = (base, w₁))
    (hfields : p.applyFields base h.metric.fields w₁ = (news, w₂)) :
    p.apply [h] w = (news, w₂.finalise .accept h) := by
  simp only [apply, hbase, hfields, append_nil]

/-- The copy without fields, which the others are copied from, is never finalised. -/
theorem accounts_apply (p : Unpivot) (w : Tracker) (h : Handle 𝔽)
    (hlt : ∀ i ∈ h.id, i < w.groups.length) :
    ∃ out w', p.apply [h] w = (out, w') ∧ Accounts w w' h out (h.id.isSome → False) := by
  obtain ⟨base, hmetric⟩ : ∃ base : Metric 𝔽,
      base = (h.metric.fields.map Field.key).foldl Metric.removeField h.metric := ⟨_, rfl⟩
  cases hid : h.id with
  | none =>
    have hcopy : copyWithoutFields w h = (⟨none, base⟩, w) := by
      simp [copyWithoutFields, copy, hid, hmetric]
    obtain ⟨results, hfields, hids⟩ := p.applyFields_of_untracked ⟨none, base⟩ rfl h.metric.fields w
    refine ⟨results, _, p.apply_singleton hcopy hfields, ?_⟩
    rw [← hid]
    exact accounts_of_untracked hid (by simp [finalise, hid]) hids
  | some i =>
    have hcopy : copyWithoutFields w h = (⟨some w.groups.length, base⟩,
        { w with groups := w.groups ++ [w.groups.getD i 0] }) := by
      simp [copyWithoutFields, copy, hid, hmetric]
    obtain ⟨results, w', added, hfields, hgroups, _, hcalls, hids⟩ :=
      p.applyFields_spec ⟨some w.groups.length, base⟩ rfl h.metric.fields
        { w with groups := w.groups ++ [w.groups.getD i 0] }
    have hi : i < w.groups.length := hlt i hid
    rw [length_append, length_singleton] at hids
    refine ⟨results, _, p.apply_singleton hcopy hfields, Accounts.intro
      (w.groups.getD i 0 :: added) [(i, .accept)] ?_ ?_ (fun j hj => ?_) ?_⟩
    · exact hgroups.trans (append_assoc _ _ _)
    · simp [finalise, hid, hcalls]
    · rw [accounted, hids, mem_append, mem_range'_1] at hj
      simp only [hid, toList_some, singleton_append, mem_cons, length_cons,
        mem_range'_1, map_cons, map_nil, not_mem_nil, or_false] at hj ⊢
      omega
    · -- the number of the copy without fields is not among the others
      simp only [isSome_some, forall_const, iff_false]
      intro hall
      have hone := hall w.groups.length (by simp [mem_range'_1])
      rw [accounted, hids, count_append,
        count_eq_zero.2 (by rw [mem_range'_1]; omega), Nat.zero_add, map_singleton,
        count_singleton, if_neg (by simpa using hi.ne)] at hone
      exact absurd hone Nat.zero_ne_one

end Unpivot

namespace Parser

theorem id_mergeInto (base : Handle 𝔽) (metrics : List (Handle 𝔽)) :
    (mergeInto base metrics).id = base.id :=
  foldlRecOn (motive := fun h : Handle 𝔽 => h.id = base.id) metrics _ rfl fun _ h _ _ => h

/-- The metrics that the parser makes are not tracked. -/
theorem ids_parsed (p : Parser) (parse : GoString → List (Metric 𝔽)) (m : Metric 𝔽) :
    ids (p.parsed parse m) = [] := by
  rw [ids, filterMap_eq_nil_iff]
  intro h hh
  obtain ⟨_, -, hh⟩ := mem_flatMap.1 hh
  obtain ⟨f, -, hh⟩ := mem_flatMap.1 hh
  split at hh
  · split at hh
    · obtain ⟨_, -, rfl⟩ := mem_map.1 hh
      rfl
    · exact absurd hh not_mem_nil
  · exact absurd hh not_mem_nil

theorem ids_merged (p : Parser) (base : Handle 𝔽) {metrics : List (Handle 𝔽)}
    (hmetrics : ids metrics = []) : ids (if p.merge = str "override" then
      [mergeInto base metrics] else base :: metrics) = base.id.toList := by
  split
  · rw [ids_cons, id_mergeInto]
    exact append_nil _
  · rw [ids_cons, hmetrics, append_nil]

/-- The original is returned, unless originals are dropped. -/
theorem ids_applyMetric (p : Parser) (parse : GoString → List (Metric 𝔽)) (h : Handle 𝔽) :
    ids (p.applyMetric parse h) = if p.dropOriginal then [] else h.id.toList := by
  have hparsed := p.ids_parsed parse h.metric
  rw [applyMetric]
  cases hdrop : p.dropOriginal with
  | false => exact p.ids_merged h hparsed
  | true =>
    simp only [if_true, nil_append]
    cases hl : p.parsed parse h.metric with
    | nil => rfl
    | cons base =>
      rw [hl, ids_cons, append_eq_nil_iff] at hparsed
      exact (p.ids_merged base hparsed.2).trans hparsed.1

theorem accounts_apply (p : Parser) (newParser : NewParserResult)
    (parse : GoString → List (Metric 𝔽)) (w : Tracker) (h : Handle 𝔽) :
    ∃ p' out, p.apply newParser parse [h] = (p', out) ∧
      Accounts w w h out (h.id.isSome → p.dropOriginal = false ∨
        p.parser = false ∧ newParser ≠ .ok) := by
  have hids : ids ([h].flatMap (p.applyMetric parse)) =
      if p.dropOriginal then [] else h.id.toList := by
    rw [flatMap_singleton, ids_applyMetric]
  have hloop : (p.parser = false → newParser = .ok) →
      Accounts w w h ([h].flatMap (p.applyMetric parse)) (h.id.isSome → p.dropOriginal = false ∨
        p.parser = false ∧ newParser ≠ .ok) := by
    intro hok
    cases hdrop : p.dropOriginal with
    | false => exact (accounts_returned (by rw [hids, hdrop]; rfl)).congr (by simp)
    | true =>
      refine accounts_lost w (by rw [hids, hdrop]; rfl) ?_
      rintro (hf | ⟨hnil, hne⟩)
      · exact absurd hf (by simp)
      · exact hne (hok hnil)
  unfold apply
  cases hp : p.parser with
  | true => exact ⟨_, _, rfl, by simpa [hp] using hloop (by simp [hp])⟩
  | false =>
    cases hn : newParser with
    | ok => exact ⟨_, _, rfl, by simpa [hp, hn] using hloop fun _ => hn⟩
    | error =>
      have hsame : ids [h] = h.id.toList := (ids_cons h []).trans (append_nil _)
      exact ⟨_, _, rfl, (accounts_returned hsame).congr (by simp)⟩

end Parser

/-- The processor accounts for a tracked metric with fields. -/
def Processor.Keeps [GoFloat 𝔽] (env : ProcessorEnv 𝔽) (m : Metric 𝔽) : Processor 𝔽 → Prop
  | .dedup d => d.suppresses (env.clock.check 0) m = false
  | .unpivot _ => False
  | .parser p => p.dropOriginal = false ∨ p.parser = false ∧ env.newParser ≠ .ok

theorem Processor.accounts_apply [GoFloat 𝔽] (env : ProcessorEnv 𝔽) (w : Tracker)
    (p : Processor 𝔽) (h : Handle 𝔽) (hlt : ∀ i ∈ h.id, i < w.groups.length) :
    ∃ p' w' out, p.apply env w [h] = some (p', w', out) ∧
      Accounts w w' h out (h.id.isSome → p.Keeps env h.metric) := by
  cases p with
  | dedup d =>
    obtain ⟨d', w', out, happly, hacc⟩ := d.accounts_apply env.clock w h hlt
    exact ⟨.dedup d', w', out, by rw [Processor.apply, happly]; rfl, hacc⟩
  | unpivot p =>
    obtain ⟨out, w', happly, hacc⟩ := p.accounts_apply w h hlt
    exact ⟨.unpivot p, w', out, by rw [Processor.apply, happly], hacc⟩
  | parser p =>
    obtain ⟨p', out, happly, hacc⟩ := p.accounts_apply env.newParser env.parse w h
    exact ⟨.parser p', w, out, by rw [Processor.apply, happly], hacc⟩

namespace RunningProcessor

variable [GoFloat 𝔽]

/-- The metric is not tracked, the filters keep it from the processor, or the processor
accounts for it. -/
def Conserving (filter : Filter) (rp : RunningProcessor 𝔽) : ProcessorEnv 𝔽 × Handle 𝔽 → Prop
  | (env, h) => h.id.isSome → filter.select h.metric = true →
      (filter.modify h.metric).fields.length ≠ 0 → rp.processor.Keeps env (filter.modify h.metric)

/-- How often a metric is returned or finalised. -/
def places (rp : RunningProcessor 𝔽) (i : ℕ) : ℕ :=
  (accounted rp.tracker.calls rp.ret).count i

/-- An iteration accounts for its metrics exactly if it is a conserving one, and leaves the
others alone. -/
theorem applyMetric_spec (filter : Filter) (rp : RunningProcessor 𝔽) (env : ProcessorEnv 𝔽)
    (h : Handle 𝔽) (hlt : ∀ i ∈ h.id, i < rp.tracker.groups.length) :
    ∃ rp', rp.applyMetric filter (env, h) = some rp' ∧
      rp.tracker.groups <+: rp'.tracker.groups ∧
      (∀ i, i ∉ owed rp.tracker rp'.tracker h → rp'.places i = rp.places i) ∧
      ((∀ i ∈ owed rp.tracker rp'.tracker h, rp'.places i = rp.places i + 1) ↔
        Conserving filter rp (env, h)) := by
  have hmain : ∃ p' w' out, rp.applyMetric filter (env, h) = some ⟨p', w', rp.ret ++ out⟩ ∧
      Accounts rp.tracker w' h out (Conserving filter rp (env, h)) := by
    by_cases hsel : filter.select h.metric = true
    · by_cases hlen : (filter.modify h.metric).fields.length = 0
      · refine ⟨rp.processor, rp.tracker.finalise .drop h, [], ?_,
          (accounts_finalised rp.tracker h .drop).congr ?_⟩
        · simp only [applyMetric, hsel, if_true, hlen, append_nil]
          rfl
        · simp [Conserving, hlen]
      · obtain ⟨p', w', out, happly, hacc⟩ := rp.processor.accounts_apply env rp.tracker
          { h with metric := filter.modify h.metric } hlt
        refine ⟨p', w', out, ?_, ?_⟩
        · simp only [applyMetric, hsel, if_true, hlen, if_false, happly]
          rfl
        · have hacc' : Accounts rp.tracker w' h out
              (h.id.isSome → rp.processor.Keeps env (filter.modify h.metric)) :=
            ⟨hacc.groups, hacc.calls⟩
          exact hacc'.congr (by simp only [Conserving, hsel, hlen, ne_eq, not_false_iff,
            forall_const])
    · refine ⟨rp.processor, rp.tracker, [h], ?_, (accounts_returned ?_).congr ?_⟩
      · simp only [applyMetric, hsel]
        rfl
      · exact (ids_cons h []).trans (append_nil _)
      · simp [Conserving, hsel]
  obtain ⟨p', w', out, happly, hgroups, calls, hcalls, hsub, hkeeps⟩ := hmain
  have hplaces : ∀ i, (⟨p', w', rp.ret ++ out⟩ : RunningProcessor 𝔽).places i =
      rp.places i + (accounted calls out).count i := by
    intro i
    simp only [places, accounted, hcalls, ids, filterMap_append, map_append, count_append]
    omega
  refine ⟨_, happly, hgroups, fun i hi => ?_, ?_⟩
  · rw [hplaces, count_eq_zero.2 fun hmem => hi (hsub i hmem), Nat.add_zero]
  · rw [← hkeeps]
    simp only [hplaces, Nat.add_left_cancel_iff]

/-! ## All metrics -/

omit [GoFloat 𝔽] in
theorem mem_owed {i : ℕ} (hgroups : w.groups <+: w'.groups) :
    i ∈ owed w w' h ↔ i ∈ h.id ∨ w.groups.length ≤ i ∧ i < w'.groups.length := by
  have hle := hgroups.length_le
  rw [owed, mem_append, mem_range'_1, mem_toList]
  refine or_congr_right ⟨fun h => ?_, fun h => ?_⟩ <;> omega

/-- The metrics given to `Apply` and the copies it makes. -/
def Concerned (groups : List ℕ) (metrics : List (ProcessorEnv 𝔽 × Handle 𝔽))
    (rp : RunningProcessor 𝔽) (i : ℕ) : Prop :=
  i ∈ ids (metrics.map Prod.snd) ∨ groups.length ≤ i ∧ i < rp.tracker.groups.length

omit [GoFloat 𝔽] in
/-- An iteration and the rest of the loop share the metrics between them. -/
theorem concerned_cons {rp rp₁ rp' : RunningProcessor 𝔽} {env : ProcessorEnv 𝔽}
    {metrics : List (ProcessorEnv 𝔽 × Handle 𝔽)}
    (hgroups₁ : rp.tracker.groups <+: rp₁.tracker.groups)
    (hgroups' : rp₁.tracker.groups <+: rp'.tracker.groups) (i : ℕ) :
    Concerned rp.tracker.groups ((env, h) :: metrics) rp' i ↔
      i ∈ owed rp.tracker rp₁.tracker h ∨ Concerned rp₁.tracker.groups metrics rp' i := by
  have hle₁ := hgroups₁.length_le
  have hle' := hgroups'.length_le
  rw [Concerned, Concerned, mem_owed hgroups₁, map_cons, ids_cons, mem_append, mem_toList]
  constructor
  · rintro ((hi | hi) | hi)
    · exact .inl (.inl hi)
    · exact .inr (.inl hi)
    · rcases Nat.lt_or_ge i rp₁.tracker.groups.length with hlt₁ | hge₁
      · exact .inl (.inr ⟨hi.1, hlt₁⟩)
      · exact .inr (.inr ⟨hge₁, hi.2⟩)
  · rintro ((hi | hi) | (hi | hi))
    · exact .inl (.inl hi)
    · exact .inr ⟨hi.1, Nat.lt_of_lt_of_le hi.2 hle'⟩
    · exact .inl (.inr hi)
    · exact .inr ⟨Nat.le_trans hle₁ hi.1, hi.2⟩

omit [GoFloat 𝔽] in
/-- An iteration does not touch the metrics that come later. -/
theorem notMem_owed {rp rp₁ : RunningProcessor 𝔽} {later : List ℕ}
    (hgroups₁ : rp.tracker.groups <+: rp₁.tracker.groups)
    (hlt : ∀ i ∈ h.id.toList ++ later, i < rp.tracker.groups.length)
    (hdisj : h.id.toList.Disjoint later) {i : ℕ}
    (hi : i ∈ later ∨ rp₁.tracker.groups.length ≤ i) : i ∉ owed rp.tracker rp₁.tracker h := by
  intro hmem
  have hle₁ := hgroups₁.length_le
  rcases (mem_owed hgroups₁).1 hmem with hmem | ⟨_, _⟩
  · have hmem' := mem_toList.2 hmem
    rcases hi with hi | hi
    · exact hdisj hmem' hi
    · exact absurd (hlt i (mem_append_left _ hmem')) (by omega)
  · rcases hi with hi | hi
    · exact absurd (hlt i (mem_append_right _ hi)) (by omega)
    · omega

/-- The loop of `Apply` accounts for all metrics exactly if every iteration does. -/
theorem run_applyMetric (filter : Filter) : ∀ (metrics : List (ProcessorEnv 𝔽 × Handle 𝔽))
    (rp : RunningProcessor 𝔽), (ids (metrics.map Prod.snd)).Nodup →
    (∀ i ∈ ids (metrics.map Prod.snd), i < rp.tracker.groups.length) →
    (∀ i, i ∈ ids (metrics.map Prod.snd) ∨ rp.tracker.groups.length ≤ i → rp.places i = 0) →
    ∃ rp', Machine.run (applyMetric filter) rp metrics = some rp' ∧
      rp.tracker.groups <+: rp'.tracker.groups ∧
      (∀ i, ¬Concerned rp.tracker.groups metrics rp' i → rp'.places i = rp.places i) ∧
      ((∀ i, Concerned rp.tracker.groups metrics rp' i → rp'.places i = 1) ↔
        Machine.AllSteps (applyMetric filter) (Conserving filter) rp metrics)
  | [], rp, _, _, _ => by
    refine ⟨rp, rfl, prefix_rfl, fun _ _ => rfl, fun _ => trivial, fun _ i hi => ?_⟩
    rcases hi with hi | ⟨hle, hlt⟩
    · exact absurd hi not_mem_nil
    · exact absurd hle (Nat.not_le_of_lt hlt)
  | (env, h) :: metrics, rp, hnodup, hlt, hzero => by
    rw [map_cons, ids_cons] at hnodup hlt
    obtain ⟨-, hnodup', hdisj⟩ := nodup_append'.1 hnodup
    have hid : ∀ i ∈ h.id, i < rp.tracker.groups.length := fun i hi =>
      hlt i (mem_append_left _ (mem_toList.2 hi))
    obtain ⟨rp₁, hstep, hgroups₁, hother₁, hcons₁⟩ := applyMetric_spec filter rp env h hid
    have hle₁ := hgroups₁.length_le
    have hfresh := fun i => notMem_owed (i := i) hgroups₁ hlt hdisj
    obtain ⟨rp', hrun, hgroups', hother', hcons'⟩ := run_applyMetric filter metrics rp₁ hnodup'
      (fun i hi => Nat.lt_of_lt_of_le (hlt i (mem_append_right _ hi)) hle₁) fun i hi => by
        rw [hother₁ i (hfresh i hi)]
        refine hzero i (hi.imp (fun hi => ?_) fun hi => Nat.le_trans hle₁ hi)
        rw [map_cons, ids_cons]
        exact mem_append_right _ hi
    have hsplit : ∀ i, Concerned rp.tracker.groups ((env, h) :: metrics) rp' i ↔
        i ∈ owed rp.tracker rp₁.tracker h ∨ Concerned rp₁.tracker.groups metrics rp' i :=
      concerned_cons hgroups₁ hgroups'
    have hkept : ∀ i ∈ owed rp.tracker rp₁.tracker h,
        rp'.places i = 1 ↔ rp₁.places i = rp.places i + 1 := by
      intro i hi
      have hnot : ¬Concerned rp₁.tracker.groups metrics rp' i := fun hc =>
        hfresh i (hc.imp id And.left) hi
      have hzero' : rp.places i = 0 := hzero i <| ((mem_owed hgroups₁).1 hi).imp (fun hi => by
        rw [map_cons, ids_cons]
        exact mem_append_left _ (mem_toList.2 hi)) And.left
      rw [hother' i hnot, hzero']
    refine ⟨rp', by rw [Machine.run_cons, hstep, bind_some, hrun],
      hgroups₁.trans hgroups', fun i hi => ?_, ?_⟩
    · rw [hsplit, not_or] at hi
      rw [hother' i hi.2, hother₁ i hi.1]
    · have hsteps : Machine.AllSteps (applyMetric filter) (Conserving filter) rp
          ((env, h) :: metrics) ↔ Conserving filter rp (env, h) ∧
          Machine.AllSteps (applyMetric filter) (Conserving filter) rp₁ metrics := by
        simp [Machine.AllSteps, hstep]
      rw [hsteps, ← hcons₁, ← hcons']
      simp only [hsplit, or_imp, forall_and]
      exact and_congr_left fun _ => forall₂_congr fun i hi => hkept i hi

/-- Each metric given to `Apply` and each copy made in it is returned or finalised, once. -/
def Conserved (groups : List ℕ) (metrics : List (ProcessorEnv 𝔽 × Handle 𝔽))
    (rp : RunningProcessor 𝔽) : Prop :=
  ∀ i, Concerned groups metrics rp i → rp.places i = 1

/-- The returned metrics are finalised downstream. -/
def finaliseReturned (rp : RunningProcessor 𝔽) (outcome : Handle 𝔽 → Outcome) : Tracker :=
  rp.ret.foldl (fun w h => w.finalise (outcome h) h) rp.tracker

omit [GoFloat 𝔽] in
theorem foldl_finalise (outcome : Handle 𝔽 → Outcome) : ∀ (l : List (Handle 𝔽)) (w : Tracker),
    (l.foldl (fun w h => w.finalise (outcome h) h) w).groups = w.groups ∧
      (l.foldl (fun w h => w.finalise (outcome h) h) w).calls.map Prod.fst =
        w.calls.map Prod.fst ++ ids l
  | [], w => ⟨rfl, (List.append_nil _).symm⟩
  | h :: l, w => by
    obtain ⟨hgroups, hcalls⟩ := foldl_finalise outcome l (w.finalise (outcome h) h)
    refine ⟨hgroups, hcalls.trans ?_⟩
    rw [finalise, map_append, map_map, ids_cons, append_assoc]
    congr 2
    exact map_id _

theorem countP_range_getElem? (l : List ℕ) (g : ℕ) :
    (List.range l.length).countP (fun i => l[i]? == some g) = l.count g := by
  have hmap : (range l.length).map (fun i => l[i]?) = l.map some := by
    refine ext_getElem (by simp) fun i hi hi' => ?_
    have hi'' : i < l.length := by simpa using hi'
    simp [hi'']
  have hcount := congrArg (countP (· == some g)) hmap
  rw [countP_map, countP_map] at hcount
  exact hcount.trans (countP_congr fun x _ => by simp)

/-- If every metric of the groups was finalised once, no reference is left. -/
theorem rc_eq_zero_of_perm {w : Tracker}
    (hperm : (w.calls.map Prod.fst).Perm (List.range w.groups.length)) (g : ℕ) : w.rc g = 0 := by
  have hcount := hperm.countP_eq fun i => w.groups[i]? == some g
  rw [countP_range_getElem?, countP_map] at hcount
  rw [rc, ← hcount]
  exact Int.sub_self _

/-- `RunningProcessor.Apply` returns. Every tracked metric it is given and every copy made of
one is then returned or finalised exactly once if and only if no tracked metric that
reaches the processor is suppressed by `dedup`, is unpivoted, or is dropped by `parser`. If
so, and the metrics given to it are all of their groups, no reference is left once the
returned metrics are finalised. -/
theorem conserved_iff_conserving (filter : Filter) (processor : Processor 𝔽) (groups : List ℕ)
    (metrics : List (ProcessorEnv 𝔽 × Handle 𝔽)) (hnodup : (ids (metrics.map Prod.snd)).Nodup)
    (hlt : ∀ i ∈ ids (metrics.map Prod.snd), i < groups.length) :
    ∃ rp, apply filter processor groups metrics = some rp ∧
      (Conserved groups metrics rp ↔ Machine.AllSteps (applyMetric filter) (Conserving filter)
        ⟨processor, ⟨groups, []⟩, []⟩ metrics) ∧
      (Conserved groups metrics rp → (∀ i < groups.length, i ∈ ids (metrics.map Prod.snd)) →
        ∀ outcome g, (rp.finaliseReturned outcome).rc g = 0) := by
  obtain ⟨rp, hrun, hgroups, hother, hiff⟩ := run_applyMetric filter metrics
    ⟨processor, ⟨groups, []⟩, []⟩ hnodup hlt fun _ _ => rfl
  refine ⟨rp, hrun, hiff, fun hcons hall outcome g => rc_eq_zero_of_perm ?_ g⟩
  obtain ⟨hgroups', hcalls'⟩ := foldl_finalise outcome rp.ret rp.tracker
  have hle := hgroups.length_le
  rw [finaliseReturned, hcalls', hgroups', perm_iff_count]
  intro i
  have hplaces : (rp.tracker.calls.map Prod.fst ++ ids rp.ret).count i = rp.places i := by
    rw [places, accounted, count_append, count_append, Nat.add_comm]
  rw [hplaces]
  by_cases hi : i < rp.tracker.groups.length
  · rw [count_eq_one_of_mem nodup_range (mem_range.2 hi)]
    refine hcons i ?_
    rcases Nat.lt_or_ge i groups.length with hold | hnew
    · exact .inl (hall i hold)
    · exact .inr ⟨hnew, hi⟩
  · rw [count_eq_zero.2 fun hmem => hi (mem_range.1 hmem)]
    refine hother i ?_
    rintro (hmem | ⟨-, hlt'⟩)
    · exact hi (Nat.lt_of_lt_of_le (hlt i hmem) hle)
    · exact hi hlt'

/-- All clocks are at zero and there is nothing to parse. -/
def quiet : ProcessorEnv ℤ :=
  ⟨⟨fun _ => 0, 0, 0, fun _ => 0⟩, .ok, fun _ => []⟩

/-- `dedup` suppresses the second of two equal metrics, `unpivot` leaves the copy without
fields, and `parser` the original that it does not return. -/
theorem processors_lose_metrics :
    (∃ rp, apply Filter.inactive (.dedup ⟨600, 0, fun _ => none⟩) [7, 7]
        [(quiet, ⟨some 0, (counter 0).metric⟩),
          (quiet, ⟨some 1, (counter 0).metric⟩)] =
        some rp ∧ ¬Conserved [7, 7] [(quiet, ⟨some 0, (counter 0).metric⟩),
          (quiet, ⟨some 1, (counter 0).metric⟩)] rp) ∧
    (∃ rp, apply Filter.inactive (.unpivot ⟨str "name", str "value"⟩) [7]
        [(quiet, counter 0)] = some rp ∧ ¬Conserved [7] [(quiet, counter 0)] rp) ∧
    ∃ rp, apply Filter.inactive (.parser ⟨true, [], [], false⟩) [7] [(quiet, counter 0)] =
      some rp ∧ ¬Conserved [7] [(quiet, counter 0)] rp := by
  refine ⟨⟨_, rfl, fun hcons => ?_⟩, ⟨_, rfl, fun hcons => ?_⟩, ⟨_, rfl, fun hcons => ?_⟩⟩
  · exact absurd (hcons 1 (.inl (by decide))) (by decide)
  · exact absurd (hcons 1 (.inr ⟨by decide, by decide⟩)) (by decide)
  · exact absurd (hcons 0 (.inl (by decide))) (by decide)

/-- `dedup` lets a metric pass whose field has another value than the one before. -/
theorem dedup_conserves_changed :
    ∃ rp, apply Filter.inactive (.dedup ⟨600, 0, fun _ => none⟩) [7, 8]
        [(quiet, counter 0), (quiet, counter 1)] = some rp ∧
      Conserved [7, 8] [(quiet, counter 0), (quiet, counter 1)] rp ∧
      ∀ g, (rp.finaliseReturned fun _ => .accept).rc g = 0 := by
  obtain ⟨rp, happly, hiff, hrc⟩ := conserved_iff_conserving Filter.inactive
    (.dedup ⟨600, 0, fun _ => none⟩) [7, 8] [(quiet, counter 0), (quiet, counter 1)]
    (by decide) (by decide)
  have hcons := hiff.2 ⟨fun _ _ _ => rfl, fun _ hstep =>
    ⟨fun _ _ _ => by cases hstep; exact Eq.refl false, fun _ _ => trivial⟩⟩
  exact ⟨rp, happly, hcons, hrc hcons (by decide) _⟩

end RunningProcessor

end Telegraf
