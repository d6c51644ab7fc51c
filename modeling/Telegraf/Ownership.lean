import Telegraf.FlushCoverage

/-!
# Ownership of metrics

`AddMetric` takes ownership of the metric it is given. In a sequence of calls of `AddMetric`,
`Write` and `WriteBatch`, looked at after every step, a metric given to the output is in the
buffer or in the batch that is being written, or it was accepted, rejected or dropped, or
the aggregator holds it. An output that aggregates never finalises a metric that it
takes : `Add` may not use it at all, and `Reset` forgets those it has pushed. So the metrics are
accounted for exactly as long as neither happens (`owned_iff_finalising`).
-/

open List Option

namespace Telegraf

open RunningOutput Machine OutputConfig

namespace RunningOutput

variable {𝔽 : Type}

/-- The aggregator holds the metric. -/
def holds (ro : RunningOutput 𝔽) (i : ℕ) : Bool :=
  match ro.aggregating with
  | none => false
  | some a => a.holds i

/-- The places of metrics apart from the aggregator, with `live` in the buffer and `flying`
in the batch that is being written. -/
def located (ro : RunningOutput 𝔽) (live flying : List (Handle 𝔽)) : List (Handle 𝔽) :=
  live ++ flying ++ ro.buffer.accepted ++ ro.buffer.rejected ++ ro.dropped

/-- In how many places a metric is. -/
def places (ro : RunningOutput 𝔽) (live flying : List (Handle 𝔽)) (i : ℕ) : ℕ :=
  (ids (ro.located live flying)).count i + (ro.holds i).toNat

/-- Metrics that are added are in the buffer, or take the place of others there, which are then
rejected. -/
theorem perm_located_add {ro ro' : RunningOutput 𝔽} {live flying ms : List (Handle 𝔽)}
    (heff : ro.buffer.AddEffect ro'.buffer ms.length
      ((live ++ ms).take (live.length + ms.length - ro.buffer.cap)))
    (hdropped : ro'.dropped = ro.dropped) :
    (ro'.located ((live ++ ms).rtake ro.buffer.cap) flying).Perm
      (ro.located live flying ++ ms) := by
  classical
  rw [perm_iff_count]
  intro x
  have hsplit := congrArg (count x) (take_append_drop (live ++ ms)
    (i := live.length + ms.length - ro.buffer.cap))
  simp only [located, heff.accepted, heff.rejected, hdropped, count_append, rtake,
    length_append] at hsplit ⊢
  omega

end RunningOutput

namespace WriteState

open AzureMonitor (Joined Stays utcMinute)

variable {𝔽 : Type}

/-- Every metric given to the output is in one place. -/
def Owned (s : WriteState 𝔽) : Prop :=
  ∀ i ∈ s.given, s.ro.places s.ro.buffer.contents.reduceOption (inFlight s.pc).reduceOption i = 1

/-- Calls come one after another, and a metric is given once. -/
def Sequential (s : WriteState 𝔽) : WriteEvent 𝔽 → Prop
  | .addMetric _ h => s.pc = .idle ∧ ∃ i, h.id = some i ∧ i ∉ s.given
  | .write _ _ | .writeBatch => s.pc = .idle
  | .resetCount => s.pc = .pushed
  | .len => s.pc = .counted
  | .batch => ∃ n, s.pc = .looping (n + 1)
  | .outputWrite _ => ∃ n batch, s.pc = .sending n batch
  | .finish => ∃ n batch ok, s.pc = .sent n batch ok

/-- The aggregator, if there is one, uses the metrics it is given, and does not reset a minute
with metrics in it. -/
def Finalising [GoFloat 𝔽] (s : WriteState 𝔽) : WriteEvent 𝔽 → Prop
  | .addMetric now h => ∀ m ∈ s.ro.filtered h.metric, ∀ a ∈ s.ro.aggregating,
      a.Absorbs now { h with metric := m }
  | .write _ nowReset => ∀ a ∈ s.ro.aggregating, ∀ e ∈ a.cache, e.agg.members ≠ [] →
      Stays nowReset e.tbucket
  | .writeBatch | .resetCount | .len | .batch | .outputWrite _ | .finish => True

/-- The invariant : every metric given is in one place and no other is in any, a batch in
flight can be put back, and each metric in the aggregator is in aggregates of one minute. -/
structure Keeping (s : WriteState 𝔽) (F : ℕ) (live flying : List (Handle 𝔽))
    (minutes : ℕ → TimeBucket) : Prop where
  ring : s.ro.buffer.Ring F live
  inFlight : inFlight s.pc = flying.map some
  restore : flying ≠ [] → ∃ (b : Buffer (Handle 𝔽)) (n : ℕ), b.Ring F (live ++ flying.reverse) ∧
    b.batch n = some (s.ro.buffer, flying.map some) ∧ (live ++ flying.reverse).rtake n ≠ []
  placed : ∀ i, s.ro.places live flying i = if i ∈ s.given then 1 else 0
  joined : ∀ a, s.ro.aggregating = some a → ∀ x t, Joined a.cache x t →
    ∃ i ∈ s.given, x = some i ∧ t = minutes i

section Steps

variable {s s' : WriteState 𝔽} {F F' : ℕ} {live live' flying flying' : List (Handle 𝔽)}
  {minutes : ℕ → TimeBucket}

theorem count_ids_of_perm {l l' : List (Handle 𝔽)} (h : l.Perm l') (i : ℕ) :
    (ids l).count i = (ids l').count i :=
  (h.filterMap Handle.id).count_eq i

/-- A step that moves metrics between the buffer, the batch and the calls made on them. -/
theorem Keeping.of_perm (h : Keeping s F live flying minutes)
    (hring : s'.ro.buffer.Ring F' live') (hflying : WriteState.inFlight s'.pc = flying'.map some)
    (hrestore : flying' ≠ [] → ∃ (b : Buffer (Handle 𝔽)) (n : ℕ),
      b.Ring F' (live' ++ flying'.reverse) ∧ b.batch n = some (s'.ro.buffer, flying'.map some) ∧
      (live' ++ flying'.reverse).rtake n ≠ [])
    (hgiven : s'.given = s.given) (hagg : s'.ro.aggregating = s.ro.aggregating)
    (hperm : (s'.ro.located live' flying').Perm (s.ro.located live flying)) :
    Keeping s' F' live' flying' minutes where
  ring := hring
  inFlight := hflying
  restore := hrestore
  placed := fun i => by
    rw [hgiven, ← h.placed i, places, places, count_ids_of_perm hperm,
      holds, holds, hagg]
  joined := fun a ha x t hx => hgiven ▸ h.joined a (hagg ▸ ha) x t hx

theorem owned_iff (hring : s.ro.buffer.Ring F live)
    (hflying : WriteState.inFlight s.pc = flying.map some) :
    Owned s ↔ ∀ i ∈ s.given, s.ro.places live flying i = 1 := by
  rw [Owned, hring.contents_eq, hflying]
  simp [reduceOption]

theorem Keeping.owned (h : Keeping s F live flying minutes) : Owned s :=
  (owned_iff h.ring h.inFlight).2 fun i hi => by rw [h.placed i, if_pos hi]

section

variable {ro : RunningOutput 𝔽} {given : List ℕ} {n : ℕ}

theorem Keeping.batch [GoFloat 𝔽]
    (h : Keeping ⟨ro, .looping (n + 1), given⟩ F live flying minutes) :
    ∃ s', step ⟨ro, .looping (n + 1), given⟩ .batch = some s' ∧
      ∃ live' flying', Keeping s' F live' flying' minutes := by
  obtain ⟨b, hbatch, hring, heff, -⟩ := Buffer.batch_spec h.ring ro.metricBatchSize
  have hflying : flying = [] := map_eq_nil_iff.1 h.inFlight.symm
  have hsplit := Circular.take_append_rtake live ro.metricBatchSize
  refine ⟨_, step_of_rel (.batch hbatch), live.take (live.length - ro.metricBatchSize),
    (live.rtake ro.metricBatchSize).reverse, h.of_perm hring ?_ (fun hne => ?_) rfl rfl ?_⟩
  · rw [map_reverse]
    split
    · exact (length_eq_zero_iff.1 ‹_›).symm
    · rfl
  · rw [reverse_reverse, hsplit, map_reverse]
    exact ⟨ro.buffer, ro.metricBatchSize, h.ring, hbatch, fun hnil => hne (by rw [hnil]; rfl)⟩
  · rw [located, located, hflying, heff.accepted, heff.rejected,
      append_nil]
    refine List.Perm.append_right _ (List.Perm.append_right _ (List.Perm.append_right _ ?_))
    conv_rhs => rw [← hsplit]
    exact List.Perm.append_left _ (reverse_perm _)

section

variable {batch : List (Option (Handle 𝔽))} [GoFloat 𝔽]

theorem Keeping.accept (h : Keeping ⟨ro, .sent n batch true, given⟩ F live flying minutes) :
    ∃ s', step ⟨ro, .sent n batch true, given⟩ .finish = some s' ∧
      ∃ live' flying', Keeping s' F live' flying' minutes := by
  have hbatch : batch = flying.map some := h.inFlight
  have haccept := Buffer.accept_eq ro.buffer flying
  rw [← hbatch] at haccept
  refine ⟨_, step_of_rel (.accept haccept), live, [], h.of_perm ?_ ?_ (fun hne => absurd rfl hne)
    rfl rfl ?_⟩
  · exact ⟨h.ring.cap_pos, h.ring.buf_length, h.ring.first, h.ring.last, h.ring.size, h.ring.slots⟩
  · cases n <;> rfl
  · rw [located, located, append_nil]
    refine List.Perm.append_right _ (List.Perm.append_right _ ?_)
    rw [append_assoc]
    exact List.Perm.append_left live perm_append_comm

theorem Keeping.reject (h : Keeping ⟨ro, .sent n batch false, given⟩ F live flying minutes) :
    ∃ s', step ⟨ro, .sent n batch false, given⟩ .finish = some s' ∧
      ∃ live' flying', Keeping s' F live' flying' minutes := by
  have hbatch : batch = flying.map some := h.inFlight
  rcases eq_or_ne flying [] with rfl | hne
  · have hreject : ro.buffer.reject batch = some ro.buffer := by rw [hbatch]; rfl
    exact ⟨_, step_of_rel (.reject hreject), live, [], h.of_perm h.ring rfl
      (fun hne => absurd rfl hne) rfl rfl (List.Perm.refl _)⟩
  · obtain ⟨_, k, hring₀, hbatch₀, htaken⟩ := h.restore hne
    obtain ⟨b, hreject, hring, heff⟩ := Buffer.reject_batch hring₀ hbatch₀ htaken
    rw [← hbatch] at hreject
    refine ⟨_, step_of_rel (.reject hreject), live ++ flying.reverse, [], h.of_perm hring rfl
      (fun hne => absurd rfl hne) rfl rfl ?_⟩
    rw [located, located, heff.accepted, heff.rejected,
      append_nil, append_nil]
    refine List.Perm.append_right _ (List.Perm.append_right _ (List.Perm.append_right _ ?_))
    exact List.Perm.append_left live (reverse_perm flying)

end

end

variable {m : Handle 𝔽}

/-- A new metric goes to one of the places. -/
theorem Keeping.of_perm_snoc (h : Keeping s F live flying minutes)
    (hid : m.id = some i) (hnew : i ∉ s.given) (hring : s'.ro.buffer.Ring F' live')
    (hflying : WriteState.inFlight s'.pc = [])
    (hgiven : s'.given = s.given ++ [i]) (hagg : s'.ro.aggregating = s.ro.aggregating)
    (hperm : (s'.ro.located live' []).Perm (s.ro.located live flying ++ [m])) :
    Keeping s' F' live' [] minutes where
  ring := hring
  inFlight := hflying
  restore := fun hne => absurd rfl hne
  placed := fun j => by
    have hplaced := h.placed j
    have hcount := count_ids_of_perm hperm j
    have hids : ids (s.ro.located live flying ++ [m]) = ids (s.ro.located live flying) ++ [i] := by
      simp [ids, hid]
    rw [hids, count_append, count_singleton] at hcount
    rw [places, holds] at hplaced
    rw [places, holds, hagg, hcount, hgiven]
    by_cases hj : i = j
    · subst hj
      rw [if_neg hnew] at hplaced
      simp only [mem_append, mem_singleton, or_true, if_true, beq_self_eq_true]
      omega
    · have hj' : ¬j = i := fun h => hj h.symm
      simpa [hj, hj'] using hplaced
  joined := fun a ha x t hx => by
    obtain ⟨j, hj, hx, ht⟩ := h.joined a (hagg ▸ ha) x t hx
    exact ⟨j, hgiven ▸ mem_append_left _ hj, hx, ht⟩

variable [GoFloat 𝔽]

theorem holds_add (a : AzureMonitor 𝔽) (now : ℤ) (hid : m.id = some i)
    (j : ℕ) : (a.add now m).holds j ↔ a.holds j ∨ j = i ∧ a.Absorbs now m := by
  simp only [AzureMonitor.holds_iff, AzureMonitor.joined_add, hid, some.injEq, exists_or]
  simp

variable {ro : RunningOutput 𝔽} {given : List ℕ}

section

variable (h : Keeping ⟨ro, .idle, given⟩ F live flying minutes) (hid : m.id = some i)
  (hnew : i ∉ given) (now : ℤ)

include h hid hnew now

/-- `AddMetric` on an output that does not aggregate, or of a metric that is filtered. -/
theorem Keeping.addMetric_of_finalises
    (hnone : ro.filtered m.metric = none ∨ ro.aggregating = none) :
    ∃ s', step ⟨ro, .idle, given⟩ (.addMetric now m) = some s' ∧
      ∃ F' live' flying', Keeping s' F' live' flying' minutes := by
  have hflying : flying = [] := map_eq_nil_iff.1 h.inFlight.symm
  have hgiven : given ++ m.id.toList = given ++ [i] := by rw [hid]; rfl
  cases hpass : ro.passed m with
  | none =>
    refine ⟨_, step_of_rel (.addMetric (addMetric_of_filtered hpass now)), F, live,
      [], h.of_perm_snoc hid hnew h.ring rfl hgiven rfl ?_⟩
    rw [hflying]
    exact List.Perm.of_eq (append_assoc _ _ _).symm
  | some =>
    obtain ⟨m₁, hm₁, rfl⟩ := map_eq_some_iff.1 hpass
    have hagg : ro.aggregating = none := hnone.resolve_left (by rw [hm₁]; simp)
    obtain ⟨b, F', hadd, hring, heff, -⟩ :=
      Buffer.addMetrics_spec h.ring [{ m with metric := ro.rename m₁ }]
    refine ⟨_, step_of_rel (.addMetric ((addMetric_of_passed hpass hagg now).trans
      (bufferMetric_of hadd))), F', _, [],
      h.of_perm_snoc (m := { m with metric := ro.rename m₁ }) hid hnew hring rfl hgiven rfl ?_⟩
    rw [hflying]
    exact perm_located_add heff rfl

/-- `AddMetric` on an output that aggregates : the metric is accounted for if and only if the
aggregator uses it. -/
theorem Keeping.addMetric_of_aggregating {m₁ : Metric 𝔽} {a : AzureMonitor 𝔽}
    (hpass : ro.filtered m.metric = some m₁) (hagg : ro.aggregating = some a) :
    ∃ s', step ⟨ro, .idle, given⟩ (.addMetric now m) = some s' ∧
      (a.Absorbs now { m with metric := m₁ } → ∃ minutes', Keeping s' F live flying minutes') ∧
      (Owned s' → a.Absorbs now { m with metric := m₁ }) := by
  have hgiven : given ++ m.id.toList = given ++ [i] := by rw [hid]; rfl
  have hzero : (ids (ro.located live flying)).count i = 0 ∧ ro.holds i = false := by
    have hplaced : ro.places live flying i = if i ∈ given then 1 else 0 := h.placed i
    rw [if_neg hnew, places] at hplaced
    exact ⟨by omega, by simpa using Nat.eq_zero_of_add_eq_zero_left hplaced⟩
  have hholds := holds_add a now (m := { m with metric := m₁ }) hid
  refine ⟨_, step_of_rel (.addMetric (RunningOutput.addMetric_of_aggregating hpass hagg now)),
    fun habs => ⟨fun j => if j = i then a.tbucketOf { m with metric := m₁ } else minutes j, ?_⟩,
    fun howned => ?_⟩
  · constructor
    · exact h.ring
    · exact h.inFlight
    · exact h.restore
    · intro j
      have hplaced : ro.places live flying j = if j ∈ given then 1 else 0 := h.placed j
      rw [places, holds, hagg] at hplaced
      change (ids (ro.located live flying)).count j +
        ((a.add now { m with metric := m₁ }).holds j).toNat =
          if j ∈ given ++ m.id.toList then 1 else 0
      rw [hgiven]
      by_cases hj : j = i
      · subst hj
        simp [hzero.1, (hholds j).2 (.inr ⟨rfl, habs⟩)]
      · have hsame : (a.add now { m with metric := m₁ }).holds j = a.holds j :=
          Bool.eq_iff_iff.2 (by simp [hholds, hj])
        simpa [hsame, hj] using hplaced
    · intro _ ha' x t hx
      cases ha'
      change ∃ j ∈ given ++ m.id.toList, _
      rw [hgiven]
      rcases (a.joined_add now { m with metric := m₁ } x t).1 hx with hx | ⟨⟨hx, ht⟩, -⟩
      · obtain ⟨j, hj, hxj, htj⟩ := h.joined a hagg x t hx
        have hne : j ≠ i := fun hji => hnew (hji ▸ hj)
        exact ⟨j, mem_append_left _ hj, hxj, by rw [if_neg hne]; exact htj⟩
      · exact ⟨i, mem_append_right _ mem_cons_self, hx.trans hid, by rw [if_pos rfl, ht]⟩
  · have hplaced := (owned_iff (s := ⟨{ ro with
      aggregating := some (a.add now { m with metric := m₁ }) }, .idle, given ++ m.id.toList⟩)
      h.ring h.inFlight).1 howned i (by simp [hid])
    have hadd : (ids (ro.located live flying)).count i +
        ((a.add now { m with metric := m₁ }).holds i).toNat = 1 := hplaced
    rw [hzero.1, Nat.zero_add, Bool.toNat_eq_one] at hadd
    have hnot := hzero.2
    rw [holds, hagg] at hnot
    rcases (hholds i).1 hadd with hold | ⟨-, habs⟩
    · exact absurd hold (by simpa using hnot)
    · exact habs

end

omit [GoFloat 𝔽] in
/-- The metrics that `Push` makes were not given to the output. -/
theorem ids_pushed (ro : RunningOutput 𝔽) (nowPush : TimeBucket → ℤ) :
    ids (ro.pushed nowPush) = [] := by
  rw [pushed]
  split
  · rfl
  · simp [ids, AzureMonitor.push]

omit [GoFloat 𝔽] in
theorem holds_reset {ro ro' : RunningOutput 𝔽} {nowReset : TimeBucket → ℤ × ℤ}
    (hagg : ro'.aggregating = ro.aggregating.map fun a => a.reset nowReset) (i : ℕ) :
    ro'.holds i ↔ ∃ a ∈ ro.aggregating, ∃ t, Joined a.cache (some i) t ∧ Stays nowReset t := by
  rw [holds, hagg]
  cases ro.aggregating with
  | none => simp
  | some => simp [AzureMonitor.holds_iff, AzureMonitor.joined_reset]

omit [GoFloat 𝔽] in
theorem holds_iff_joined (ro : RunningOutput 𝔽) (i : ℕ) :
    ro.holds i ↔ ∃ a ∈ ro.aggregating, ∃ t, Joined a.cache (some i) t := by
  rw [holds]
  cases ro.aggregating with
  | none => simp
  | some => simp [AzureMonitor.holds_iff]

/-- The beginning of `Write` : the metrics in the aggregator are accounted for if and only if
their minutes are left alone. -/
theorem Keeping.write (h : Keeping ⟨ro, .idle, given⟩ F live flying minutes)
    (nowPush : TimeBucket → ℤ) (nowReset : TimeBucket → ℤ × ℤ) :
    ∃ s', step ⟨ro, .idle, given⟩ (.write nowPush nowReset) = some s' ∧
      (Finalising ⟨ro, .idle, given⟩ (.write nowPush nowReset) →
        ∃ F' live', Keeping s' F' live' flying minutes) ∧
      (Owned s' → Finalising ⟨ro, .idle, given⟩ (.write nowPush nowReset)) := by
  obtain ⟨ro', F', hpush, hring, heff, -, hdropped, hagg⟩ :=
    pushAggregates_spec h.ring nowPush nowReset
  have hflying : flying = [] := map_eq_nil_iff.1 h.inFlight.symm
  have hcount : ∀ i, (ids (ro'.located ((live ++ ro.pushed nowPush).rtake ro.buffer.cap)
      flying)).count i = (ids (ro.located live flying)).count i := by
    intro i
    rw [count_ids_of_perm (perm_located_add heff hdropped), ids,
      filterMap_append, count_append]
    exact Nat.add_eq_left.2 (by rw [← ids, ids_pushed]; rfl)
  refine ⟨_, step_of_rel (.write hpush), fun hfin => ⟨F', _, hring, ?_, ?_, ?_, ?_⟩,
    fun howned a ha e he hmem => ?_⟩
  · rw [hflying]; rfl
  · exact fun hne => absurd hflying hne
  · intro i
    have hholds : ro'.holds i = ro.holds i := by
      refine Bool.eq_iff_iff.2 ?_
      rw [holds_reset hagg, holds_iff_joined]
      refine exists_congr fun a => and_congr_right fun ha => exists_congr fun t =>
        and_iff_left_of_imp ?_
      rintro ⟨e, he, rfl, hx⟩
      exact hfin a ha e he (ne_nil_of_mem hx)
    change (ids (ro'.located _ flying)).count i + (ro'.holds i).toNat = _
    rw [hcount, hholds]
    exact h.placed i
  · intro a' ha' x t hx
    rw [hagg] at ha'
    obtain ⟨a, ha, rfl⟩ := map_eq_some_iff.1 ha'
    exact h.joined a ha x t ((a.joined_reset nowReset x t).1 hx).1
  · -- a metric of a minute that is reset is nowhere
    obtain ⟨x, hx⟩ := exists_mem_of_ne_nil _ hmem
    obtain ⟨i, hi, rfl, ht⟩ := h.joined a ha x e.tbucket ⟨e, he, rfl, hx⟩
    have hplaced : ro.places live flying i = if i ∈ given then 1 else 0 := h.placed i
    have hheld : ro.holds i = true := (holds_iff_joined ro i).2 ⟨a, ha, _, e, he, rfl, hx⟩
    rw [if_pos hi, places, hheld] at hplaced
    have hidle : WriteState.inFlight (.pushed : WritePC 𝔽) = flying.map some := by
      rw [hflying]
      rfl
    have hafter := (owned_iff (s := ⟨ro', .pushed, given⟩) hring hidle).1 howned i hi
    rw [places, hcount] at hafter
    have hheld' : ro'.holds i = true := by
      by_contra hno
      simp only [Bool.not_eq_true] at hno
      rw [hno] at hafter
      simp at hplaced hafter
      omega
    obtain ⟨a', ha', t, hjoined, hstays⟩ := (holds_reset hagg i).1 hheld'
    obtain ⟨j, -, hij, htj⟩ := h.joined a' ha' _ t hjoined
    rwa [htj, ← some.inj hij, ← ht] at hstays

section

variable (h : Keeping s F live flying minutes) {e : WriteEvent 𝔽} (hseq : Sequential s e)

include h hseq

/-- A step of a sequence of calls keeps the invariant if it is a finalising one. -/
theorem Keeping.step (hfin : Finalising s e) :
    ∃ s', s.step e = some s' ∧ ∃ F live flying minutes, Keeping s' F live flying minutes := by
  obtain ⟨ro, pc, _⟩ := s
  cases e with
  | addMetric now m =>
    obtain ⟨rfl, i, hid, hnew⟩ := hseq
    by_cases hnone : ro.filtered m.metric = none ∨ ro.aggregating = none
    · obtain ⟨s', hstep, F', live', flying', h'⟩ := h.addMetric_of_finalises hid hnew now hnone
      exact ⟨s', hstep, F', live', flying', minutes, h'⟩
    · rw [not_or] at hnone
      obtain ⟨m₁, hm₁⟩ := ne_none_iff_exists'.1 hnone.1
      obtain ⟨a, ha⟩ := ne_none_iff_exists'.1 hnone.2
      obtain ⟨s', hstep, hkeep, -⟩ := h.addMetric_of_aggregating hid hnew now hm₁ ha
      obtain ⟨minutes', h'⟩ := hkeep (hfin m₁ hm₁ a ha)
      exact ⟨s', hstep, F, live, flying, minutes', h'⟩
  | write nowPush nowReset =>
    obtain rfl : pc = .idle := hseq
    obtain ⟨s', hstep, hkeep, -⟩ := h.write nowPush nowReset
    obtain ⟨F', live', h'⟩ := hkeep hfin
    exact ⟨s', hstep, F', live', flying, minutes, h'⟩
  | writeBatch | resetCount | len =>
    obtain rfl : pc = _ := hseq
    exact ⟨_, rfl, F, live, flying, minutes,
      h.of_perm h.ring h.inFlight h.restore rfl rfl (List.Perm.refl _)⟩
  | batch =>
    obtain ⟨n, rfl⟩ : ∃ n, pc = .looping (n + 1) := hseq
    obtain ⟨s', hstep, live', flying', h'⟩ := h.batch
    exact ⟨s', hstep, F, live', flying', minutes, h'⟩
  | outputWrite =>
    obtain ⟨n, batch, rfl⟩ : ∃ n batch, pc = .sending n batch := hseq
    exact ⟨_, rfl, F, live, flying, minutes,
      h.of_perm h.ring h.inFlight h.restore rfl rfl (List.Perm.refl _)⟩
  | finish =>
    obtain ⟨n, batch, ok, rfl⟩ : ∃ n batch ok, pc = .sent n batch ok := hseq
    cases ok with
    | true =>
      obtain ⟨s', hstep, live', flying', h'⟩ := h.accept
      exact ⟨s', hstep, F, live', flying', minutes, h'⟩
    | false =>
      obtain ⟨s', hstep, live', flying', h'⟩ := h.reject
      exact ⟨s', hstep, F, live', flying', minutes, h'⟩

/-- A step that is not a finalising one loses a metric. -/
theorem Keeping.finalising_of_owned (hstep : s.step e = some s') (howned : Owned s') :
    Finalising s e := by
  obtain ⟨_, pc, _⟩ := s
  cases e with
  | addMetric now =>
    obtain ⟨rfl, i, hid, hnew⟩ := hseq
    intro _ hm₁ a ha
    obtain ⟨s₁, hstep₁, -, hlost⟩ := h.addMetric_of_aggregating hid hnew now hm₁ ha
    obtain rfl := some.inj (hstep₁.symm.trans hstep)
    exact hlost howned
  | write nowPush nowReset =>
    obtain rfl : pc = .idle := hseq
    obtain ⟨s₁, hstep₁, -, hlost⟩ := h.write nowPush nowReset
    obtain rfl := some.inj (hstep₁.symm.trans hstep)
    exact hlost howned
  | writeBatch | resetCount | len | batch | outputWrite | finish => trivial

end

end Steps

/-- An aggregator that has not seen a metric. -/
def newAzureMonitor (tbucketOf : Handle 𝔽 → TimeBucket) (stringsAsDimensions : Bool) :
    AzureMonitor 𝔽 :=
  ⟨stringsAsDimensions, tbucketOf, [], 0⟩

/-- An output before its first call. -/
def new (tbucketOf : Handle 𝔽 → TimeBucket) (stringsAsDimensions : Option Bool)
    (config : OutputConfig) (batchSize bufferLimit : ℕ) : WriteState 𝔽 :=
  ⟨newRunningOutput (stringsAsDimensions.map (newAzureMonitor tbucketOf)) config batchSize
    bufferLimit, .idle, []⟩

variable (tbucketOf : Handle 𝔽 → TimeBucket)

theorem keeping_new (stringsAsDimensions : Option Bool) (config : OutputConfig)
    (batchSize bufferLimit : ℕ) :
    Keeping (new tbucketOf stringsAsDimensions config batchSize bufferLimit) 0 [] []
      fun _ => ⟨0, 0⟩ where
  ring := (settled_newRunningOutput _ config batchSize bufferLimit).ring
  inFlight := rfl
  restore := fun hne => absurd rfl hne
  placed := fun i => by
    cases stringsAsDimensions <;> rfl
  joined := fun a ha x t hx => by
    obtain ⟨b, -, rfl⟩ := map_eq_some_iff.1 ha
    obtain ⟨e, he, -⟩ := hx
    exact absurd he not_mem_nil

/-- In a sequence of calls, looked at after every step, each metric given to the output is in
exactly one place if and only if the aggregator uses every metric it is given and never
resets a minute that metrics have joined. -/
theorem owned_iff_finalising [GoFloat 𝔽] (stringsAsDimensions : Option Bool)
    (config : OutputConfig) (batchSize bufferLimit : ℕ) (es : List (WriteEvent 𝔽))
    (hseq : AllSteps step Sequential
      (new tbucketOf stringsAsDimensions config batchSize bufferLimit) es) :
    (∀ pre, pre <+: es → ∃ s, run step
        (new tbucketOf stringsAsDimensions config batchSize bufferLimit) pre = some s ∧ Owned s) ↔
      AllSteps step Finalising
        (new tbucketOf stringsAsDimensions config batchSize bufferLimit) es :=
  always_iff_allSteps
    (P := fun _ s => ∃ F live flying minutes, Keeping s F live flying minutes)
    (fun _ _ ⟨_, _, _, _, h⟩ => h.owned)
    (fun _ _ _ ⟨_, _, _, _, h⟩ hseq hfin => h.step hseq hfin)
    (fun _ _ _ _ ⟨_, _, _, _, h⟩ hseq hno hstep howned =>
      hno (h.finalising_of_owned hseq hstep howned))
    es [] _ ⟨0, [], [], _,
      keeping_new tbucketOf stringsAsDimensions config batchSize bufferLimit⟩ hseq

/-- The first minute's aggregate is pushed and reset two minutes later. -/
theorem pushed_metric_lost :
    ∃ s : WriteState ℤ, run step (new utcMinute (some false) (plain 1 10) 0 0)
        [.addMetric 0 (Handle.counter 0), .write (fun _ => 2 * AzureMonitor.minute)
          (fun _ => (2 * AzureMonitor.minute, 2 * AzureMonitor.minute))] = some s ∧
      s.given = [0] ∧ s.ro.places s.ro.buffer.contents.reduceOption
        (inFlight s.pc).reduceOption 0 = 0 ∧ ¬Owned s := by
  refine ⟨_, rfl, rfl, by decide, fun howned => ?_⟩
  exact absurd (howned 0 (by decide)) (by decide)

/-- A metric of a minute that is not over stays in the aggregator. -/
theorem owned_of_current_minute :
    AllSteps step Sequential (new (𝔽 := ℤ) utcMinute (some false) (plain 1 10) 0 0)
        [.addMetric 0 (Handle.counter 0), .write (fun _ => 0) (fun _ => (0, 0))] ∧
      ∀ pre, pre <+: [.addMetric 0 (Handle.counter 0), .write (fun _ => 0) (fun _ => (0, 0))] →
        ∃ s, run step (new utcMinute (some false) (plain 1 10) 0 0) pre = some s ∧
          Owned s := by
  refine (and_iff_left_of_imp fun hseq =>
    (owned_iff_finalising utcMinute (some false) (plain 1 10) 0 0 _ hseq).2 ?_).2 ?_
  · refine ⟨fun m hm a ha => ?_, fun s hs => ?_⟩
    · cases hm
      cases ha
      decide
    · cases hs
      refine ⟨fun a ha e he _ => ?_, fun _ _ => trivial⟩
      cases ha
      obtain rfl := mem_singleton.1 he
      decide
  · refine ⟨⟨rfl, 0, rfl, by decide⟩, fun s hs => ?_⟩
    cases hs
    exact ⟨rfl, fun _ _ => trivial⟩

end WriteState

end Telegraf
