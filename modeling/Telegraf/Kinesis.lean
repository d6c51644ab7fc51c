import Telegraf.Metric

/-!
# The Kinesis output

`Write` (`plugins/outputs/kinesis`) counts every metric, and compares the count with the limit of
`PutRecords` only after a metric that was serialized. So a batch goes on where the metric with the
number of the limit fails. The calls keep to the limit exactly if every batch has at most 500
records and, if there are metrics in it, at least one (`keepsLimit_iff`) : as long as the counter
does not wrap, exactly if the metrics behind the last cut have.
-/

open List

namespace Telegraf.Kinesis

variable {𝔽 : Type}

structure PutRecordsRequestEntry where
  data : GoString
  partitionKey : GoString

structure KinesisOutput (𝔽 : Type) where
  serialize : Metric 𝔽 → Except GoString GoString
  getPartitionKey : Metric 𝔽 → GoString

namespace KinesisOutput

variable (k : KinesisOutput 𝔽)

/-- The record of a metric. -/
def entry (metric : Metric 𝔽) : Option PutRecordsRequestEntry :=
  match k.serialize metric with
  | .error _ => none
  | .ok values => some ⟨values, k.getPartitionKey metric⟩

/-- The loop of `Write` : the records of each call of `writekinesis`. -/
def writeLoop : UInt32 → List PutRecordsRequestEntry → List (Metric 𝔽) →
    List (List PutRecordsRequestEntry)
  | sz, r, [] => if sz > 0 then [r] else []
  | sz, r, metric :: metrics =>
    match k.entry metric with
    | none => writeLoop (sz + 1) r metrics
    | some d =>
      if sz + 1 = 500 then (r ++ [d]) :: writeLoop 0 [] metrics
      else writeLoop (sz + 1) (r ++ [d]) metrics

def write (metrics : List (Metric 𝔽)) : List (List PutRecordsRequestEntry) :=
  if metrics = [] then [] else k.writeLoop 0 [] metrics

/-- The calls carry the records in order, each 1 to 500 of them. -/
def KeepsLimit (records : List PutRecordsRequestEntry)
    (calls : List (List PutRecordsRequestEntry)) : Prop :=
  calls.flatten = records ∧ ∀ r ∈ calls, 1 ≤ r.length ∧ r.length ≤ 500

/-- The metrics, cut behind each one that is serialized and has the number 500 as a `uint32`. -/
def batches : List (Metric 𝔽) → List (Metric 𝔽) → List (List (Metric 𝔽))
  | batch, [] => [batch]
  | batch, metric :: metrics =>
    if (batch.length + 1) % 2 ^ 32 = 500 ∧ (k.entry metric).isSome then
      (batch ++ [metric]) :: batches [] metrics
    else batches (batch ++ [metric]) metrics

/-- A batch fits into a call, and is empty where the loop makes none. -/
def Fits (batch : List (Metric 𝔽)) : Prop :=
  (batch.filterMap k.entry).length ≤ 500 ∧
    (batch.filterMap k.entry = [] ↔ batch.length % 2 ^ 32 = 0)

variable {k}

theorem keepsLimit_cons {r records : List PutRecordsRequestEntry}
    {calls : List (List PutRecordsRequestEntry)} :
    KeepsLimit (r ++ records) (r :: calls) ↔
      (1 ≤ r.length ∧ r.length ≤ 500) ∧ KeepsLimit records calls := by
  rw [KeepsLimit, KeepsLimit, flatten_cons, append_cancel_left_eq, forall_mem_cons, and_left_comm]

theorem keepsLimit_writeLoop : ∀ {sz : UInt32} (batch metrics : List (Metric 𝔽)),
    sz.toNat = batch.length % 2 ^ 32 →
    (KeepsLimit ((batch ++ metrics).filterMap k.entry)
      (k.writeLoop sz (batch.filterMap k.entry) metrics) ↔
        ∀ b ∈ k.batches batch metrics, k.Fits b)
  | sz, batch, [], hsz => by
    have hpos : sz > 0 ↔ batch.length % 2 ^ 32 ≠ 0 := by
      rw [← hsz]
      exact Nat.pos_iff_ne_zero
    rw [append_nil, writeLoop, batches, forall_mem_singleton, Fits]
    by_cases hzero : batch.length % 2 ^ 32 = 0
    · rw [if_neg fun h => hpos.1 h hzero]
      refine ⟨fun h => ?_, fun h => ⟨(h.2.2 hzero).symm, nofun⟩⟩
      rw [← h.1]
      exact ⟨Nat.zero_le _, iff_of_true rfl hzero⟩
    · rw [if_pos (hpos.2 hzero), eq_false hzero]
      simp [KeepsLimit, Nat.one_le_iff_ne_zero, and_comm]
  | sz, batch, metric :: metrics, hsz => by
    have hnext : (sz + 1).toNat = (batch ++ [metric]).length % 2 ^ 32 := by
      rw [UInt32.toNat_add, hsz, length_append]
      exact Nat.mod_add_mod _ _ _
    have hfull : sz + 1 = 500 ↔ (batch.length + 1) % 2 ^ 32 = 500 := by
      rw [← UInt32.toNat_inj, hnext, length_append]
      rfl
    rw [append_cons]
    cases hentry : k.entry metric with
    | none =>
      have hsame : (batch ++ [metric]).filterMap k.entry = batch.filterMap k.entry := by
        simp [hentry]
      rw [writeLoop, batches, hentry, if_neg (by simp), ← hsame]
      exact keepsLimit_writeLoop _ metrics hnext
    | some d =>
      have hmore : (batch ++ [metric]).filterMap k.entry = batch.filterMap k.entry ++ [d] := by
        simp [hentry]
      rw [writeLoop, batches, hentry]
      dsimp only
      rw [← hmore]
      by_cases h : sz + 1 = 500
      · rw [if_pos h, if_pos ⟨hfull.1 h, rfl⟩, filterMap_append, keepsLimit_cons,
          forall_mem_cons]
        refine and_congr ?_ (keepsLimit_writeLoop [] metrics rfl)
        rw [Fits, length_append, length_singleton, hfull.1 h, hmore]
        simp
      · rw [if_neg h, if_neg fun hand => h (hfull.2 hand.1)]
        exact keepsLimit_writeLoop _ metrics hnext

/-! ## Fewer than 2 ^ 32 metrics -/

/-- The metric before a multiple of 500 is serialized. -/
def SerializedAt (k : KinesisOutput 𝔽) (metrics : List (Metric 𝔽)) (i : ℕ) : Prop :=
  ((metrics[500 * i + 499]?).bind k.entry).isSome = true

/-- Behind the multiples of 500 up to the first at which no metric is serialized there are 1 to 500
records, or no metrics. -/
def LastFits (k : KinesisOutput 𝔽) (metrics : List (Metric 𝔽)) : Prop :=
  ∀ c, (∀ i < c, k.SerializedAt metrics i) → ¬k.SerializedAt metrics c →
    ((metrics.drop (500 * c)).filterMap k.entry).length ≤ 500 ∧
      ((metrics.drop (500 * c)).filterMap k.entry = [] ↔ metrics.drop (500 * c) = [])

/-- Once the number 500 is passed, there is no cut any more. -/
theorem batches_of_ge : ∀ (metrics batch : List (Metric 𝔽)), 500 ≤ batch.length →
    (batch ++ metrics).length < 2 ^ 32 → k.batches batch metrics = [batch ++ metrics]
  | [], batch, _, _ => by rw [batches, append_nil]
  | metric :: metrics, batch, hge, hlt => by
    rw [append_cons] at hlt ⊢
    have hle : (batch ++ [metric]).length ≤ (batch ++ [metric] ++ metrics).length := by simp
    rw [batches, if_neg, batches_of_ge metrics _ (by simp; omega) hlt]
    rintro ⟨hmod, -⟩
    rw [length_append, length_singleton] at hle
    rw [Nat.mod_eq_of_lt (by omega)] at hmod
    omega

/-- Before, the next cut is behind the number 500, if its metric is serialized. -/
theorem batches_of_lt : ∀ (metrics batch : List (Metric 𝔽)), batch.length < 500 →
    (batch ++ metrics).length < 2 ^ 32 →
    k.batches batch metrics = if ((metrics[499 - batch.length]?).bind k.entry).isSome then
      (batch ++ metrics.take (500 - batch.length)) ::
        k.batches [] (metrics.drop (500 - batch.length)) else [batch ++ metrics]
  | [], batch, _, _ => by simp [batches]
  | metric :: metrics, batch, h500, hlt => by
    have hmod : (batch.length + 1) % 2 ^ 32 = batch.length + 1 := Nat.mod_eq_of_lt (by omega)
    rw [batches, hmod]
    by_cases hlast : batch.length = 499
    · by_cases hentry : (k.entry metric).isSome = true
      · simp [hlast, hentry]
      · rw [append_cons] at hlt
        rw [if_neg fun h => hentry h.2, batches_of_ge _ _ (by simp; omega) hlt]
        simp [hlast, hentry]
    · rw [append_cons] at hlt
      rw [if_neg fun h => hlast (by omega), batches_of_lt _ _ (by simp; omega) hlt,
        length_append, length_singleton, show 499 - batch.length = 499 - (batch.length + 1) + 1 by
          omega, show 500 - batch.length = 500 - (batch.length + 1) + 1 by omega]
      simp

theorem forall_batches_iff (metrics : List (Metric 𝔽)) (hlt : metrics.length < 2 ^ 32) :
    (∀ batch ∈ k.batches [] metrics, k.Fits batch) ↔ k.LastFits metrics := by
  have hfits : ∀ l : List (Metric 𝔽), l.length < 2 ^ 32 →
      (k.Fits l ↔ (l.filterMap k.entry).length ≤ 500 ∧ (l.filterMap k.entry = [] ↔ l = [])) := by
    intro l hl
    rw [Fits, Nat.mod_eq_of_lt hl, length_eq_zero_iff]
  have hbatches := batches_of_lt (k := k) metrics [] (Nat.succ_pos 499) hlt
  rw [length_nil, Nat.sub_zero, Nat.sub_zero, nil_append, nil_append] at hbatches
  by_cases hentry : ((metrics[499]?).bind k.entry).isSome = true
  · have hzero : k.SerializedAt metrics 0 := hentry
    obtain ⟨metric, hmetric⟩ := Option.isSome_iff_exists.1 (Option.isSome_of_isSome_bind hentry)
    have hlen : 499 < metrics.length := (List.getElem?_eq_some_iff.1 hmetric).1
    have hdrop : (metrics.drop 500).length < metrics.length := by
      rw [length_drop]
      omega
    have hnext : ∀ i, k.SerializedAt (metrics.drop 500) i ↔ k.SerializedAt metrics (i + 1) := by
      intro i
      rw [SerializedAt, SerializedAt, getElem?_drop,
        show 500 + (500 * i + 499) = 500 * (i + 1) + 499 by omega]
    -- the first batch is full, and its last metric is serialized
    have hfirst : k.Fits (metrics.take 500) := by
      refine (hfits _ (by rw [length_take]; omega)).2
        ⟨?_, iff_of_false (fun hnil => ?_) fun hnil => ?_⟩
      · exact (length_filterMap_le _ _).trans (by simp)
      · rw [hmetric, Option.bind_some] at hentry
        rw [filterMap_eq_nil_iff.1 hnil metric
          (mem_of_getElem? (i := 499) (by rwa [getElem?_take_of_lt (by decide)]))] at hentry
        cases hentry
      · have hzero := congrArg length hnil
        rw [length_take, length_nil] at hzero
        omega
    rw [hbatches, if_pos hentry, forall_mem_cons, and_iff_right hfirst,
      forall_batches_iff (metrics.drop 500) (hdrop.trans hlt)]
    simp only [LastFits, hnext, drop_drop]
    constructor
    · rintro h (_ | c) hbefore hnot
      · exact absurd hzero hnot
      · have hc := h c (fun i hi => hbefore (i + 1) (by omega)) hnot
        rwa [show 500 + 500 * c = 500 * (c + 1) by omega] at hc
    · intro h c hbefore hnot
      rw [show 500 + 500 * c = 500 * (c + 1) by omega]
      refine h (c + 1) ?_ hnot
      rintro (_ | i) hi
      · exact hzero
      · exact hbefore i (by omega)
  · have hzero : ¬k.SerializedAt metrics 0 := hentry
    rw [hbatches, if_neg hentry, forall_mem_singleton, hfits metrics hlt]
    refine ⟨?_, fun h => h 0 (fun _ hi => absurd hi (Nat.not_lt_zero _)) hzero⟩
    rintro h (_ | c) hbefore -
    · exact h
    · exact absurd (hbefore 0 (Nat.succ_pos c)) hzero
termination_by metrics.length

/-- The calls keep to the limit if and only if every batch fits. For fewer than `2 ^ 32` metrics,
this is a matter of the last one. -/
theorem keepsLimit_iff (k : KinesisOutput 𝔽) (metrics : List (Metric 𝔽)) :
    (KeepsLimit (metrics.filterMap k.entry) (k.write metrics) ↔
      ∀ batch ∈ k.batches [] metrics, k.Fits batch) ∧
    (metrics.length < 2 ^ 32 →
      (KeepsLimit (metrics.filterMap k.entry) (k.write metrics) ↔ k.LastFits metrics)) := by
  have hwrite : k.write metrics = k.writeLoop 0 [] metrics := by
    unfold write
    split_ifs with hnil
    · rw [hnil]
      rfl
    · rfl
  have hiff : KeepsLimit (metrics.filterMap k.entry) (k.write metrics) ↔
      ∀ batch ∈ k.batches [] metrics, k.Fits batch := by
    rw [hwrite]
    exact keepsLimit_writeLoop [] metrics rfl
  exact ⟨hiff, fun hlt => hiff.trans (forall_batches_iff metrics hlt)⟩

/-- Where the 500th metric fails, all metrics are in one call. A metric that fails is, alone, a call
without records. -/
theorem limit_not_kept : ∃ (k : KinesisOutput Unit) (good bad : Metric Unit),
    (k.write (replicate 499 good ++ [bad, good, good])).map length = [501] ∧
      k.write [bad] = [[]] :=
  ⟨⟨fun m => if m.name = [] then .error [] else .ok [], fun _ => []⟩, .empty [97] 0 .untyped,
    .empty [] 0 .untyped, by decide +kernel, rfl⟩

end KinesisOutput

end Telegraf.Kinesis
