import Telegraf.InfluxLines
import Telegraf.InfluxRoundTrip

/-!
# The line protocol reader

`reader` (`plugins/serializers/influx/reader.go`) gives out the lines of a list of metrics through
`Read`, one metric at a time and as many bytes as the caller asks for. A metric with an error is
skipped and what was written of it is dropped, where `SerializeBatch` keeps it.

`readAll_newReader` : the bytes that are read up to `io.EOF` are those of the metrics without an
error, whatever the sizes of the reads are. `reads_agree_iff` : they are the bytes of
`SerializeBatch` exactly if no metric fails at a later pair than the first one.
`arrives_setMetrics` : they are what the parser reads.
-/

open List

namespace Telegraf.Influx

variable {𝔽 : Type}

/-- `reader` : an `io.Reader` for line protocol. -/
structure LineReader (𝔽 : Type) where
  metrics : List (Metric 𝔽)
  serializer : Serializer
  offset : ℕ
  buf : GoString

/-- The error of `Read`. -/
inductive ReadError where
  | eof
deriving Repr, DecidableEq

/-- What a call of `Read` returns. -/
structure ReadResult (𝔽 : Type) where
  reader : LineReader 𝔽
  out : GoString
  err : Option ReadError

/-- `NewReader`. A buffer cannot be made with a negative capacity. -/
def newReader (metrics : List (Metric 𝔽)) (serializer : Serializer) : Option (LineReader 𝔽) :=
  if serializer.maxLineBytes < 0 then none else some ⟨metrics, serializer, 0, []⟩

namespace LineReader

variable (F : FloatFormat 𝔽)

/-- `SetMetrics`. -/
def setMetrics (r : LineReader 𝔽) (metrics : List (Metric 𝔽)) : LineReader 𝔽 :=
  { r with metrics := metrics, offset := 0, buf := [] }

/-- `bytes.Buffer.Read` on the buffer, with room for `n` bytes. -/
def readBuf (r : LineReader 𝔽) (n : ℕ) : ReadResult 𝔽 :=
  if r.buf = [] then ⟨r, [], if n = 0 then none else some .eof⟩
  else ⟨{ r with buf := r.buf.drop n }, r.buf.take n, none⟩

/-- The loop of `Read` : metrics are skipped up to one without an error. -/
def fill : List (Metric 𝔽) → LineReader 𝔽 → LineReader 𝔽
  | [], r => r
  | m :: ms, r =>
    match r.serializer.writeMetric F m with
    | (_, some _) => fill ms { r with offset := r.offset + 1, buf := [] }
    | (written, none) =>
      { r with offset := r.offset + 1, buf := r.buf ++ written.flatMap Chunk.bytes }

/-- `Read` with room for `n` bytes. -/
def read (r : LineReader 𝔽) (n : ℕ) : ReadResult 𝔽 :=
  if 0 < r.buf.length then r.readBuf n
  else if r.metrics.length ≤ r.offset then ⟨r, [], some .eof⟩
  else (fill F (r.metrics.drop r.offset) r).readBuf n

/-- Calls of `Read` with room for `sizes 0`, `sizes 1`, … bytes up to `io.EOF` : all bytes that were
returned, or nothing if `fuel` calls are not enough. -/
def readAll : ℕ → (ℕ → ℕ) → LineReader 𝔽 → Option GoString
  | 0, _, _ => none
  | fuel + 1, sizes, r =>
    let result := r.read F (sizes 0)
    match result.err with
    | some .eof => some result.out
    | none => (readAll fuel (fun i => sizes (i + 1)) result.reader).map (result.out ++ ·)

end LineReader

namespace Serializer

variable (s : Serializer) (F : FloatFormat 𝔽)

/-- The bytes of a metric, none if it has an error. -/
def delivered (m : Metric 𝔽) : GoString :=
  match s.writeMetric F m with
  | (_, some _) => []
  | (written, none) => written.flatMap Chunk.bytes

/-- If the first pair of the metric fits on a line, all others do. -/
def FailsFirst (m : Metric 𝔽) : Prop :=
  ∀ header, buildHeader m = .ok header → ∀ p ps, s.pairs F m = p :: ps →
    s.Counted header (buildFooter m) [p] → ∀ q ∈ ps, s.Counted header (buildFooter m) [q]

variable {s F} {m : Metric 𝔽}

theorem delivered_of_some {e : MetricError} (h : (s.writeMetric F m).2 = some e) :
    s.delivered F m = [] := by
  rw [delivered]
  cases hw : s.writeMetric F m with
  | mk =>
    rw [hw] at h
    cases h
    rfl

theorem delivered_of_none (h : (s.writeMetric F m).2 = none) :
    s.delivered F m = (s.writeMetric F m).1.flatMap Chunk.bytes := by
  rw [delivered]
  cases hw : s.writeMetric F m with
  | mk =>
    rw [hw] at h
    cases h
    rfl

theorem lineText_ne_nil (header : GoString) (m : Metric 𝔽) (ps : List GoString) :
    lineText header (buildFooter m) ps ≠ [] := by
  have hspace : str " " ≠ [] := by decide
  simp [lineText, buildFooter, hspace]

/-- What was written of a metric has bytes if there is anything. -/
theorem bytes_eq_nil_iff :
    (s.writeMetric F m).1.flatMap Chunk.bytes = [] ↔ (s.writeMetric F m).1 = [] := by
  refine ⟨fun h => ?_, fun h => by rw [h]; rfl⟩
  cases hheader : buildHeader m with
  | error => simp [writeMetric, hheader]
  | ok header =>
    obtain ⟨⟨groups, hwritten, hcut⟩, -⟩ := exists_cut (s := s) (F := F) hheader
    rw [hwritten] at h ⊢
    cases groups with
    | nil => rfl
    | cons ps =>
      rw [flatMap_cons, flatMap_append,
        bytes_line_eq_lineText _ _ (hcut.ne_nil ps mem_cons_self), append_eq_nil_iff] at h
      exact absurd h.1 (lineText_ne_nil header m ps)

/-- A metric without an error has bytes. -/
theorem delivered_ne_nil (h : (s.writeMetric F m).2 = none) : s.delivered F m ≠ [] := by
  obtain ⟨header, hheader⟩ := exists_header_of_eq_none h
  have hsome := writeMetric_isSome_iff (s := s) (F := F) hheader
  rw [delivered_of_none h, Ne, bytes_eq_nil_iff, writeMetric_fst_eq_nil_iff hheader]
  intro hfirst
  cases hpairs : s.pairs F m with
  | nil => simp [h, hpairs] at hsome
  | cons p => simp [h, hpairs, hfirst p (by rw [hpairs]; rfl)] at hsome

/-- What is read of a metric is what `SerializeBatch` has of it exactly if the metric does not fail
after a first line. -/
theorem delivered_eq_iff :
    s.delivered F m = (s.writeMetric F m).1.flatMap Chunk.bytes ↔ s.FailsFirst F m := by
  cases herr : (s.writeMetric F m).2 with
  | none =>
    refine iff_of_true (delivered_of_none herr) fun header hheader p ps hpairs _ q hq => ?_
    by_contra hc
    have hsome := (writeMetric_isSome_iff hheader).2
      (.inr ⟨q, by rw [hpairs]; exact mem_cons_of_mem p hq, hc⟩)
    rw [herr] at hsome
    cases hsome
  | some e =>
    rw [delivered_of_some herr, eq_comm, bytes_eq_nil_iff]
    cases hheader : buildHeader m with
    | error => simp [writeMetric, FailsFirst, hheader]
    | ok header =>
      have hsome := (writeMetric_isSome_iff (s := s) (F := F) hheader).1 (by rw [herr]; rfl)
      rw [writeMetric_fst_eq_nil_iff hheader]
      constructor
      · intro hfirst _ hheader' p ps hpairs hc
        obtain rfl := Except.ok.inj (hheader.symm.trans hheader')
        exact absurd hc (hfirst p (by rw [hpairs]; rfl))
      · intro hall p hp hc
        obtain ⟨ps, hpairs⟩ := head?_eq_some_iff.1 hp
        rw [hpairs] at hsome
        obtain hnil | ⟨q, hq, hlong⟩ := hsome
        · cases hnil
        · rcases mem_cons.1 hq with rfl | hq
          · exact hlong hc
          · exact hlong (hall header hheader p ps hpairs hc q hq)

theorem flatMap_delivered (metrics : List (Metric 𝔽)) : metrics.flatMap (s.delivered F) =
    s.serializeBatch F (metrics.filter fun m => (s.writeMetric F m).2.isNone) := by
  induction metrics with
  | nil => rfl
  | cons m metrics ih =>
    rw [flatMap_cons, ih]
    cases herr : (s.writeMetric F m).2 with
    | none => simp [serializeBatch, herr, delivered_of_none herr]
    | some => simp [herr, delivered_of_some herr]

/-- The bytes of the metrics without an error are all bytes exactly if no metric fails after a first
line. -/
theorem flatMap_delivered_eq_iff : ∀ metrics : List (Metric 𝔽),
    metrics.flatMap (s.delivered F) = s.serializeBatch F metrics ↔
      ∀ m ∈ metrics, s.FailsFirst F m
  | [] => by simp [serializeBatch]
  | m :: metrics => by
    have hle : ∀ m, (s.delivered F m).length ≤
        ((s.writeMetric F m).1.flatMap Chunk.bytes).length := by
      intro m
      cases herr : (s.writeMetric F m).2 with
      | none => rw [delivered_of_none herr]
      | some => simp [delivered_of_some herr]
    have hle' : (metrics.flatMap (s.delivered F)).length ≤ (s.serializeBatch F metrics).length := by
      rw [serializeBatch, length_flatMap, length_flatMap]
      exact sum_le_sum fun m _ => hle m
    rw [forall_mem_cons, ← flatMap_delivered_eq_iff metrics, ← delivered_eq_iff,
      serializeBatch, flatMap_cons, flatMap_cons, ← serializeBatch]
    refine ⟨fun h => ?_, fun h => by rw [h.1, h.2]⟩
    have hlen := congrArg length h
    rw [length_append, length_append] at hlen
    exact append_inj h (by have := hle m; omega)

end Serializer

namespace LineReader

variable {F : FloatFormat 𝔽} {r : LineReader 𝔽}

/-- The bytes that have not been read. -/
def rest (F : FloatFormat 𝔽) (r : LineReader 𝔽) : GoString :=
  r.buf ++ (r.metrics.drop r.offset).flatMap (r.serializer.delivered F)

/-- The loop puts the first bytes that are left into the buffer. -/
theorem fill_spec : ∀ (ms : List (Metric 𝔽)) {r : LineReader 𝔽}, r.buf = [] →
    ms = r.metrics.drop r.offset →
    (fill F ms r).rest F = r.rest F ∧ ((fill F ms r).buf = [] → r.rest F = [])
  | [], r, hbuf, hms => ⟨rfl, fun _ => by rw [rest, ← hms, hbuf]; rfl⟩
  | m :: ms, r, hbuf, hms => by
    have hdrop : r.metrics.drop (r.offset + 1) = ms := by
      rw [← tail_drop, ← hms, tail_cons]
    rw [fill]
    cases hw : r.serializer.writeMetric F m with
    | mk written err =>
      have herr : (r.serializer.writeMetric F m).2 = err := congrArg Prod.snd hw
      cases err with
      | some =>
        have hrest : rest F { r with offset := r.offset + 1, buf := [] } = r.rest F := by
          rw [rest, rest, ← hms, flatMap_cons, Serializer.delivered_of_some herr, hbuf, hdrop]
          rfl
        rw [← hrest]
        exact fill_spec ms rfl hdrop.symm
      | none =>
        have hbytes := Serializer.delivered_of_none herr
        have hne := Serializer.delivered_ne_nil herr
        rw [hw] at hbytes
        rw [hbytes] at hne
        refine ⟨?_, fun hnil => absurd (append_eq_nil_iff.1 hnil).2 hne⟩
        rw [rest, rest, ← hms, flatMap_cons, hbytes, hbuf, hdrop]
        rfl

variable {n : ℕ}

theorem readBuf_of_ne_nil (hne : r.buf ≠ []) (hn : 0 < n) :
    (r.readBuf n).err = none ∧ (r.readBuf n).out ≠ [] ∧
      (r.readBuf n).out ++ (r.readBuf n).reader.rest F = r.rest F := by
  rw [readBuf, if_neg hne]
  refine ⟨rfl, ?_, ?_⟩
  · intro hnil
    rcases take_eq_nil_iff.1 hnil with h | h
    · omega
    · exact hne h
  · rw [rest, rest, ← append_assoc, take_append_drop]

/-- A call of `Read` returns some of the bytes that are left, or `io.EOF` if there are none. -/
theorem read_spec (r : LineReader 𝔽) (hn : 0 < n) :
    (r.rest F = [] ∧ (r.read F n).err = some .eof ∧ (r.read F n).out = []) ∨
    ((r.read F n).err = none ∧ (r.read F n).out ≠ [] ∧
      (r.read F n).out ++ (r.read F n).reader.rest F = r.rest F) := by
  rw [read]
  split_ifs with hbuf hend
  · exact .inr (readBuf_of_ne_nil (length_pos_iff.1 hbuf) hn)
  · have hnil : r.buf = [] := length_eq_zero_iff.1 (by omega)
    refine .inl ⟨?_, rfl, rfl⟩
    rw [rest, hnil, drop_eq_nil_of_le hend]
    rfl
  · have hnil : r.buf = [] := length_eq_zero_iff.1 (by omega)
    obtain ⟨hrest, hempty⟩ := fill_spec (F := F) _ hnil rfl
    by_cases hfill : (fill F (r.metrics.drop r.offset) r).buf = []
    · refine .inl ⟨hempty hfill, ?_⟩
      rw [readBuf, if_pos hfill, if_neg (by omega)]
      exact ⟨rfl, rfl⟩
    · rw [← hrest]
      exact .inr (readBuf_of_ne_nil hfill hn)

/-- Reads with room for at least one byte each give all bytes that are left, in one call more than
there are bytes at most. -/
theorem readAll_eq : ∀ (fuel : ℕ) (sizes : ℕ → ℕ) (r : LineReader 𝔽), (∀ i, 0 < sizes i) →
    (r.rest F).length < fuel → readAll F fuel sizes r = some (r.rest F)
  | 0, _, _, _, hfuel => absurd hfuel (Nat.not_lt_zero _)
  | fuel + 1, sizes, r, hsizes, hfuel => by
    rw [readAll]
    rcases read_spec (F := F) r (hsizes 0) with ⟨hnil, herr, hout⟩ | ⟨herr, hne, hrest⟩
    · simp only [herr, hout, hnil]
    · have hpos := length_pos_iff.2 hne
      rw [← hrest, length_append] at hfuel
      have hrec := readAll_eq fuel (fun i => sizes (i + 1)) (r.read F (sizes 0)).reader
        (fun i => hsizes (i + 1)) (by omega)
      simp only [herr, hrec, Option.map_some, hrest]

theorem eq_rest_of_readAll : ∀ (fuel : ℕ) (sizes : ℕ → ℕ) (r : LineReader 𝔽) {out : GoString},
    (∀ i, 0 < sizes i) → readAll F fuel sizes r = some out → out = r.rest F
  | 0, _, _, _, _, h => nomatch h
  | fuel + 1, sizes, r, out, hsizes, h => by
    rw [readAll] at h
    rcases read_spec (F := F) r (hsizes 0) with ⟨hnil, herr, hout⟩ | ⟨herr, -, hrest⟩
    · simp only [herr, hout, Option.some.injEq] at h
      rw [hnil, ← h]
    · simp only [herr, Option.map_eq_some_iff] at h
      obtain ⟨_, hout', rfl⟩ := h
      rw [← hrest, eq_rest_of_readAll fuel _ _ (fun i => hsizes (i + 1)) hout']

end LineReader

variable {metrics : List (Metric 𝔽)} {r : LineReader 𝔽} {s : Serializer}

theorem newReader_eq_some (h : newReader metrics s = some r) :
    0 ≤ s.maxLineBytes ∧ ∀ F, r.rest F = metrics.flatMap (s.delivered F) := by
  rw [newReader] at h
  split_ifs at h with hneg
  cases h
  exact ⟨not_lt.1 hneg, fun F => rfl⟩

variable {sizes : ℕ → ℕ} {fuel : ℕ}

/-- All that is read from a new reader, in calls of any sizes, are the bytes of the metrics without
an error. -/
theorem readAll_newReader (h : newReader metrics s = some r) (F : FloatFormat 𝔽)
    (hsizes : ∀ i, 0 < sizes i) (hfuel : (metrics.flatMap (s.delivered F)).length < fuel) :
    LineReader.readAll F fuel sizes r = some (metrics.flatMap (s.delivered F)) := by
  rw [← (newReader_eq_some h).2 F] at hfuel ⊢
  exact LineReader.readAll_eq fuel sizes r hsizes hfuel

/-- What is read in pieces of these sizes is parsed : the parser returns a metric for each line of
the metrics without an error. -/
def LineReader.Arrives (F : FloatFormat 𝔽) (env : HandlerEnv 𝔽) (sizes : ℕ → ℕ) (r : LineReader 𝔽)
    (metrics : List (Metric 𝔽)) : Prop :=
  ∃ fuel text ws, r.readAll F fuel sizes = some text ∧ (∀ w ∈ ws, w.1 ∈ metrics) ∧
    List.Forall₂ (r.serializer.IsLine F) ws (r.serializer.batchLines F
      (metrics.filter fun m => (r.serializer.writeMetric F m).2.isNone)) ∧
    ∀ defaults hs fuel, ws.length < fuel →
      parse env defaults fuel hs text = some (.metrics (ws.map fun w =>
        applyDefaultTagsSingle defaults (r.serializer.lineMetric hs.timePrecision w.1 w.2)))

/-- After `SetMetrics` the new metrics arrive and nothing of what was left before. -/
theorem arrives_setMetrics {F : FloatFormat 𝔽} {env : HandlerEnv 𝔽} (hlaws : FloatLaws F env)
    (hm : ∀ m ∈ metrics, Encodable m) (hsizes : ∀ i, 0 < sizes i) :
    (r.setMetrics metrics).Arrives F env sizes metrics := by
  obtain ⟨ws, hws, hls⟩ := exists_isLine_batch r.serializer F
    (metrics.filter fun m => (r.serializer.writeMetric F m).2.isNone)
  have hmem : ∀ w ∈ ws, w.1 ∈ metrics := fun w hw => mem_of_mem_filter (hws w hw).1
  have hrest : (r.setMetrics metrics).rest F = bytesOf _ :=
    (Serializer.flatMap_delivered metrics).trans (serializeBatch_eq_bytesOf _ F _)
  have hread := LineReader.readAll_eq (F := F) _ sizes (r.setMetrics metrics) hsizes
    (Nat.lt_succ_self _)
  rw [hrest] at hread
  exact ⟨_, _, ws, hread, hmem, hls, fun defaults hs fuel hfuel =>
    parse_bytesOf hlaws defaults hls (fun w hw => (hm _ (hmem w hw)).mono
      fun _ hf => writtenFields_subset _ F w.1 ((hws w hw).2.2 hf)) hs hfuel⟩

/-- The bytes that are read up to `io.EOF` are those of `SerializeBatch` exactly if the limit is not
negative and each metric of which the first pair fits on a line has only pairs that do. -/
theorem reads_agree_iff (s : Serializer) (F : FloatFormat 𝔽) (metrics : List (Metric 𝔽))
    {sizes : ℕ → ℕ} (hsizes : ∀ i, 0 < sizes i) :
    (∃ r, newReader metrics s = some r ∧
      ∃ fuel, LineReader.readAll F fuel sizes r = some (s.serializeBatch F metrics)) ↔
    0 ≤ s.maxLineBytes ∧ ∀ m ∈ metrics, s.FailsFirst F m := by
  rw [← Serializer.flatMap_delivered_eq_iff]
  constructor
  · rintro ⟨r, hr, fuel, hall⟩
    obtain ⟨hnonneg, hrest⟩ := newReader_eq_some hr
    rw [← hrest]
    exact ⟨hnonneg, (LineReader.eq_rest_of_readAll fuel sizes r hsizes hall).symm⟩
  · rintro ⟨hnonneg, heq⟩
    have hr : newReader metrics s = some ⟨metrics, s, 0, []⟩ := if_neg (not_lt.2 hnonneg)
    refine ⟨_, hr, (metrics.flatMap (s.delivered F)).length + 1, ?_⟩
    rw [← heq]
    exact readAll_newReader hr F hsizes (Nat.lt_succ_self _)

/-- A metric with an integer for each of the keys. -/
def intFields (ks : List String) : Metric Unit :=
  ks.foldl (fun m k => m.addField (str k) (.int 1)) (Metric.empty (str "cpu") 0 .untyped)

/-- A limit of 11 bytes, which is the length of a line with one key of one byte. -/
def elevenBytes : Serializer := ⟨11, .noSortFields, false⟩

/-- Floats that are not printed. -/
def noFloats : FloatFormat Unit := ⟨fun _ => false, fun _ => false, fun _ => []⟩

/-- A reader that was left in the middle of a line. -/
theorem arrives_behind_line :
    LineReader.Arrives ⟨fun _ => true, fun _ => true, fun _ => []⟩ ⟨fun _ => 0, fun _ => .ok ()⟩
      (fun _ => 3) (.setMetrics ⟨[], elevenBytes, 1, [99, 112]⟩ [intFields ["a", "b"]])
      [intFields ["a", "b"]] := by
  refine arrives_setMetrics ⟨fun _ h => ?_, fun _ h => ?_⟩
    (forall_mem_singleton.2 ⟨by decide, by decide, by decide, by decide⟩) (fun _ => by decide)
  all_goals cases h

/-- A metric on two lines, and one that fails at its first pair. -/
theorem reads_agree_first_pair : (∃ r, newReader [intFields ["a", "b"], intFields ["long"]]
      elevenBytes = some r ∧
    ∃ fuel, LineReader.readAll noFloats fuel (fun _ => 3) r =
      some (elevenBytes.serializeBatch noFloats [intFields ["a", "b"], intFields ["long"]])) := by
  refine (reads_agree_iff elevenBytes noFloats _ fun _ => by decide).2 ⟨by decide, ?_⟩
  intro m hm _ hheader p _ hpairs _ q hq
  rcases mem_pair.1 hm with rfl | rfl
  · have hab : elevenBytes.pairs noFloats (intFields ["a", "b"]) = [str "a=1i", str "b=1i"] := by
      decide
    obtain ⟨-, rfl⟩ := cons_eq_cons.1 (hpairs.symm.trans hab)
    obtain rfl := Except.ok.inj hheader
    obtain rfl := mem_singleton.1 hq
    exact fun _ => by decide
  · have hlong : elevenBytes.pairs noFloats (intFields ["long"]) = [str "long=1i"] := by decide
    obtain ⟨-, rfl⟩ := cons_eq_cons.1 (hpairs.symm.trans hlong)
    cases hq

/-- A metric that fails at its second pair : the line of the first one is in the batch, and is not
read. -/
theorem failed_line_not_read : (∃ r, newReader [intFields ["a", "long"]] elevenBytes = some r ∧
    LineReader.readAll noFloats 1 (fun _ => 100) r = some []) ∧
    elevenBytes.serializeBatch noFloats [intFields ["a", "long"]] = str "cpu a=1i 0\n" :=
  ⟨⟨_, rfl, by decide⟩, by decide⟩

end Telegraf.Influx
