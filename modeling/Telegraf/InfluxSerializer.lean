import Telegraf.Metric
import Telegraf.Replacer

/-!
# The line protocol serializer

`Serializer` (`plugins/serializers/influx`) writes a metric as one or more lines, each with the
measurement and tags, some of the fields and the timestamp. Where `maxLineBytes` is set, a line is
ended before a field that would make it too long, but the separators between the fields that are
on the line already are not counted.

`exists_cut` : the pairs up to the first one that fits on no line are cut into lines, each of which
is ended only where the next pair is found not to fit (`Cut`). `lines_fit_iff` : the lines keep to
the limit exactly if those with three or more pairs do, whose separators are not all counted.
-/

open List

namespace Telegraf.Influx

open Replacer

variable {𝔽 : Type}

/-! ## Escaping -/

/-- `escapes`. -/
def escapes : GoString := str "\t\n\x0c\r ,="

/-- `nameEscapes`. -/
def nameEscapes : GoString := str "\t\n\x0c\r ,"

/-- `stringFieldEscapes`. -/
def stringFieldEscapes : GoString := str "\t\n\x0c\r\\\""

/-- `nameEscaper`. -/
def nameEscaper : List (GoString × GoString) :=
  [(str "\t", str "\\t"), (str "\n", str "\\n"), (str "\x0c", str "\\f"), (str "\r", str "\\r"),
    (str ",", str "\\,"), (str " ", str "\\ ")]

/-- `escaper`. -/
def escaper : List (GoString × GoString) :=
  [(str "\t", str "\\t"), (str "\n", str "\\n"), (str "\x0c", str "\\f"), (str "\r", str "\\r"),
    (str ",", str "\\,"), (str " ", str "\\ "), (str "=", str "\\=")]

/-- `stringFieldEscaper`. -/
def stringFieldEscaper : List (GoString × GoString) :=
  [(str "\"", str "\\\""), (str "\\", str "\\\\")]

/-- `escape` : of a tag key, a tag value or a field key. -/
def escape (s : GoString) : GoString :=
  if containsAny s escapes then replace escaper s else s

/-- `nameEscape`. -/
def nameEscape (s : GoString) : GoString :=
  if containsAny s nameEscapes then replace nameEscaper s else s

/-- `stringFieldEscape`. -/
def stringFieldEscape (s : GoString) : GoString :=
  if containsAny s stringFieldEscapes then replace stringFieldEscaper s else s

/-! ## Values -/

/-- `strconv.AppendUint` in base 10. -/
def appendUint (n : ℕ) : GoString :=
  if n = 0 then [48] else (Nat.digits 10 n).reverse.map fun d => 48 + d.toUInt8

/-- `strconv.AppendInt` in base 10. -/
def appendInt (i : ℤ) : GoString :=
  if i < 0 then 45 :: appendUint i.natAbs else appendUint i.natAbs

/-- What the serializer knows about floats. `format` is `strconv.AppendFloat` with `'f', -1, 64`. -/
structure FloatFormat (𝔽 : Type) where
  isNaN : 𝔽 → Bool
  isInf : 𝔽 → Bool
  format : 𝔽 → GoString

/-- `FieldError`. -/
inductive FieldError where
  | invalidFieldKey
  | isNaN
  | isInf
  | invalidValueType
deriving Repr, DecidableEq

/-- The reason of a `MetricError`. -/
inductive Reason where
  | needMoreSpace
  | invalidName
  | noFields
deriving Repr, DecidableEq

/-- `MetricError`. -/
structure MetricError where
  series : GoString
  reason : Reason
deriving Repr, DecidableEq

/-- `FieldSortOrder`. -/
inductive FieldSortOrder where
  | noSortFields
  | sortFields
deriving Repr, DecidableEq

/-- The settings of a `Serializer`. -/
structure Serializer where
  maxLineBytes : ℤ
  fieldSortOrder : FieldSortOrder
  uintSupport : Bool
deriving Repr, DecidableEq

/-- `MaxInt64`. -/
def maxInt64 : ℤ := 2 ^ 63 - 1

def appendIntField (i : ℤ) : GoString :=
  appendInt i ++ str "i"

def appendUintField (n : ℕ) : GoString :=
  appendUint n ++ str "u"

def appendStringField (v : GoString) : GoString :=
  str "\"" ++ stringFieldEscape v ++ str "\""

def appendBoolField (v : Bool) : GoString :=
  if v then str "true" else str "false"

/-- `newMetricError`. -/
def newMetricError (header : GoString) (reason : Reason) : MetricError :=
  ⟨header.rdropWhile (· = 32), reason⟩

/-- `buildHeader`. A tag with an empty key or value is left out. -/
def buildHeader (m : Metric 𝔽) : Except MetricError GoString :=
  let name := nameEscape m.name
  if name = [] then .error (newMetricError [] .invalidName)
  else .ok (name ++ (m.tags.flatMap fun tag =>
    if escape tag.key = [] ∨ escape tag.value = [] then []
    else str "," ++ escape tag.key ++ str "=" ++ escape tag.value) ++ str " ")

/-- `buildFooter`. -/
def buildFooter (m : Metric 𝔽) : GoString :=
  str " " ++ appendInt (Int64.ofInt m.tm).toInt ++ str "\n"

/-! ## Writing -/

/-- What is written at once. -/
inductive Chunk where
  | header (b : GoString)
  | comma
  | pair (b : GoString)
  | footer (b : GoString)
deriving Repr, DecidableEq

def Chunk.bytes : Chunk → GoString
  | .header b => b
  | .comma => str ","
  | .pair b => b
  | .footer b => b

/-- The loop of `writeMetric` : what is written, and its variables. -/
structure Progress where
  written : List Chunk
  pairsLen : ℕ
  firstField : Bool
deriving Repr, DecidableEq

/-- The end of an iteration. -/
def Progress.writePair (w : Progress) (header pair : GoString) : Progress :=
  ⟨w.written ++ [if w.firstField then .header header else .comma, .pair pair],
    w.pairsLen + pair.length, false⟩

namespace Serializer

variable (s : Serializer) (F : FloatFormat 𝔽)

/-- `appendFieldValue`. -/
def appendFieldValue : FieldValue 𝔽 → Except FieldError GoString
  | .uint v =>
    if s.uintSupport then .ok (appendUintField v.toNat)
    else .ok (appendIntField (min v.toNat maxInt64))
  | .int v => .ok (appendIntField v.toInt)
  | .float v =>
    if F.isNaN v then .error .isNaN
    else if F.isInf v then .error .isInf
    else .ok (F.format v)
  | .string v => .ok (appendStringField v)
  | .bool v => .ok (appendBoolField v)
  | .nil => .error .invalidValueType

/-- `buildFieldPair`. -/
def buildFieldPair (field : Field 𝔽) : Except FieldError GoString :=
  let key := escape field.key
  if key = [] then .error .invalidFieldKey
  else (s.appendFieldValue F field.value).map fun value => key ++ str "=" ++ value

/-- The loop of `writeMetric` from `bytesNeeded` on : the pair is written, maybe on a new line, or
the loop ends with an error. -/
def writeNext (header footer : GoString) (w : Progress) (pair : GoString) :
    Except (Progress × MetricError) Progress :=
  let bytesNeeded := header.length + w.pairsLen + pair.length + footer.length +
    if w.firstField then 0 else 1
  if 0 < s.maxLineBytes ∧ s.maxLineBytes < bytesNeeded then
    if w.firstField then .error (w, newMetricError header .needMoreSpace)
    else
      let w : Progress := ⟨w.written ++ [.footer footer], 0, true⟩
      if s.maxLineBytes < header.length + pair.length + footer.length then
        .error (w, newMetricError header .needMoreSpace)
      else .ok (w.writePair header pair)
  else .ok (w.writePair header pair)

/-- The loop of `writeMetric`. A field that cannot be written is left out. -/
def writeFields (header footer : GoString) : List (Field 𝔽) → Progress →
    Progress × Option MetricError
  | [], w => (w, none)
  | field :: fields, w =>
    match s.buildFieldPair F field with
    | .error _ => writeFields header footer fields w
    | .ok pair =>
      match s.writeNext header footer w pair with
      | .error (w, e) => (w, some e)
      | .ok w => writeFields header footer fields w

/-- The fields in the order in which they are written. -/
def fieldList (m : Metric 𝔽) : List (Field 𝔽) :=
  match s.fieldSortOrder with
  | .noSortFields => m.fields
  | .sortFields => m.fields.insertionSort fun a b => a.key ≤ b.key

/-- `writeMetric` : what is written, and the error. -/
def writeMetric (m : Metric 𝔽) : List Chunk × Option MetricError :=
  match buildHeader m with
  | .error e => ([], some e)
  | .ok header =>
    match s.writeFields F header (buildFooter m) (s.fieldList m) ⟨[], 0, true⟩ with
    | (w, some e) => (w.written, some e)
    | (w, none) =>
      if w.firstField then (w.written, some (newMetricError header .noFields))
      else (w.written ++ [.footer (buildFooter m)], none)

/-- `SerializeBatch` : the errors are all of type `MetricError`, and a metric with one is skipped,
but what was written of it stays. -/
def serializeBatch (metrics : List (Metric 𝔽)) : GoString :=
  metrics.flatMap fun m => (s.writeMetric F m).1.flatMap Chunk.bytes

/-- `Serialize`. -/
def serialize (m : Metric 𝔽) : Except MetricError GoString :=
  match s.writeMetric F m with
  | (_, some e) => .error e
  | (written, none) => .ok (written.flatMap Chunk.bytes)

/-- The fields that can be written, as they are written. -/
def fieldPairs (fields : List (Field 𝔽)) : List GoString :=
  fields.filterMap fun field => (s.buildFieldPair F field).toOption

/-- The pairs of a metric, in the order in which they are written. -/
def pairs (m : Metric 𝔽) : List GoString :=
  s.fieldPairs F (s.fieldList m)

end Serializer

/-! ## Lines -/

/-- What was written, line by line. A line ends with a footer. -/
def lines : List Chunk → List (List Chunk)
  | [] => []
  | .footer b :: cs => [.footer b] :: lines cs
  | c :: cs =>
    match lines cs with
    | [] => [[c]]
    | l :: ls => (c :: l) :: ls

/-- A line that has not been ended. -/
def openLine (header : GoString) : List GoString → List Chunk
  | [] => []
  | p :: ps => .header header :: .pair p :: ps.flatMap fun p => [.comma, .pair p]

/-- A line with the given pairs. -/
def line (header footer : GoString) (ps : List GoString) : List Chunk :=
  openLine header ps ++ [.footer footer]

theorem openLine_snoc (header p : GoString) (ps : List GoString) :
    openLine header (ps ++ [p]) =
      openLine header ps ++ [if ps.isEmpty then .header header else .comma, .pair p] := by
  cases ps with
  | nil => rfl
  | cons => simp [openLine]

/-- The chunks before the footer of a line belong to it. -/
theorem lines_append_footer {cs : List Chunk} (h : ∀ b, .footer b ∉ cs) (b : GoString)
    (rest : List Chunk) : lines (cs ++ .footer b :: rest) = (cs ++ [.footer b]) :: lines rest := by
  induction cs with
  | nil => rfl
  | cons c cs ih =>
    rw [cons_append, lines]
    · rw [ih fun b hb => h b (mem_cons_of_mem c hb)]
      rfl
    · rintro b rfl
      exact h b mem_cons_self

theorem flatten_lines (cs : List Chunk) : (lines cs).flatten = cs := by
  induction cs with
  | nil => rfl
  | cons c cs ih =>
    have hcons : ∀ c, (match lines cs with
        | [] => [[c]]
        | l :: ls => (c :: l) :: ls).flatten = c :: cs := by
      intro c
      conv_rhs => rw [← ih]
      cases lines cs <;> rfl
    cases c with
    | footer => rw [lines, flatten_cons, ih, singleton_append]
    | header b => exact hcons (.header b)
    | comma => exact hcons .comma
    | pair b => exact hcons (.pair b)

theorem footer_notMem_openLine (header : GoString) (ps : List GoString) (b : GoString) :
    .footer b ∉ openLine header ps := by
  cases ps with
  | nil | cons => simp [openLine]

theorem lines_flatMap_line (header footer : GoString) (groups : List (List GoString)) :
    lines (groups.flatMap (line header footer)) = groups.map (line header footer) := by
  induction groups with
  | nil => rfl
  | cons ps groups ih =>
    rw [flatMap_cons, line, append_assoc, singleton_append,
      lines_append_footer (footer_notMem_openLine header ps), ih]
    rfl

theorem length_line (header footer : GoString) {ps : List GoString} (hne : ps ≠ []) :
    ((line header footer ps).flatMap Chunk.bytes).length =
      header.length + (ps.map List.length).sum + (ps.length - 1) + footer.length := by
  obtain ⟨p, ps, rfl⟩ := exists_cons_of_ne_nil hne
  have hrest : ∀ ps : List GoString,
      ((ps.flatMap fun p => [Chunk.comma, .pair p]).flatMap Chunk.bytes).length =
        (ps.map length).sum + ps.length := by
    intro ps
    induction ps with
    | nil => rfl
    | cons p ps ih =>
      have hcomma : (str ",").length = 1 := rfl
      simp only [flatMap_cons, flatMap_append, flatMap_nil, length_append,
        length_nil, ih, hcomma, Chunk.bytes, map_cons, sum_cons, length_cons]
      omega
  simp only [line, openLine, cons_append, flatMap_cons, flatMap_append,
    length_append, hrest, map_cons, sum_cons, length_cons]
  simp [Chunk.bytes]
  omega

namespace Serializer

variable {s : Serializer} {F : FloatFormat 𝔽} {header footer pair : GoString} {w w' : Progress}
  {groups : List (List GoString)} {cur : List GoString}

/-- The length that the serializer takes a line to have : with one separator at most. -/
def countedLength (header footer : GoString) (ps : List GoString) : ℕ :=
  header.length + (ps.map List.length).sum + footer.length + min (ps.length - 1) 1

/-- The serializer takes the line to keep to the limit. -/
def Counted (s : Serializer) (header footer : GoString) (ps : List GoString) : Prop :=
  0 < s.maxLineBytes → countedLength header footer ps ≤ s.maxLineBytes

/-- The lines `groups` are written, and `cur` on the line that is open. -/
structure Writing (s : Serializer) (header footer : GoString) (groups : List (List GoString))
    (cur : List GoString) (w : Progress) : Prop where
  written : w.written = groups.flatMap (line header footer) ++ openLine header cur
  pairsLen : w.pairsLen = (cur.map List.length).sum
  firstField : w.firstField = cur.isEmpty
  ne_nil : ∀ ps ∈ groups, ps ≠ []
  counted : ∀ ps ∈ groups, s.Counted header footer ps
  cur_counted : cur ≠ [] → s.Counted header footer cur

section

variable (h : s.Writing header footer groups cur w)

include h

theorem Writing.writePair (hc : s.Counted header footer (cur ++ [pair])) :
    s.Writing header footer groups (cur ++ [pair]) (w.writePair header pair) where
  written := by
    rw [Progress.writePair, openLine_snoc, h.written, h.firstField, append_assoc]
  pairsLen := by simp [Progress.writePair, h.pairsLen]
  firstField := by simp [Progress.writePair]
  ne_nil := h.ne_nil
  counted := h.counted
  cur_counted := fun _ => hc

theorem Writing.close (hne : cur ≠ []) :
    s.Writing header footer (groups ++ [cur]) [] ⟨w.written ++ [.footer footer], 0, true⟩ where
  written := by simp [h.written, line, openLine]
  pairsLen := rfl
  firstField := rfl
  ne_nil := forall_mem_append.2 ⟨h.ne_nil, by simpa using hne⟩
  counted := forall_mem_append.2 ⟨h.counted, by simpa using h.cur_counted hne⟩
  cur_counted := fun h => absurd rfl h

theorem Writing.bytesNeeded (pair : GoString) :
    header.length + w.pairsLen + pair.length + footer.length + (if w.firstField then 0 else 1) =
      countedLength header footer (cur ++ [pair]) := by
  rw [h.pairsLen, h.firstField, countedLength]
  cases cur with
  | nil => simp
  | cons => simp; omega

end

section

variable {field : Field 𝔽} {fields : List (Field 𝔽)}

theorem fieldPairs_of_error {e : FieldError} (h : s.buildFieldPair F field = .error e) :
    s.fieldPairs F (field :: fields) = s.fieldPairs F fields :=
  filterMap_cons_none (by rw [h]; rfl)

theorem fieldPairs_of_ok (h : s.buildFieldPair F field = .ok pair) :
    s.fieldPairs F (field :: fields) = pair :: s.fieldPairs F fields :=
  filterMap_cons_some (by rw [h]; rfl)

end

/-- The loop of `writeMetric`, over the pairs of the fields that can be written. -/
def writePairs (s : Serializer) (header footer : GoString) : List GoString → Progress →
    Progress × Option MetricError
  | [], w => (w, none)
  | pair :: pairs, w =>
    match s.writeNext header footer w pair with
    | .error (w, e) => (w, some e)
    | .ok w => writePairs s header footer pairs w

theorem writeFields_eq_writePairs : ∀ (fields : List (Field 𝔽)) (w : Progress),
    s.writeFields F header footer fields w = s.writePairs header footer (s.fieldPairs F fields) w
  | [], w => rfl
  | field :: fields, w => by
    rw [Serializer.writeFields]
    cases hpair : s.buildFieldPair F field with
    | error =>
      rw [fieldPairs_of_error hpair]
      exact writeFields_eq_writePairs fields w
    | ok pair =>
      rw [fieldPairs_of_ok hpair, writePairs]
      dsimp only
      cases s.writeNext header footer w pair with
      | error => rfl
      | ok w' => exact writeFields_eq_writePairs fields w'

/-- The end of `writeMetric`, after the loop. -/
def afterFields (header footer : GoString) :
    Progress × Option MetricError → List Chunk × Option MetricError
  | (w, some e) => (w.written, some e)
  | (w, none) =>
    if w.firstField then (w.written, some (newMetricError header .noFields))
    else (w.written ++ [.footer footer], none)

@[simp] theorem afterFields_some (w : Progress) (e : MetricError) :
    afterFields header footer (w, some e) = (w.written, some e) := rfl

@[simp] theorem afterFields_none (w : Progress) : afterFields header footer (w, none) =
    if w.firstField then (w.written, some (newMetricError header .noFields))
    else (w.written ++ [.footer footer], none) := rfl

theorem writeMetric_of_header {m : Metric 𝔽} (hheader : buildHeader m = .ok header) :
    s.writeMetric F m = afterFields header (buildFooter m)
      (s.writePairs header (buildFooter m) (s.pairs F m) ⟨[], 0, true⟩) := by
  rw [writeMetric, hheader, pairs, ← writeFields_eq_writePairs]
  rfl

/-! ## One pair -/

instance (s : Serializer) (header footer : GoString) (ps : List GoString) :
    Decidable (s.Counted header footer ps) :=
  inferInstanceAs (Decidable (_ → _))

theorem countedLength_mono {ps qs : List GoString} (h : ps <+: qs) :
    countedLength header footer ps ≤ countedLength header footer qs := by
  obtain ⟨t, rfl⟩ := h
  simp only [countedLength, map_append, sum_append, length_append]
  omega

theorem Counted.of_prefix {ps qs : List GoString} (h : s.Counted header footer qs)
    (hpre : ps <+: qs) : s.Counted header footer ps :=
  fun hpos => (Int.ofNat_le.2 (countedLength_mono hpre)).trans (h hpos)

theorem countedLength_last_le (header footer : GoString) (ps : List GoString) (pair : GoString) :
    countedLength header footer [pair] ≤ countedLength header footer (ps ++ [pair]) := by
  simp [countedLength]
  omega

theorem Writing.start : s.Writing header footer [] [] ⟨[], 0, true⟩ where
  written := rfl
  pairsLen := rfl
  firstField := rfl
  ne_nil := by simp
  counted := by simp
  cur_counted := by simp

theorem Writing.writeNext_of_counted (h : s.Writing header footer groups cur w)
    (hc : s.Counted header footer (cur ++ [pair])) :
    s.writeNext header footer w pair = .ok (w.writePair header pair) := by
  unfold Serializer.writeNext
  simp only [h.bytesNeeded]
  exact if_neg fun hlong => absurd (hc hlong.1) (not_le.2 hlong.2)

theorem Writing.writeNext_of_counted_alone (h : s.Writing header footer groups cur w)
    (hlong : ¬s.Counted header footer (cur ++ [pair])) (hc : s.Counted header footer [pair]) :
    cur ≠ [] ∧ s.writeNext header footer w pair =
      .ok (Progress.writePair ⟨w.written ++ [.footer footer], 0, true⟩ header pair) := by
  have hne : cur ≠ [] := by
    rintro rfl
    exact hlong hc
  have hfirst : w.firstField = false := h.firstField.trans (isEmpty_eq_false_iff.2 hne)
  obtain ⟨hpos, hlt⟩ := Classical.not_imp.1 hlong
  have hfits : ¬s.maxLineBytes < header.length + pair.length + footer.length := by
    have := hc hpos
    simp [countedLength] at this
    omega
  refine ⟨hne, ?_⟩
  unfold Serializer.writeNext
  simp only [h.bytesNeeded]
  rw [if_pos ⟨hpos, not_le.1 hlt⟩, hfirst]
  exact if_neg hfits

theorem Writing.writeNext_of_not_counted (h : s.Writing header footer groups cur w)
    (hc : ¬s.Counted header footer [pair]) :
    ∃ e, s.writeNext header footer w pair =
      .error (if cur.isEmpty then w else ⟨w.written ++ [.footer footer], 0, true⟩, e) := by
  obtain ⟨hpos, hlong⟩ := Classical.not_imp.1 hc
  have hlt : s.maxLineBytes < header.length + pair.length + footer.length := by
    simp [countedLength] at hlong
    omega
  have hle := countedLength_last_le header footer cur pair
  refine ⟨newMetricError header .needMoreSpace, ?_⟩
  unfold Serializer.writeNext
  simp only [h.bytesNeeded]
  rw [if_pos ⟨hpos, by omega⟩, h.firstField, if_pos hlt]
  split <;> rfl

/-! ## All pairs -/

/-- The pairs up to the first one that fits on no line, cut into lines that are found to fit. A line
is ended only where it is found not to fit with the next pair. -/
structure Cut (s : Serializer) (header footer : GoString) (pairs : List GoString)
    (groups : List (List GoString)) : Prop where
  ne_nil : ∀ ps ∈ groups, ps ≠ []
  counted : ∀ ps ∈ groups, s.Counted header footer ps
  flatten : groups.flatten = pairs.takeWhile fun p => s.Counted header footer [p]
  breaks : groups.IsChain fun ps qs => ∀ q ∈ qs.head?, ¬s.Counted header footer (ps ++ [q])

/-- Behind a line that is found to fit, nothing of the next line does. -/
theorem eq_nil_of_break {ps t rest : List GoString} {groups : List (List GoString)}
    (hne : ∀ qs ∈ ps :: groups, qs ≠ []) (hbreaks : (ps :: groups).IsChain fun ps qs =>
      ∀ q ∈ qs.head?, ¬s.Counted header footer (ps ++ [q]))
    (ht : groups.flatten = t ++ rest) (hc : s.Counted header footer (ps ++ t)) : t = [] := by
  cases t with
  | nil => rfl
  | cons q t =>
    cases groups with
    | nil => cases ht
    | cons qs groups =>
      obtain ⟨q', qs, rfl⟩ := exists_cons_of_ne_nil (hne qs (by simp))
      obtain ⟨rfl, -⟩ := cons.inj ht
      refine absurd (hc.of_prefix ⟨t, (append_cons ps q' t).symm⟩) ?_
      exact (isChain_cons_cons.1 hbreaks).1 q' rfl

/-- A list of pairs is cut in one way only. -/
theorem Cut.unique {pairs : List GoString} {groups groups' : List (List GoString)}
    (h : s.Cut header footer pairs groups) (h' : s.Cut header footer pairs groups') :
    groups = groups' := by
  obtain ⟨hne, hcounted, hflatten, hbreaks⟩ := h
  obtain ⟨hne', hcounted', hflatten', hbreaks'⟩ := h'
  replace hflatten := hflatten.trans hflatten'.symm
  clear hflatten'
  induction groups generalizing groups' with
  | nil =>
    cases groups' with
    | nil => rfl
    | cons ps =>
      rw [flatten_nil, flatten_cons, eq_comm, append_eq_nil_iff] at hflatten
      exact absurd hflatten.1 (hne' ps mem_cons_self)
  | cons ps groups ih =>
    cases groups' with
    | nil =>
      rw [flatten_nil, flatten_cons, append_eq_nil_iff] at hflatten
      exact absurd hflatten.1 (hne ps mem_cons_self)
    | cons ps' groups' =>
      rw [flatten_cons, flatten_cons] at hflatten
      obtain rfl : ps = ps' := by
        rcases append_eq_append_iff.1 hflatten with ⟨t, rfl, ht⟩ | ⟨t, rfl, ht⟩
        · rw [eq_nil_of_break hne hbreaks ht (hcounted' _ mem_cons_self), append_nil]
        · rw [eq_nil_of_break hne' hbreaks' ht (hcounted _ mem_cons_self), append_nil]
      rw [ih (fun qs hqs => hne qs (mem_cons_of_mem _ hqs))
        (fun qs hqs => hcounted qs (mem_cons_of_mem _ hqs)) hbreaks.tail
        (fun qs hqs => hne' qs (mem_cons_of_mem _ hqs))
        (fun qs hqs => hcounted' qs (mem_cons_of_mem _ hqs)) hbreaks'.tail
        (append_cancel_left hflatten)]

/-- The lines and the open one are the result of breaks that were needed. -/
structure Splits (s : Serializer) (header footer : GoString) (groups : List (List GoString))
    (cur : List GoString) : Prop where
  start : cur = [] → groups = []
  breaks : (groups ++ [cur]).IsChain fun ps qs =>
    ∀ q ∈ qs.head?, ¬s.Counted header footer (ps ++ [q])

theorem Splits.snoc (h : s.Splits header footer groups cur) (pair : GoString) :
    s.Splits header footer groups (cur ++ [pair]) where
  start := by simp
  breaks := by
    cases cur with
    | nil =>
      rw [h.start rfl]
      exact isChain_singleton _
    | cons =>
      obtain ⟨hgroups, -, hlast⟩ := isChain_append.1 h.breaks
      refine isChain_append.2 ⟨hgroups, isChain_singleton _, ?_⟩
      simpa using hlast

theorem Splits.close (h : s.Splits header footer groups cur)
    (hlong : ¬s.Counted header footer (cur ++ [pair])) :
    s.Splits header footer (groups ++ [cur]) [pair] where
  start := by simp
  breaks := by
    refine isChain_append.2 ⟨h.breaks, isChain_singleton _, ?_⟩
    simpa using hlong

/-- What the loop and the end of `writeMetric` write, and when there is no error. -/
def Ending (s : Serializer) (header footer : GoString) (before pairs cur : List GoString)
    (out : List Chunk × Option MetricError) : Prop :=
  (∃ all : List (List GoString), out.1 = all.flatMap (line header footer) ∧
    (∀ ps ∈ all, ps ≠ []) ∧ (∀ ps ∈ all, s.Counted header footer ps) ∧
    all.flatten = before ++ pairs.takeWhile (fun p => s.Counted header footer [p]) ∧
    all.IsChain fun ps qs => ∀ q ∈ qs.head?, ¬s.Counted header footer (ps ++ [q])) ∧
  (out.2 = none ↔ cur ++ pairs ≠ [] ∧ ∀ p ∈ pairs, s.Counted header footer [p])

theorem Writing.ending (h : s.Writing header footer groups cur w)
    (hs : s.Splits header footer groups cur) {pairs : List GoString}
    {out : List Chunk × Option MetricError}
    (hout : out.1 = if cur.isEmpty then w.written else w.written ++ [.footer footer])
    (herr : out.2 = none ↔ cur ++ pairs ≠ [] ∧ ∀ p ∈ pairs, s.Counted header footer [p])
    (hstop : pairs.takeWhile (fun p => s.Counted header footer [p]) = []) :
    s.Ending header footer (groups.flatten ++ cur) pairs cur out := by
  refine ⟨?_, herr⟩
  rw [hstop, append_nil]
  by_cases hcur : cur = []
  · subst hcur
    refine ⟨groups, ?_, h.ne_nil, h.counted, (append_nil _).symm, ?_⟩
    · rw [hout, isEmpty_nil, if_pos rfl, h.written, openLine, append_nil]
    · rw [hs.start rfl]
      exact isChain_nil
  · have hclose := h.close hcur
    refine ⟨groups ++ [cur], ?_, hclose.ne_nil, hclose.counted, by simp, hs.breaks⟩
    rw [hout, isEmpty_eq_false_iff.2 hcur, if_neg Bool.false_ne_true]
    simpa [openLine] using hclose.written

theorem Writing.writePairs : ∀ (pairs : List GoString) {w : Progress}
    {groups : List (List GoString)} {cur : List GoString}, s.Writing header footer groups cur w →
    s.Splits header footer groups cur →
    s.Ending header footer (groups.flatten ++ cur) pairs cur
      (afterFields header footer (s.writePairs header footer pairs w))
  | [], w, groups, cur, h, hs => by
    refine h.ending hs ?_ ?_ rfl
    all_goals
      rw [Serializer.writePairs, afterFields_none, h.firstField]
      cases cur <;> simp
  | pair :: pairs, w, groups, cur, h, hs => by
    rw [Serializer.writePairs]
    by_cases hone : s.Counted header footer [pair]
    · have htake : (pair :: pairs).takeWhile (fun p => s.Counted header footer [p]) =
          pair :: pairs.takeWhile (fun p => s.Counted header footer [p]) :=
        takeWhile_cons_of_pos (decide_eq_true hone)
      by_cases hc : s.Counted header footer (cur ++ [pair])
      · rw [h.writeNext_of_counted hc]
        obtain ⟨hall, herr⟩ := (h.writePair hc).writePairs pairs (hs.snoc pair)
        exact ⟨by simpa [htake] using hall, by simpa [hone] using herr⟩
      · obtain ⟨hne, heq⟩ := h.writeNext_of_counted_alone hc hone
        rw [heq]
        obtain ⟨hall, herr⟩ := ((h.close hne).writePair hone).writePairs pairs (hs.close hc)
        exact ⟨by simpa [htake] using hall, by simpa [hone] using herr⟩
    · obtain ⟨e, heq⟩ := h.writeNext_of_not_counted hone
      rw [heq]
      refine h.ending hs ?_ (by simp [hone]) (takeWhile_cons_of_neg (by simpa using hone))
      rw [afterFields_some]
      split <;> rfl

variable {m : Metric 𝔽}

/-- What `writeMetric` writes is a cut of the pairs. There is no error exactly if there is a pair
and all of them fit on a line. -/
theorem exists_cut (hheader : buildHeader m = .ok header) :
    (∃ groups, (s.writeMetric F m).1 = groups.flatMap (line header (buildFooter m)) ∧
      s.Cut header (buildFooter m) (s.pairs F m) groups) ∧
    ((s.writeMetric F m).2 = none ↔
      s.pairs F m ≠ [] ∧ ∀ p ∈ s.pairs F m, s.Counted header (buildFooter m) [p]) := by
  obtain ⟨⟨groups, hwritten, hne, hcounted, hflatten, hbreaks⟩, herr⟩ :=
    Writing.start.writePairs (s := s) (s.pairs F m) ⟨fun _ => rfl, isChain_singleton _⟩
  rw [writeMetric_of_header hheader]
  exact ⟨⟨groups, hwritten, hne, hcounted, hflatten, hbreaks⟩, herr⟩

/-! ## The limit -/

/-- The lines of the metric keep to the limit. -/
def Fits (s : Serializer) (F : FloatFormat 𝔽) (m : Metric 𝔽) : Prop :=
  ∀ l ∈ lines (s.writeMetric F m).1, ((l.flatMap Chunk.bytes).length : ℤ) ≤ s.maxLineBytes

instance (s : Serializer) (F : FloatFormat 𝔽) (m : Metric 𝔽) : Decidable (s.Fits F m) :=
  inferInstanceAs (Decidable (∀ l ∈ lines (s.writeMetric F m).1,
    ((l.flatMap Chunk.bytes).length : ℤ) ≤ s.maxLineBytes))

/-- The length of a line. -/
def lineLength (header footer : GoString) (ps : List GoString) : ℕ :=
  header.length + (ps.map List.length).sum + (ps.length - 1) + footer.length

variable {e : MetricError}

theorem buildHeader_eq_error (h : buildHeader m = .error e) : m.name = [] := by
  by_contra hname
  have hescaped : nameEscape m.name ≠ [] := by
    unfold nameEscape
    split
    · exact replace_ne_nil (by decide) hname
    · exact hname
  simp [buildHeader, hescaped] at h

theorem fits_of_error (h : buildHeader m = .error e) : s.Fits F m := by
  simp [Fits, writeMetric, h, lines]

/-- With one separator at most the count is right. -/
theorem lineLength_eq_countedLength {ps : List GoString} (h : ps.length < 3) :
    lineLength header footer ps = countedLength header footer ps := by
  rw [lineLength, countedLength, min_eq_left (by omega)]
  omega

/-- The lines of a metric keep to the limit exactly if, in the cut of its pairs, no line of three or
more pairs is beyond it with all separators. -/
theorem lines_fit_iff (s : Serializer) (F : FloatFormat 𝔽) (m : Metric 𝔽)
    (hpos : 0 < s.maxLineBytes) :
    s.Fits F m ↔ ∀ header groups, buildHeader m = .ok header →
      s.Cut header (buildFooter m) (s.pairs F m) groups →
        ∀ ps ∈ groups, 3 ≤ ps.length →
          (lineLength header (buildFooter m) ps : ℤ) ≤ s.maxLineBytes := by
  cases hheader : buildHeader m with
  | error => exact iff_of_true (fits_of_error hheader) fun _ _ h => nomatch h
  | ok header =>
    obtain ⟨⟨groups, hwritten, hcut⟩, -⟩ := exists_cut (s := s) (F := F) hheader
    have hlen : ∀ ps ∈ groups,
        ((line header (buildFooter m) ps).flatMap Chunk.bytes).length =
          lineLength header (buildFooter m) ps := fun ps hps => length_line _ _ (hcut.ne_nil ps hps)
    rw [Fits, hwritten, lines_flatMap_line, forall_mem_map]
    constructor
    · rintro hfits _ groups' ⟨⟩ hcut' ps hps -
      rw [hcut'.unique hcut] at hps
      rw [← hlen ps hps]
      exact hfits ps hps
    · intro hlong ps hps
      rw [hlen ps hps]
      rcases Nat.lt_or_ge ps.length 3 with hshort | hge
      · rw [lineLength_eq_countedLength hshort]
        exact hcut.counted ps hps hpos
      · exact hlong header groups rfl hcut ps hps hge

/-- Three fields are on a line of 21 bytes under that limit, and the fourth one is on a second line.
The last one fits on no line. -/
theorem lines_fit_three_fields :
    ∃ (s : Serializer) (F : FloatFormat Unit) (m : Metric Unit), 0 < s.maxLineBytes ∧
      (lines (s.writeMetric F m).1).length = 2 ∧ (s.pairs F m).length = 5 ∧ s.Fits F m := by
  refine ⟨⟨21, .noSortFields, false⟩, ⟨fun _ => false, fun _ => false, fun _ => []⟩,
    ⟨str "cpu", [], [⟨str "a", .int 1⟩, ⟨str "b", .int 2⟩, ⟨str "c", .int 3⟩, ⟨str "d", .int 4⟩,
      ⟨str "averyveryverylongname", .int 5⟩], 0, .untyped, false, by decide, by decide⟩,
    by decide, by decide, by decide, (lines_fit_iff _ _ _ (by decide)).2 ?_⟩
  rintro _ groups ⟨⟩ hcut ps hps -
  have hgroups : groups = [[str "a=1i", str "b=2i", str "c=3i"], [str "d=4i"]] :=
    hcut.unique ⟨by decide, by decide, by decide, by decide⟩
  rw [hgroups] at hps
  revert ps
  decide

/-- Three fields are on one line of 21 bytes under a limit of 20. -/
theorem not_fits_three_fields :
    ∃ (s : Serializer) (F : FloatFormat Unit) (m : Metric Unit), 0 < s.maxLineBytes ∧ ¬s.Fits F m :=
  ⟨⟨20, .noSortFields, false⟩, ⟨fun _ => false, fun _ => false, fun _ => []⟩,
    ⟨str "cpu", [], [⟨str "a", .int 1⟩, ⟨str "b", .int 2⟩, ⟨str "c", .int 3⟩], 0, .untyped, false,
      by decide, by decide⟩, by decide, by decide⟩

end Serializer

end Telegraf.Influx
