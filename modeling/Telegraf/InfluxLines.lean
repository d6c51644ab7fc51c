import Telegraf.InfluxSerializer

/-!
# The lines of a metric

`writeMetric` ends a line and begins a new one before a pair that would make the line too long.
`writeMetric_splits` : where it returns no error, the output is the pairs of the metric in order,
cut into lines with the same header and footer, and a line was ended only before a pair that was
found not to fit on it.

Where it returns an error, `writeMetric_isSome_iff` and `writeMetric_fst_eq_nil_iff` say which pair
is the reason, and whether lines were written before.
-/

namespace Telegraf.Influx

variable {𝔽 : Type}

/-- The text of a line. -/
def lineText (header footer : GoString) (ps : List GoString) : GoString :=
  header ++ (str ",").intercalate ps ++ footer

/-- `bytesNeeded` : the length of a line with the pairs `ps`, when one more is to go on it. -/
def bytesNeeded (header footer : GoString) (ps : List GoString) (pair : GoString) : ℕ :=
  header.length + (ps.map List.length).sum + pair.length + footer.length +
    if ps.isEmpty then 0 else 1

theorem bytes_line_eq_lineText (header footer : GoString) {ps : List GoString} (hne : ps ≠ []) :
    (line header footer ps).flatMap Chunk.bytes = lineText header footer ps := by
  have hrest : ∀ (p : GoString) (ps : List GoString),
      p ++ (ps.flatMap fun p => [Chunk.comma, .pair p]).flatMap Chunk.bytes =
        (str ",").intercalate (p :: ps) := by
    intro p ps
    induction ps generalizing p with
    | nil => simp
    | cons q ps ih =>
      rw [List.intercalate_cons_cons, ← ih q]
      simp [Chunk.bytes]
  obtain ⟨p, ps, rfl⟩ := List.exists_cons_of_ne_nil hne
  rw [lineText, ← hrest]
  simp [line, openLine, Chunk.bytes]

namespace Serializer

variable {s : Serializer} {F : FloatFormat 𝔽} {header : GoString} {m : Metric 𝔽}

/-- The pair is found to make a line with the pairs `ps` too long. -/
def TooLong (s : Serializer) (header footer : GoString) (ps : List GoString) (pair : GoString) :
    Prop :=
  0 < s.maxLineBytes ∧ s.maxLineBytes < bytesNeeded header footer ps pair

theorem countedLength_snoc (header footer : GoString) (ps : List GoString) (pair : GoString) :
    countedLength header footer (ps ++ [pair]) = bytesNeeded header footer ps pair := by
  rw [countedLength, bytesNeeded]
  cases ps with
  | nil => simp
  | cons => simp; omega

theorem tooLong_iff (s : Serializer) (header footer : GoString) (ps : List GoString)
    (pair : GoString) :
    s.TooLong header footer ps pair ↔ ¬s.Counted header footer (ps ++ [pair]) := by
  rw [TooLong, Counted, countedLength_snoc, Classical.not_imp, not_le]

theorem exists_header_of_eq_none (h : (s.writeMetric F m).2 = none) :
    ∃ header, buildHeader m = .ok header := by
  cases hheader : buildHeader m with
  | error => simp [writeMetric, hheader] at h
  | ok header => exact ⟨header, rfl⟩

/-- Where `writeMetric` returns no error, the output is the pairs of the metric in order, each once,
cut into lines of one or more pairs with the same header and footer. A line was ended only where
the next pair was found to make it too long. -/
theorem writeMetric_splits (h : (s.writeMetric F m).2 = none) :
    ∃ header, buildHeader m = .ok header ∧ ∃ groups : List (List GoString),
      groups ≠ [] ∧ (∀ ps ∈ groups, ps ≠ []) ∧
      (s.writeMetric F m).1.flatMap Chunk.bytes =
        groups.flatMap (lineText header (buildFooter m)) ∧
      groups.flatten = s.pairs F m ∧
      groups.IsChain fun ps qs => ∀ q ∈ qs.head?, s.TooLong header (buildFooter m) ps q := by
  obtain ⟨header, hheader⟩ := exists_header_of_eq_none h
  obtain ⟨⟨groups, hwritten, hcut⟩, herr⟩ := exists_cut (s := s) (F := F) hheader
  obtain ⟨hne, hall⟩ := herr.1 h
  have hpairs : groups.flatten = s.pairs F m := by
    rw [hcut.flatten, List.takeWhile_eq_self_iff]
    exact fun p hp => decide_eq_true (hall p hp)
  refine ⟨header, hheader, groups, ?_, hcut.ne_nil, ?_, hpairs, ?_⟩
  · rintro rfl
    exact hne hpairs.symm
  · rw [hwritten, List.flatMap_assoc]
    exact List.flatMap_congr fun ps hps => bytes_line_eq_lineText _ _ (hcut.ne_nil ps hps)
  · exact hcut.breaks.imp fun ps qs hbreak q hq => (tooLong_iff _ _ _ _ _).2 (hbreak q hq)

/-- Three fields on two lines, one field is left out. -/
theorem writeMetric_splits_two_lines :
    ∃ (s : Serializer) (F : FloatFormat Unit) (m : Metric Unit), 0 < s.maxLineBytes ∧
      (s.writeMetric F m).2 = none ∧ (s.pairs F m).length < m.fields.length ∧
      ∃ header, buildHeader m = .ok header ∧ ∃ groups : List (List GoString),
        groups ≠ [] ∧ (∀ ps ∈ groups, ps ≠ []) ∧
        (s.writeMetric F m).1.flatMap Chunk.bytes =
          groups.flatMap (lineText header (buildFooter m)) ∧
        groups.flatten = s.pairs F m ∧
        groups.IsChain fun ps qs => ∀ q ∈ qs.head?, s.TooLong header (buildFooter m) ps q :=
  ⟨⟨16, .noSortFields, false⟩, ⟨fun _ => false, fun _ => false, fun _ => []⟩,
    ⟨str "cpu", [], [⟨str "a", .int 1⟩, ⟨str "b", .nil⟩, ⟨str "c", .int 2⟩, ⟨str "d", .int 3⟩], 0,
      .untyped, false, by decide, by decide⟩,
    by decide, by decide, by decide, writeMetric_splits (by decide)⟩

/-! ## Errors -/

/-- `writeMetric` fails exactly if there is no pair, or one that fits on no line. -/
theorem writeMetric_isSome_iff (hheader : buildHeader m = .ok header) :
    (s.writeMetric F m).2.isSome ↔
      s.pairs F m = [] ∨ ∃ q ∈ s.pairs F m, ¬s.Counted header (buildFooter m) [q] := by
  rw [Option.isSome_iff_ne_none, Ne, (exists_cut hheader).2, not_and_or, not_not]
  simp only [not_forall, exists_prop]

/-- `writeMetric` has written nothing exactly if the first pair fits on no line, or there is no
pair. -/
theorem writeMetric_fst_eq_nil_iff (hheader : buildHeader m = .ok header) :
    (s.writeMetric F m).1 = [] ↔
      ∀ p ∈ (s.pairs F m).head?, ¬s.Counted header (buildFooter m) [p] := by
  obtain ⟨⟨groups, hwritten, hcut⟩, -⟩ := exists_cut (s := s) (F := F) hheader
  have hnil : groups.flatMap (line header (buildFooter m)) = [] ↔ groups.flatten = [] := by
    cases groups with
    | nil => simp
    | cons ps => simp [line, hcut.ne_nil ps List.mem_cons_self]
  rw [hwritten, hnil, hcut.flatten]
  cases s.pairs F m with
  | nil => simp
  | cons p => by_cases hp : s.Counted header (buildFooter m) [p] <;> simp [hp]

end Serializer

end Telegraf.Influx
