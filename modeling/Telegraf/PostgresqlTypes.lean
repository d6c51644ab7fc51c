import Telegraf.PostgresqlSchema

/-!
# Data types of the columns

`Target` gives a column the data type of the first tag or field with its key, and later values of
the key are not looked at. `target_covers_iff` : the columns can hold the fields of all metrics of a
batch exactly if all values of a key are of one type, that of the first column for the key, and no
unsigned value is over the range of `int8`.
-/

open List hiding getElem?_eq_some_iff

open Option

namespace Telegraf.Postgresql

variable {𝔽 : Type}

/-- The data type of the column of a key. -/
def TargetColumns.columnType (c : TargetColumns) (k : GoString) : Option PgDataType :=
  (c.target k).bind fun i => c.dataTypes[i]?

/-- An integer is in the range of `int8`. -/
def InInt8Range : FieldValue 𝔽 → Prop
  | .int v => -2 ^ 63 ≤ v.toInt ∧ v.toInt < 2 ^ 63
  | .uint v => (v.toNat : ℤ) < 2 ^ 63
  | _ => True

/-- Every value of a field has a column whose type can contain that of the value, and is in the
range of the column. -/
def Covers (ms : List (Metric 𝔽)) (c : TargetColumns) : Prop :=
  ∀ m ∈ ms, ∀ f ∈ m.fields, ∃ ty, c.columnType f.key = some ty ∧
    pgTypeCanContain ty.sql (derivePgDatatype f.value).sql = true ∧
      (ty = .int8 → InInt8Range f.value)

namespace Mapper

variable (d : Mapper)

/-- The first column that the metrics call for with a name. -/
def firstColumn (k : GoString) (ms : List (Metric 𝔽)) : Option Column :=
  (ms.flatMap d.columnsOf).find? fun col => col.name = k

/-- The first column for the key of a field is in the main table and has the type of the field, and
no unsigned value is too large. -/
def Uniform (ms : List (Metric 𝔽)) : Prop :=
  ∀ m ∈ ms, ∀ f ∈ m.fields, ∃ col, d.firstColumn f.key ms = some col ∧
    d.inTagTable col = false ∧ col.dataType = derivePgDatatype f.value ∧
      ∀ v, f.value = .uint v → v.toNat < 2 ^ 63

end Mapper

/-! ## Types that contain others -/

theorem derivePgDatatype_cases (v : FieldValue 𝔽) :
    derivePgDatatype v = .boolean ∨ derivePgDatatype v = .int8 ∨ derivePgDatatype v = .float8 ∨
      derivePgDatatype v = .text := by
  cases v <;> simp [derivePgDatatype]

/-- No type contains another one that is derived from a value. -/
theorem canContain_iff (ty : PgDataType) (v : FieldValue 𝔽) :
    pgTypeCanContain ty.sql (derivePgDatatype v).sql = true ↔ ty = derivePgDatatype v := by
  rcases derivePgDatatype_cases v with h | h | h | h <;> rw [h] <;> cases ty <;> decide

theorem inInt8Range_iff (v : FieldValue 𝔽) :
    InInt8Range v ↔ ∀ u, v = .uint u → u.toNat < 2 ^ 63 := by
  cases v with
  | int v => simpa [InInt8Range] using ⟨Int64.le_toInt v, Int64.toInt_lt v⟩
  | uint u =>
    rw [InInt8Range]
    constructor
    · rintro h _ ⟨rfl⟩
      omega
    · intro h
      have := h u rfl
      omega
  | float | string | bool | nil => simp [InInt8Range]

/-! ## The type of a column -/

/-- The map points to columns. -/
structure Pointing (c : TargetColumns) : Prop where
  length : c.dataTypes.length = c.names.length
  target : ∀ k i, c.target k = some i → i < c.names.length

variable {c : TargetColumns}

theorem WellFormed.pointing (h : WellFormed c) : Pointing c :=
  ⟨h.dataTypes, fun k i hi => (List.getElem?_eq_some_iff.1 ((h.target k i).1 hi)).1⟩

section

variable (h : Pointing c) (name : GoString) (dataType : PgDataType) (role : ColumnRole)

include h

theorem Pointing.builtin : Pointing (c.builtin name dataType role) := by
  refine ⟨by simp [TargetColumns.builtin, h.length], fun k i hi => ?_⟩
  simp only [TargetColumns.builtin, Function.update_apply] at hi
  rw [TargetColumns.builtin, length_append, length_singleton]
  split_ifs at hi with hk
  · cases hi
    exact Nat.lt_succ_self _
  · exact Nat.lt_succ_of_lt (h.target k i hi)

theorem columnType_builtin (k : GoString) :
    (c.builtin name dataType role).columnType k =
      if k = name then some dataType else c.columnType k := by
  simp only [TargetColumns.columnType, TargetColumns.builtin, Function.update_apply]
  split_ifs with hk
  · rw [bind_some, ← h.length, getElem?_concat_length]
  · cases hi : c.target k with
    | none => rfl
    | some i =>
      rw [bind_some, bind_some, getElem?_append_left]
      rw [h.length]
      exact h.target k i hi

end

variable {cols : List Column} {col : Column}

/-- Where names do not repeat, the first column with a name is the only one. -/
theorem find?_name_eq_some (hnodup : (cols.map Column.name).Nodup) (hcol : col ∈ cols) :
    (cols.find? fun col' => col'.name = col.name) = some col := by
  obtain ⟨col', hfind⟩ : ∃ col', (cols.find? fun col' => col'.name = col.name) = some col' :=
    isSome_iff_exists.1 (find?_isSome.2 ⟨col, hcol, decide_eq_true rfl⟩)
  have hname : col'.name = col.name := by simpa using find?_some hfind
  rw [hfind, inj_on_of_nodup_map hnodup (mem_of_find?_eq_some hfind) hcol hname]

/-- An appended column has its type, and other keys keep theirs. -/
theorem columnType_append (h : Pointing c) (hnodup : (cols.map Column.name).Nodup) (k : GoString) :
    (c.append cols).columnType k =
      ((cols.find? fun col => col.name = k).map Column.dataType).or (c.columnType k) := by
  induction cols generalizing c with
  | nil => rfl
  | cons col cols ih =>
    rw [map_cons, nodup_cons] at hnodup
    rw [TargetColumns.append_cons, ih (h.builtin _ _ _) hnodup.2, columnType_builtin h, find?_cons]
    by_cases hk : col.name = k
    · have hnone : (cols.find? fun col => col.name = k) = none := by
        rw [find?_eq_none]
        intro _ hcol' heq
        exact hnodup.1 (hk ▸ of_decide_eq_true heq ▸ mem_map_of_mem hcol')
      rw [hnone, if_pos hk.symm, decide_eq_true hk]
      rfl
    · rw [if_neg (Ne.symm hk), decide_eq_false hk]

namespace Mapper

variable {d : Mapper} {ms : List (Metric 𝔽)} {k : GoString}

/-- The types of the built-in columns are not derived from values. -/
theorem ne_derivePgDatatype_of_init {ty : PgDataType}
    (h : d.init.columnType k = some ty) (v : FieldValue 𝔽) : ty ≠ derivePgDatatype v := by
  have hmem : ty ∈ d.init.dataTypes := by
    obtain ⟨i, -, hi⟩ := bind_eq_some_iff.1 h
    exact mem_of_getElem? hi
  have hbuiltin : ∀ ty ∈ d.init.dataTypes, ty ≠ .boolean ∧ ty ≠ .int8 ∧ ty ≠ .float8 ∧
      ty ≠ .text := by
    obtain ⟨a, b, c⟩ := d
    cases a <;> cases b <;> cases c <;> decide
  obtain ⟨_, _, _, _⟩ := hbuiltin ty hmem
  rcases derivePgDatatype_cases v with h | h | h | h <;> rw [h] <;> assumption

/-- The type of a key's column is that of the first column for the key, if this is in the main
table. -/
theorem columnType_place (hfj : d.fieldsAsJSON = false) (hcol : d.firstColumn k ms = some col) :
    (d.place (d.added ms) d.init d.initTags).1.columnType k =
      if d.inTagTable col then d.init.columnType k else some col.dataType := by
  have hname : col.name = k := by simpa using find?_some hcol
  have hadded : d.added ms = newColumns [] (ms.flatMap d.columnsOf) := by
    rw [added, hfj, Bool.and_false, if_neg Bool.false_ne_true]
  have hmem : col ∈ d.added ms := by
    rw [hadded, mem_newColumns, hname]
    exact ⟨not_mem_nil, hcol⟩
  subst hname
  rw [place, columnType_append (wellFormed_init d).pointing (nodup_added _)]
  split_ifs with htag
  · have hnone : (((d.added ms).filter fun col => !d.inTagTable col).find?
        fun col' => col'.name = col.name) = none := by
      rw [find?_eq_none]
      intro col' hcol' heq
      obtain ⟨hcol', hmain⟩ := mem_filter.1 hcol'
      rw [hadded, mem_newColumns, of_decide_eq_true heq] at hcol'
      rw [some.inj (hcol'.2.symm.trans hcol), htag] at hmain
      cases hmain
    rw [hnone]
    rfl
  · have hmain : col ∈ (d.added ms).filter fun col => !d.inTagTable col :=
      mem_filter.2 ⟨hmem, by simp [htag]⟩
    rw [find?_name_eq_some (nodup_added _) hmain]
    rfl

theorem exists_firstColumn {m : Metric 𝔽} (hm : m ∈ ms) {f : Field 𝔽} (hf : f ∈ m.fields) :
    ∃ col, d.firstColumn f.key ms = some col := by
  refine isSome_iff_exists.1 (find?_isSome.2
    ⟨⟨f.key, derivePgDatatype f.value, .fieldCol⟩, ?_, decide_eq_true rfl⟩)
  exact mem_flatMap.2 ⟨m, hm, mem_append_right _ (mem_map.2 ⟨f, hf, rfl⟩)⟩

/-- The columns can hold the fields of all metrics exactly if all values of a key have the type of
the first column for it, in the main table, and no unsigned value is too large. -/
theorem target_covers_iff (hfj : d.fieldsAsJSON = false) {indices : List ℕ}
    {metrics : List (Metric 𝔽)} {c : TargetColumns} {tagC : Option TargetColumns}
    (h : d.target indices metrics = some (c, tagC)) :
    Covers (visited indices metrics) c ↔ d.Uniform (visited indices metrics) := by
  obtain ⟨rfl, rfl⟩ := Prod.ext_iff.1 (target_eq h)
  refine forall₂_congr fun m hm => forall₂_congr fun f hf => ?_
  obtain ⟨col, hcol⟩ := exists_firstColumn (d := d) hm hf
  have htype := columnType_place hfj hcol
  constructor
  · rintro ⟨_, hty, hcontain, hrange⟩
    rw [canContain_iff] at hcontain
    rw [htype] at hty
    split_ifs at hty with htag
    · exact absurd hcontain (ne_derivePgDatatype_of_init hty f.value)
    · cases hty
      refine ⟨col, hcol, by simpa using htag, hcontain, fun v hv => ?_⟩
      rw [hcontain, hv] at hrange
      exact (inInt8Range_iff _).1 (hrange rfl) v rfl
  · rintro ⟨_, hcol', htag, hty, hrange⟩
    obtain rfl := some.inj (hcol.symm.trans hcol')
    rw [htag, if_neg Bool.false_ne_true] at htype
    refine ⟨col.dataType, htype, (canContain_iff _ _).2 hty, fun _ => ?_⟩
    exact (inInt8Range_iff _).2 hrange

/-- A batch of one measurement with the field `value`. -/
def valueBatch (vs : List (FieldValue ℤ)) : List (Metric ℤ) :=
  vs.map fun v => (Metric.empty (str "cpu") 0 .untyped).addField (str "value") v

theorem target_covers_int_uint : ∃ c,
    (⟨false, false, false⟩ : Mapper).target [0, 1] (valueBatch [.int 1, .uint 2]) =
        some (c, none) ∧
      Covers (valueBatch [.int 1, .uint 2]) c := by
  refine Exists.imp (fun c h => ⟨h, (target_covers_iff rfl h).2 ?_⟩) ⟨_, rfl⟩
  intro m hm f hf
  have hfields : ∀ m ∈ valueBatch [.int 1, .uint 2], ∀ f ∈ m.fields,
      f = ⟨str "value", .int 1⟩ ∨ f = ⟨str "value", .uint 2⟩ := by decide
  rcases hfields m hm f hf with rfl | rfl
  · exact ⟨⟨str "value", .int8, .fieldCol⟩, rfl, rfl, rfl, fun v hv => nomatch hv⟩
  · refine ⟨⟨str "value", .int8, .fieldCol⟩, rfl, rfl, rfl, fun v hv => ?_⟩
    cases hv
    decide

/-- A text in a column of integers, and an unsigned value over the range of its column. -/
theorem not_covers_text_uint :
    (∃ c, (⟨false, false, false⟩ : Mapper).target [0, 1]
        (valueBatch [.int 1, .string (str "a")]) = some (c, none) ∧
      ¬Covers (valueBatch [.int 1, .string (str "a")]) c) ∧
    ∃ c, (⟨false, false, false⟩ : Mapper).target [0] (valueBatch [.uint (2 ^ 63)]) =
        some (c, none) ∧
      ¬Covers (valueBatch [.uint (2 ^ 63)]) c := by
  refine ⟨⟨_, rfl, fun h => ?_⟩, ⟨_, rfl, fun h => ?_⟩⟩
  · obtain ⟨ty, hty, hcontain, -⟩ := h _ (mem_cons_of_mem _ mem_cons_self)
      ⟨str "value", .string (str "a")⟩ (by decide)
    cases hty
    exact absurd hcontain (by decide)
  · obtain ⟨ty, hty, -, hrange⟩ := h _ mem_cons_self ⟨str "value", .uint (2 ^ 63)⟩ mem_cons_self
    cases hty
    have hlt : (2 ^ 63 : UInt64).toNat < 2 ^ 63 := (inInt8Range_iff _).1 (hrange rfl) _ rfl
    rw [show (2 ^ 63 : UInt64) = 9223372036854775808 by decide +kernel] at hlt
    exact absurd hlt (by simp)

end Mapper

end Telegraf.Postgresql
