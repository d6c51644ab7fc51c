import Telegraf.MetricObjects
import Telegraf.SeriesGrouper

/-!
# The types of field values

Which calls of `New`, `AddField`, `RemoveField`, `Copy` and `SeriesGrouper.Add` leave only values of
the supported types in the metrics. `New` leaves out a field whose value `convertField` cannot
convert, but `AddField` stores what `convertField` returns, nil included. So the values are of the
supported types along a run if and only if no call of `AddField`, by the user or by a grouper that
has the group already, is given a value that cannot be converted (`fields_supported_iff`).
-/

open List hiding getElem?_eq_some_iff

namespace Telegraf

open KeyedLists Option Machine

/-! ## Values -/

section Values

variable {𝔽 : Type*}

/-- All fields have values of the supported types. -/
def Supported (fields : List (Field 𝔽)) : Prop :=
  ∀ f ∈ fields, f.value ≠ .nil

/-- The values that a call gives to fields of metrics, after `n` metrics were made. -/
def Update.given (n : ℕ) : Update 𝔽 → List (ℕ × GoString × GoValue 𝔽)
  | .new _ _ fields _ _ => fields.entries.map fun e => (n, e.1, e.2)
  | .addField i key value => [(i, key, value)]
  | _ => []

/-- The call does not give `AddField` a value that cannot be converted. -/
def Update.Converts : Update 𝔽 → Prop
  | .addField _ _ value => convertField value ≠ .nil
  | _ => True

theorem mem_insertField {key : GoString} {value : FieldValue 𝔽} {f : Field 𝔽} :
    ∀ {fields : List (Field 𝔽)}, f ∈ insertField key value fields →
      f = ⟨key, value⟩ ∨ f ∈ fields
  | [], h => .inl (List.mem_singleton.1 h)
  | g :: fields, h => by
    rw [insertField] at h
    split_ifs at h
    · rcases mem_cons.1 h with h | h
      · exact .inl h
      · exact .inr (mem_cons_of_mem _ h)
    · rcases mem_cons.1 h with h | h
      · exact .inr (h ▸ mem_cons_self)
      · exact (mem_insertField h).imp_right (mem_cons_of_mem _)

theorem mem_insertField_self (key : GoString) (value : FieldValue 𝔽) :
    ∀ fields : List (Field 𝔽), ⟨key, value⟩ ∈ insertField key value fields
  | [] => List.mem_singleton_self _
  | g :: fields => by
    rw [insertField]
    split_ifs
    · exact mem_cons_self
    · exact mem_cons_of_mem _ (mem_insertField_self key value fields)

theorem supported_insertField_iff {fields : List (Field 𝔽)} (h : Supported fields) (key : GoString)
    (value : FieldValue 𝔽) : Supported (insertField key value fields) ↔ value ≠ .nil := by
  refine ⟨fun h' => h' _ (mem_insertField_self key value fields), fun hvalue f hf => ?_⟩
  rcases mem_insertField hf with rfl | hf
  · exact hvalue
  · exact h f hf

/-- `New` takes only values that can be converted. -/
theorem supported_ofMaps (name : GoString) (tags : GoMap GoString) (fields : GoMap (GoValue 𝔽))
    (tm : ℤ) (tp : Option ValueType) : Supported (Metric.ofMaps name tags fields tm tp).fields := by
  have hfold : ∀ (entries : List (GoString × GoValue 𝔽)) (fs : List (Field 𝔽)), Supported fs →
      Supported (entries.foldl addEntry fs) := by
    intro entries
    induction entries with
    | nil => exact fun fs hfs => hfs
    | cons e entries ih =>
      intro fs hfs
      refine ih _ ?_
      unfold addEntry
      split
      · exact hfs
      · next v hv =>
        rw [convertField_toGoValue]
        exact (supported_insertField_iff hfs _ _).2 hv
  exact hfold fields.entries [] (fun f hf => absurd hf not_mem_nil)

theorem not_mem_ofMaps {name : GoString} {tags : GoMap GoString} {fields : GoMap (GoValue 𝔽)}
    {tm : ℤ} {tp : Option ValueType} {e : GoString × GoValue 𝔽} (he : e ∈ fields.entries)
    (hnil : convertField e.2 = .nil) :
    e.1 ∉ (Metric.ofMaps name tags fields tm tp).fields.map Field.key := by
  have hlookup := congrFun (congrArg MetricMap.fields
    (Metric.toMap_ofMaps name tags fields tm tp)) e.1
  have hget : fields.get e.1 = some e.2 := (lookup_eq_some_iff fields.nodup).2 ⟨e, he, rfl, rfl⟩
  have hnone : (MetricMap.ofMaps name tags fields).fields e.1 = none := by
    simp only [MetricMap.ofMaps, hget, bind_some, converted, hnil]
  intro hmem
  obtain ⟨f, hf, hkey⟩ := mem_map.1 hmem
  have hsome : (Metric.ofMaps name tags fields tm tp).toMap.fields e.1 = some f.value :=
    (lookup_eq_some_iff (Metric.ofMaps name tags fields tm tp).fields_nodup).2 ⟨f, hf, hkey, rfl⟩
  rw [hlookup, hnone] at hsome
  cases hsome

/-- All metrics have only values of the supported types. -/
def AllSupported (ms : List (Metric 𝔽)) : Prop :=
  ∀ m ∈ ms, Supported m.fields

variable {ms : List (Metric 𝔽)} {m : Metric 𝔽}

theorem AllSupported.set (h : AllSupported ms) {i : ℕ}
    (hm : Supported m.fields) : AllSupported (ms.set i m) := by
  intro m' hm'
  rcases mem_or_eq_of_mem_set hm' with hm' | rfl
  · exact h m' hm'
  · exact hm

theorem AllSupported.concat (h : AllSupported ms)
    (hm : Supported m.fields) : AllSupported (ms ++ [m]) := by
  intro m' hm'
  rcases mem_append.1 hm' with hm' | hm'
  · exact h m' hm'
  · rw [mem_singleton.1 hm']
    exact hm

/-- A call keeps the values supported and leaves out what cannot be converted, if and only if it
does not give such a value to `AddField`. -/
theorem AllSupported.step_iff {ms ms' : List (Metric 𝔽)} (h : AllSupported ms) {u : Update 𝔽}
    (hstep : Metric.step ms u = some ms') :
    (AllSupported ms' ∧ ∀ x ∈ u.given ms.length, convertField x.2.2 = .nil →
      ∃ m, ms'[x.1]? = some m ∧ x.2.1 ∉ m.fields.map Field.key) ↔ u.Converts := by
  have hnone : ∀ {P : ℕ × GoString × GoValue 𝔽 → Prop}, ∀ x ∈ ([] : List _), P x :=
    fun x hx => absurd hx not_mem_nil
  cases u with
  | new name tags fields tm tp =>
    cases hstep
    refine ⟨fun _ => trivial, fun _ => ⟨h.concat (supported_ofMaps name tags fields tm tp), ?_⟩⟩
    intro x hx hnil
    obtain ⟨e, he, rfl⟩ := mem_map.1 hx
    exact ⟨_, getElem?_concat_length, not_mem_ofMaps he hnil⟩
  | addTag i key value | removeTag i key =>
    obtain ⟨m, hm, rfl⟩ := map_eq_some_iff.1 hstep
    exact ⟨fun _ => trivial, fun _ => ⟨h.set (h m (mem_of_getElem? hm)), hnone⟩⟩
  | addField i key value =>
    obtain ⟨m, hm, rfl⟩ := map_eq_some_iff.1 hstep
    have hiff := supported_insertField_iff (h m (mem_of_getElem? hm)) key (convertField value)
    constructor
    · rintro ⟨hall, -⟩
      obtain ⟨hlt, -⟩ := List.getElem?_eq_some_iff.1 hm
      exact hiff.1 (hall _ (mem_set hlt _))
    · intro hconverts
      refine ⟨h.set (hiff.2 hconverts), fun x hx hnil => ?_⟩
      rw [mem_singleton.1 hx] at hnil
      exact absurd hnil hconverts
  | removeField =>
    obtain ⟨m, hm, rfl⟩ := map_eq_some_iff.1 hstep
    refine ⟨fun _ => trivial, fun _ => ⟨h.set fun f hf => ?_, hnone⟩⟩
    exact h m (mem_of_getElem? hm) f (eraseP_subset hf)
  | copy =>
    obtain ⟨m, hm, rfl⟩ := map_eq_some_iff.1 hstep
    exact ⟨fun _ => trivial, fun _ => ⟨h.concat (h m (mem_of_getElem? hm)), hnone⟩⟩

end Values

/-! ## Metrics in memory -/

namespace Memory

variable {𝔽 : Type} {w w' : Memory 𝔽} {ms : List (Metric 𝔽)}

/-- All values in the field lists are of the supported types. -/
def AllSupported (w : Memory 𝔽) : Prop :=
  ∀ i fields, w.fieldList i = some fields → Supported fields

/-- The metric has no field with the key. -/
def Absent (w : Memory 𝔽) (i : ℕ) (key : GoString) : Prop :=
  ∃ fields, w.fieldList i = some fields ∧ key ∉ fields.map Field.key

theorem Holds.fieldList_eq_some_iff (hw : Holds w ms) (i : ℕ) (fields : List (Field 𝔽)) :
    w.fieldList i = some fields ↔ ∃ m, ms[i]? = some m ∧ m.fields = fields := by
  constructor
  · intro h
    obtain ⟨o, ho, -⟩ := bind_eq_some_iff.1 h
    obtain ⟨hlt, -⟩ := List.getElem?_eq_some_iff.1 ho
    have hm : ms[i]? = some _ := getElem?_eq_getElem (hw.length_eq ▸ hlt)
    rw [hw.fieldList_eq hm] at h
    exact ⟨_, hm, some.inj h⟩
  · rintro ⟨m, hm, rfl⟩
    exact hw.fieldList_eq hm

theorem Holds.allSupported_iff (hw : Holds w ms) : w.AllSupported ↔ Telegraf.AllSupported ms := by
  constructor
  · intro h m hm
    obtain ⟨i, hi⟩ := mem_iff_getElem?.1 hm
    exact h i m.fields (hw.fieldList_eq hi)
  · intro h i fields hfields
    obtain ⟨m, hm, rfl⟩ := (hw.fieldList_eq_some_iff i fields).1 hfields
    exact h m (mem_of_getElem? hm)

theorem Holds.absent_iff (hw : Holds w ms) (i : ℕ) (key : GoString) :
    w.Absent i key ↔ ∃ m, ms[i]? = some m ∧ key ∉ m.fields.map Field.key := by
  constructor
  · rintro ⟨fields, hfields, hkey⟩
    obtain ⟨m, hm, rfl⟩ := (hw.fieldList_eq_some_iff i fields).1 hfields
    exact ⟨m, hm, hkey⟩
  · rintro ⟨m, hm, hkey⟩
    exact ⟨m.fields, hw.fieldList_eq hm, hkey⟩

/-- A call that returns does what it does to the values. -/
theorem Holds.of_step (hw : Holds w ms) {growth : ℕ → ℕ} {u : Update 𝔽}
    (h : w.step growth u = some w') : ∃ ms', Metric.step ms u = some ms' ∧ Holds w' ms' := by
  have hexists : ∀ {i : ℕ} {o : MetricObject}, w.metrics[i]? = some o → ∃ m, ms[i]? = some m := by
    intro i o ho
    obtain ⟨hlt, -⟩ := List.getElem?_eq_some_iff.1 ho
    exact ⟨_, getElem?_eq_getElem (hw.length_eq ▸ hlt)⟩
  have hstep : ∃ ms', Metric.step ms u = some ms' := by
    cases u with
    | new => exact ⟨_, rfl⟩
    | _ =>
      obtain ⟨o, ho, -⟩ := bind_eq_some_iff.1 h
      obtain ⟨m, hm⟩ := hexists ho
      exact ⟨_, map_eq_some_iff.2 ⟨m, hm, rfl⟩⟩
  obtain ⟨ms', hms'⟩ := hstep
  obtain ⟨_, hw₁, hholds⟩ := hw.step growth hms'
  obtain rfl := some.inj (hw₁.symm.trans h)
  exact ⟨ms', hms', hholds⟩

end Memory

/-! ## Calls -/

variable {𝔽 : Type}

/-- A call on the metrics, or on one of several groupers. -/
inductive FieldCall (𝔽 : Type) where
  | update (u : Update 𝔽)
  | newSeriesGrouper
  | groupAdd (j : ℕ) (e : Entry 𝔽)

namespace FieldCall

/-- What the call does to the metrics. -/
def update? (st : List SeriesGrouper × Memory 𝔽) : FieldCall 𝔽 → Option (Update 𝔽)
  | .update u => some u
  | .newSeriesGrouper => none
  | .groupAdd j e => (st.1[j]?).map fun g => (g.add st.2.metrics.length e).2

/-- The calls on the groupers and the metrics in memory. -/
def step (growth : ℕ → ℕ) (st : List SeriesGrouper × Memory 𝔽) :
    FieldCall 𝔽 → Option (List SeriesGrouper × Memory 𝔽)
  | .update u => (st.2.step growth u).map fun w => (st.1, w)
  | .newSeriesGrouper => some (st.1 ++ [SeriesGrouper.new], st.2)
  | .groupAdd j e => do
    let g ← st.1[j]?
    let w ← st.2.step growth (g.add st.2.metrics.length e).2
    pure (st.1.set j (g.add st.2.metrics.length e).1, w)

/-- After the call all values are of the supported types, and what could not be converted is not
there. -/
def KeepsTypes (growth : ℕ → ℕ) (st : List SeriesGrouper × Memory 𝔽) (call : FieldCall 𝔽) : Prop :=
  ∀ st', step growth st call = some st' → st'.2.AllSupported ∧
    ∀ u, call.update? st = some u → ∀ x ∈ u.given st.2.metrics.length,
      convertField x.2.2 = .nil → st'.2.Absent x.1 x.2.1

/-- The call does not give a value that cannot be converted to `AddField` of a metric, directly or
by a grouper that has the group already. -/
def Converts (st : List SeriesGrouper × Memory 𝔽) : FieldCall 𝔽 → Prop
  | .update (.addField i _ value) => i < st.2.metrics.length → convertField value ≠ .nil
  | .groupAdd j e => ∀ g i, st.1[j]? = some g → get g.metrics e.id = some i →
      i < st.2.metrics.length → convertField e.value ≠ .nil
  | _ => True

theorem isSome_step_addField (ms : List (Metric 𝔽)) (i : ℕ) (key : GoString)
    (value : GoValue 𝔽) : (Metric.step ms (.addField i key value)).isSome ↔ i < ms.length := by
  simp [Metric.step, updateAt]

section Steps

variable {st : List SeriesGrouper × Memory 𝔽} {ms : List (Metric 𝔽)} (hw : st.2.Holds ms)
include hw

/-- The condition says that the call does not give such a value to `AddField`. -/
theorem converts_iff (call : FieldCall 𝔽) :
    call.Converts st ↔ ∀ u, call.update? st = some u → (Metric.step ms u).isSome → u.Converts := by
  cases call with
  | newSeriesGrouper =>
    exact ⟨fun _ u hu => absurd hu (some_ne_none u).symm, fun _ => trivial⟩
  | update u =>
    cases u with
    | addField i key value =>
      rw [Converts, hw.length_eq]
      constructor
      · rintro h u hu hstep
        cases hu
        exact h ((isSome_step_addField ms i key value).1 hstep)
      · exact fun h hi => h _ rfl ((isSome_step_addField ms i key value).2 hi)
    | _ => exact ⟨fun _ u hu _ => some.inj hu ▸ trivial, fun _ => trivial⟩
  | groupAdd j e =>
    rw [Converts, hw.length_eq]
    constructor
    · rintro h u hu hstep
      obtain ⟨g, hg, rfl⟩ := map_eq_some_iff.1 hu
      cases hget : get g.metrics e.id with
      | none =>
        rw [SeriesGrouper.add, hget]
        trivial
      | some i =>
        rw [SeriesGrouper.add, hget] at hstep ⊢
        exact h g i hg hget ((isSome_step_addField ms i e.field e.value).1 hstep)
    · intro h g i hg hget hi
      have hu : (groupAdd j e).update? st = some (.addField i e.field e.value) := by
        rw [update?, hg, map_some, SeriesGrouper.add, hget]
      exact h _ hu ((isSome_step_addField ms i e.field e.value).2 hi)

variable {call : FieldCall 𝔽}

/-- A call that can be made makes its update, if it has one. -/
theorem step_cases {growth : ℕ → ℕ}
    {st' : List SeriesGrouper × Memory 𝔽} (h : step growth st call = some st') :
    (call.update? st = none ∧ st'.2 = st.2) ∨
      ∃ u ms', call.update? st = some u ∧ Metric.step ms u = some ms' ∧ st'.2.Holds ms' := by
  cases call with
  | newSeriesGrouper =>
    cases h
    exact .inl ⟨rfl, rfl⟩
  | update u =>
    obtain ⟨w, hstep, rfl⟩ := map_eq_some_iff.1 h
    obtain ⟨ms', hms', hw'⟩ := hw.of_step hstep
    exact .inr ⟨u, ms', rfl, hms', hw'⟩
  | groupAdd =>
    obtain ⟨g, hg, h⟩ := bind_eq_some_iff.1 h
    obtain ⟨w, hstep, h⟩ := bind_eq_some_iff.1 h
    cases h
    obtain ⟨ms', hms', hw'⟩ := hw.of_step hstep
    refine .inr ⟨_, ms', ?_, hms', hw'⟩
    rw [update?, hg, map_some]

theorem exists_step (growth : ℕ → ℕ) {u : Update 𝔽} (hu : call.update? st = some u)
    (hstep : (Metric.step ms u).isSome) : ∃ st', step growth st call = some st' := by
  obtain ⟨_, hms'⟩ := isSome_iff_exists.1 hstep
  obtain ⟨w, hw', -⟩ := hw.step growth hms'
  cases call with
  | newSeriesGrouper => cases hu
  | update =>
    cases hu
    exact ⟨_, by rw [step, hw']; rfl⟩
  | groupAdd j e =>
    obtain ⟨g, hg, rfl⟩ := map_eq_some_iff.1 hu
    refine ⟨(st.1.set j (g.add st.2.metrics.length e).1, w), ?_⟩
    rw [step, hg, bind_eq_bind, bind_some, hw']
    rfl

theorem keepsTypes_iff (hall : AllSupported ms) (growth : ℕ → ℕ) (call : FieldCall 𝔽) :
    KeepsTypes growth st call ↔ call.Converts st := by
  rw [converts_iff hw]
  constructor
  · intro hkeeps u hu hstep
    obtain ⟨st', hst'⟩ := exists_step hw growth hu hstep
    obtain ⟨hall', habsent⟩ := hkeeps st' hst'
    rcases step_cases hw hst' with ⟨hnone, -⟩ | ⟨u', ms', hu', hms', hw'⟩
    · rw [hnone] at hu
      cases hu
    · obtain rfl := some.inj (hu'.symm.trans hu)
      refine (hall.step_iff hms').1 ⟨hw'.allSupported_iff.1 hall', fun x hx hnil => ?_⟩
      exact (hw'.absent_iff _ _).1 (habsent _ hu x (hw.length_eq ▸ hx) hnil)
  · intro hconverts st' hst'
    rcases step_cases hw hst' with ⟨hnone, heq⟩ | ⟨u, ms', hu, hms', hw'⟩
    · rw [heq, hnone]
      exact ⟨hw.allSupported_iff.2 hall, fun u hu => nomatch hu⟩
    · obtain ⟨hall', habsent⟩ := (hall.step_iff hms').2 (hconverts u hu (by rw [hms']; rfl))
      refine ⟨hw'.allSupported_iff.2 hall', fun u' hu' x hx hnil => ?_⟩
      obtain rfl := some.inj (hu'.symm.trans hu)
      rw [hw.length_eq] at hx
      exact (hw'.absent_iff _ _).2 (habsent x hx hnil)

end Steps

/-- For every sequence of calls : after each of them all values in the field lists are of the
supported types and what could not be converted is not there, if and only if none gives a value
that cannot be converted to `AddField` of a metric. -/
theorem fields_supported_iff (growth : ℕ → ℕ) (calls : List (FieldCall 𝔽)) :
    AllSteps (step growth) (KeepsTypes growth) ([], Memory.empty) calls ↔
      AllSteps (step growth) (fun st call => call.Converts st) ([], Memory.empty) calls := by
  refine allSteps_congr
    (P := fun _ st => ∃ ms, Memory.Holds st.2 ms ∧ AllSupported ms) ?_ ?_ calls [] _ rfl
    ⟨[], Memory.holds_empty, fun m hm => absurd hm not_mem_nil⟩
  · rintro - st call - ⟨ms, hw, hall⟩
    exact keepsTypes_iff hw hall growth call
  · rintro - st call st' ⟨ms, hw, hall⟩ hkeeps hst'
    have hall' := (hkeeps st' hst').1
    rcases step_cases hw hst' with ⟨-, heq⟩ | ⟨u, ms', -, -, hw'⟩
    · rw [heq]
      exact ⟨ms, hw, hall⟩
    · exact ⟨ms', hw', hw'.allSupported_iff.1 hall'⟩

/-- A nil pointer for a field that there is. -/
def nilPointer : List (FieldCall Unit) :=
  [.update (.new (str "cpu") ⟨[], List.nodup_nil⟩
      ⟨[(str "idle", .scalar (.int 3))], List.nodup_singleton _⟩ 0 none),
    .update (.addField 0 (str "idle") (.pointer none))]

theorem nil_field_present :
    ∃ st, run (step fun n => n) ([], Memory.empty) nilPointer = some st ∧
      st.2.fieldList 0 = some [⟨str "idle", .nil⟩] ∧
      ¬AllSteps (step fun n => n) (KeepsTypes fun n => n) ([], Memory.empty) nilPointer := by
  have hread : (run (step fun n => n) ([], Memory.empty) nilPointer).bind
      (fun st => st.2.fieldList 0) = some [⟨str "idle", .nil⟩] := by decide +kernel
  obtain ⟨st, hrun, hfields⟩ := bind_eq_some_iff.1 hread
  refine ⟨st, hrun, hfields, fun hall => ?_⟩
  rw [nilPointer, run_cons] at hrun
  obtain ⟨st₁, hst₁, hrun⟩ := bind_eq_some_iff.1 hrun
  rw [run_cons] at hrun
  obtain ⟨st₂, hst₂, hrun⟩ := bind_eq_some_iff.1 hrun
  obtain rfl := some.inj hrun
  exact ((hall.2 st₁ hst₁).1 st₂ hst₂).1 0 _ hfields _ (mem_singleton_self _) rfl

end FieldCall

end Telegraf
