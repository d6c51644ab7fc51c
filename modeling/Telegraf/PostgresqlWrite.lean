import Telegraf.OutputRuns
import Telegraf.PostgresqlRows

/-!
# Writing batches to PostgreSQL

`Postgresql.Write` (`plugins/outputs/postgresql/postgresql.go`) groups a batch by measurement
and copies each group into its table, in the order in which Go goes through a map, until a call
to the database fails. A copy is atomic, the write is not.

`nothingLeft_iff` : a failed write leaves nothing behind for certain exactly if the metrics of
the batch are of one measurement. `stored_once` : in every run of an output that sends such
batches only, each metric is in the buffer or in a table, once.
-/

open List

namespace Telegraf.Postgresql

open Handle OutputConfig

variable {𝔽 J ε : Type}

/-! ## Groups -/

/-- An index for a name. -/
def addIndex (name : GoString) (i : ℕ) : List (GoString × List ℕ) → List (GoString × List ℕ)
  | [] => [(name, [i])]
  | (n, locations) :: groups =>
    if n = name then (n, locations ++ [i]) :: groups
    else (n, locations) :: addIndex name i groups

/-- `utils.GroupMetricsByMeasurement`, from the `i`th metric on. The map is a list in the order
in which its keys came. -/
def groupFrom : ℕ → List (Metric 𝔽) → List (GoString × List ℕ) → List (GoString × List ℕ)
  | _, [], groups => groups
  | i, m :: metrics, groups => groupFrom (i + 1) metrics (addIndex m.name i groups)

def groupMetricsByMeasurement (metrics : List (Metric 𝔽)) : List (GoString × List ℕ) :=
  groupFrom 0 metrics []

/-! ## The output -/

/-- The settings of `Postgresql` that a write depends on. -/
structure Settings where
  doSchemaUpdates : Bool
  tagsAsForeignkeys : Bool
  tagsAsJsonb : Bool
  fieldsAsJsonb : Bool
deriving Repr, DecidableEq

/-- How the calls to the database go during a write : the check or reset of the connection, the
preparation of the table of the `i`th measurement and of its tags table, the lookup of the tag
id for its `j`th row, and the copy. -/
structure DbCalls (𝔽 J ε : Type) where
  connect : Except ε Unit
  prepareTable : ℕ → Except ε Unit
  prepareTagTable : ℕ → Except ε Unit
  getTagID : ℕ → ℕ → Except ε ℤ
  buildTagsJsonb : List Tag → Except ε J
  buildFieldsJsonb : List (Field 𝔽) → Except ε J
  doCopy : ℕ → Except ε Unit

/-- A row in a measurement's table, and the metric it was made from. -/
structure StoredRow (𝔽 J : Type) where
  table : GoString
  metric : Metric 𝔽
  row : List (Cell 𝔽 J)

/-- The result of a call to the database as one of the whole write. -/
def liftErr {α : Type} : Except ε α → Except (RowError ε) α :=
  Except.mapError .error

/-- A value that is missing is a panic. -/
def orPanic {α : Type} : Option α → Except (RowError ε) α
  | none => .error .panic
  | some a => .ok a

namespace Settings

variable (p : Settings) (calls : DbCalls 𝔽 J ε)

def mapper : Mapper :=
  ⟨p.tagsAsForeignkeys, p.tagsAsJsonb, p.fieldsAsJsonb⟩

/-- The transformer for the `j`th row of the `i`th measurement. -/
def rows (i j : ℕ) : Transformer 𝔽 J ε :=
  ⟨p.tagsAsForeignkeys, p.tagsAsJsonb, p.fieldsAsJsonb, fun _ _ => calls.getTagID i j,
    calls.buildTagsJsonb, calls.buildFieldsJsonb⟩

/-- The loop over the metrics of a measurement, from the `j`th on. -/
def createRows (i : ℕ) (measureName : GoString) (metrics : List (Metric 𝔽))
    (columns : TargetColumns) (tagColumns : Option TargetColumns) :
    ℕ → List ℕ → Except (RowError ε) (List (StoredRow 𝔽 J))
  | _, [] => .ok []
  | j, index :: indices => do
    let metric ← orPanic metrics[index]?
    let row ← (p.rows calls i j).createRowFromMetric columns.names.length metric columns tagColumns
    let rest ← createRows i measureName metrics columns tagColumns (j + 1) indices
    pure (⟨measureName, metric, row⟩ :: rest)

/-- The schema updates of `writeMetricsFromMeasure`. -/
def prepareTables (i : ℕ) : Except (RowError ε) Unit :=
  if p.doSchemaUpdates then do
    liftErr (calls.prepareTable i)
    if p.tagsAsForeignkeys then liftErr (calls.prepareTagTable i) else pure ()
  else pure ()

/-- `Postgresql.writeMetricsFromMeasure` : the rows that are copied, or an error. -/
def writeMetricsFromMeasure (i : ℕ) (measureName : GoString) (indices : List ℕ)
    (metrics : List (Metric 𝔽)) : Except (RowError ε) (List (StoredRow 𝔽 J)) := do
  let (columns, tagColumns) ← orPanic (p.mapper.target indices metrics)
  p.prepareTables calls i
  let values ← p.createRows calls i measureName metrics columns tagColumns 0 indices
  liftErr (calls.doCopy i)
  pure values

/-- The loop of `Write` over the measurements, from the `i`th on : the rows that are copied, and
the error that ends it. -/
def writeLoop (metrics : List (Metric 𝔽)) : ℕ → List (GoString × List ℕ) →
    List (StoredRow 𝔽 J) × Option (RowError ε)
  | _, [] => ([], none)
  | i, (measureName, indices) :: groups =>
    match p.writeMetricsFromMeasure calls i measureName indices metrics with
    | .error e => ([], some e)
    | .ok values =>
      let (rest, err) := writeLoop metrics (i + 1) groups
      (values ++ rest, err)

/-- `Postgresql.Write`, with the measurements in the order `groups`. -/
def write (groups : List (GoString × List ℕ)) (metrics : List (Metric 𝔽)) :
    List (StoredRow 𝔽 J) × Option (RowError ε) :=
  match calls.connect with
  | .error e => ([], some (.error e))
  | .ok () => p.writeLoop calls metrics 0 groups

end Settings

/-! ## The groups of a batch -/

section Groups

variable {name : GoString} {i : ℕ} {groups : List (GoString × List ℕ)}

theorem addIndex_perm (name : GoString) (i : ℕ) : ∀ groups : List (GoString × List ℕ),
    ((addIndex name i groups).flatMap Prod.snd).Perm (groups.flatMap Prod.snd ++ [i])
  | [] => by simp [addIndex]
  | (n, locations) :: groups => by
    rw [addIndex]
    split_ifs with hn
    · simp only [flatMap_cons, append_assoc]
      exact perm_append_comm.append_left locations
    · simp only [flatMap_cons, append_assoc]
      exact (addIndex_perm name i groups).append_left locations

theorem mem_addIndex_names {n : GoString} : ∀ {groups : List (GoString × List ℕ)},
    n ∈ (addIndex name i groups).map Prod.fst ↔ n ∈ groups.map Prod.fst ∨ n = name
  | [] => by simp [addIndex]
  | (n', locations) :: groups => by
    rw [addIndex]
    split_ifs with hn
    · simp only [map_cons, mem_cons, hn]
      tauto
    · simp only [map_cons, mem_cons, mem_addIndex_names, or_assoc]

theorem nodup_addIndex_names : ∀ {groups : List (GoString × List ℕ)},
    (groups.map Prod.fst).Nodup → ((addIndex name i groups).map Prod.fst).Nodup
  | [], _ => by simp [addIndex]
  | (n', locations) :: groups, h => by
    rw [map_cons, nodup_cons] at h
    rw [addIndex]
    split_ifs with hn
    · exact nodup_cons.2 h
    · refine nodup_cons.2 ⟨fun hmem => ?_, nodup_addIndex_names h.2⟩
      rcases mem_addIndex_names.1 hmem with hmem | heq
      · exact h.1 hmem
      · exact hn heq

theorem addIndex_ne_nil : ∀ {groups : List (GoString × List ℕ)}, (∀ g ∈ groups, g.2 ≠ []) →
    ∀ g ∈ addIndex name i groups, g.2 ≠ []
  | [], _ => by simp [addIndex]
  | (n', locations) :: groups, h => by
    rw [forall_mem_cons] at h
    rw [addIndex]
    split_ifs with hn
    · exact forall_mem_cons.2 ⟨by simp, h.2⟩
    · exact forall_mem_cons.2 ⟨h.1, addIndex_ne_nil h.2⟩

end Groups

/-- The groups of a batch : every index once, no group empty, one group for each name. -/
structure GroupsOf (metrics : List (Metric 𝔽)) (groups : List (GoString × List ℕ)) : Prop where
  perm : (groups.flatMap Prod.snd).Perm (List.range metrics.length)
  ne_nil : ∀ g ∈ groups, g.2 ≠ []
  names : ∀ n, n ∈ groups.map Prod.fst ↔ ∃ m ∈ metrics, m.name = n
  nodup : (groups.map Prod.fst).Nodup

theorem groupFrom_spec : ∀ (metrics : List (Metric 𝔽)) {before : List (Metric 𝔽)}
    {groups : List (GoString × List ℕ)}, GroupsOf before groups →
      GroupsOf (before ++ metrics) (groupFrom before.length metrics groups)
  | [], before, groups, h => by rwa [groupFrom, List.append_nil]
  | m :: metrics, before, groups, h => by
    have hstep : GroupsOf (before ++ [m]) (addIndex m.name before.length groups) := by
      refine ⟨?_, addIndex_ne_nil h.ne_nil, fun n => ?_, nodup_addIndex_names h.nodup⟩
      · rw [length_append, length_singleton, range_succ]
        exact (addIndex_perm _ _ _).trans (h.perm.append_right _)
      · rw [mem_addIndex_names, h.names]
        simp only [mem_append, mem_singleton, or_and_right, exists_or, exists_eq_left]
        rw [eq_comm]
    have hrec := groupFrom_spec metrics hstep
    rw [append_assoc, singleton_append, length_append, length_singleton] at hrec
    exact hrec

theorem groupsOf_group (metrics : List (Metric 𝔽)) :
    GroupsOf metrics (groupMetricsByMeasurement metrics) := by
  have hnil : GroupsOf ([] : List (Metric 𝔽)) [] := ⟨List.Perm.nil, by simp, by simp, by simp⟩
  exact groupFrom_spec metrics hnil

variable {metrics : List (Metric 𝔽)}

theorem GroupsOf.of_perm {groups groups' : List (GoString × List ℕ)}
    (h : GroupsOf metrics groups) (hperm : groups'.Perm groups) : GroupsOf metrics groups' where
  perm := (hperm.flatMap_right _).trans h.perm
  ne_nil := fun g hg => h.ne_nil g (hperm.subset hg)
  names := fun n => by rw [← h.names, (hperm.map Prod.fst).mem_iff]
  nodup := (hperm.map Prod.fst).nodup_iff.2 h.nodup

/-- The metrics of a batch are of one measurement. -/
def OneMeasurement (metrics : List (Metric 𝔽)) : Prop :=
  ∀ m ∈ metrics, ∀ m' ∈ metrics, m.name = m'.name

instance instDecidableOneMeasurement (metrics : List (Metric 𝔽)) :
    Decidable (OneMeasurement metrics) :=
  inferInstanceAs (Decidable (∀ m ∈ metrics, ∀ m' ∈ metrics, m.name = m'.name))

section

variable {metrics : List (Metric 𝔽)} {groups : List (GoString × List ℕ)}
  (h : GroupsOf metrics groups)

include h

theorem GroupsOf.length_le_one (hone : OneMeasurement metrics) : groups.length ≤ 1 := by
  match groups, h with
  | [], _ => exact Nat.zero_le 1
  | [_], _ => exact le_rfl
  | g :: g' :: groups, h =>
    obtain ⟨m, hm, hname⟩ := (h.names g.1).1 (by simp)
    obtain ⟨m', hm', hname'⟩ := (h.names g'.1).1 (by simp)
    have hne : g.1 ≠ g'.1 := by
      have := h.nodup
      simp only [map_cons, nodup_cons, mem_cons, not_or] at this
      exact this.1.1
    exact absurd (hname.symm.trans ((hone m hm m' hm').trans hname')) hne

theorem GroupsOf.oneMeasurement (hlen : groups.length ≤ 1) : OneMeasurement metrics := by
  intro m hm m' hm'
  obtain ⟨g, hg, hname⟩ := mem_map.1 ((h.names m.name).2 ⟨m, hm, rfl⟩)
  obtain ⟨_, hg', hname'⟩ := mem_map.1 ((h.names m'.name).2 ⟨m', hm', rfl⟩)
  match groups, hlen with
  | [g₀], _ => rw [← hname, ← hname', mem_singleton.1 hg, mem_singleton.1 hg']

theorem GroupsOf.index_lt {g : GoString × List ℕ} (hg : g ∈ groups) :
    ∀ i ∈ g.2, i < metrics.length := fun _ hi =>
  List.mem_range.1 (h.perm.subset (List.mem_flatMap.2 ⟨g, hg, hi⟩))

end

/-! ## What a write copies -/

namespace Settings

variable {p : Settings} {calls : DbCalls 𝔽 J ε} {metrics : List (Metric 𝔽)}
  {measureName : GoString} {columns : TargetColumns} {tagColumns : Option TargetColumns} {i : ℕ}

theorem orPanic_eq_ok {α : Type} {o : Option α} {a : α}
    (h : (orPanic o : Except (RowError ε) α) = .ok a) : o = some a := by
  cases o with
  | none => cases h
  | some => exact congrArg some (Except.ok.inj h)

theorem createRows_metric : ∀ {indices : List ℕ} {j : ℕ} {rows : List (StoredRow 𝔽 J)},
    p.createRows calls i measureName metrics columns tagColumns j indices = .ok rows →
      rows.map StoredRow.metric = indices.filterMap (metrics[·]?)
  | [], _, rows, h => by rw [← Except.ok.inj h]; rfl
  | index :: indices, j, rows, h => by
    rw [createRows] at h
    obtain ⟨metric, hmetric, h⟩ := bind_eq_ok h
    obtain ⟨_, -, h⟩ := bind_eq_ok h
    obtain ⟨_, hrest, h⟩ := bind_eq_ok h
    rw [← Except.ok.inj h, map_cons, createRows_metric hrest, filterMap_cons, orPanic_eq_ok hmetric]

theorem writeMetricsFromMeasure_metric {indices : List ℕ} {values : List (StoredRow 𝔽 J)}
    (h : p.writeMetricsFromMeasure calls i measureName indices metrics = .ok values) :
    values.map StoredRow.metric = indices.filterMap (metrics[·]?) := by
  rw [writeMetricsFromMeasure] at h
  obtain ⟨⟨_, _⟩, -, h⟩ := bind_eq_ok h
  obtain ⟨_, -, h⟩ := bind_eq_ok h
  obtain ⟨_, hrows, h⟩ := bind_eq_ok h
  obtain ⟨_, -, h⟩ := bind_eq_ok h
  rw [← Except.ok.inj h, createRows_metric hrows]

/-- A write without an error copies every metric of its groups. -/
theorem writeLoop_metric : ∀ {groups : List (GoString × List ℕ)} {i : ℕ},
    (p.writeLoop calls metrics i groups).2 = none →
      (p.writeLoop calls metrics i groups).1.map StoredRow.metric =
        (groups.flatMap Prod.snd).filterMap (metrics[·]?)
  | [], _, _ => rfl
  | (measureName, indices) :: groups, i, h => by
    rw [writeLoop] at h ⊢
    cases hvalues : p.writeMetricsFromMeasure calls i measureName indices metrics with
    | error => simp [hvalues] at h
    | ok =>
      simp only [hvalues] at h ⊢
      rw [map_append, writeMetricsFromMeasure_metric hvalues, writeLoop_metric h,
        flatMap_cons, filterMap_append]

theorem write_eq_of_connect (h : calls.connect = .ok ()) (groups : List (GoString × List ℕ)) :
    p.write calls groups metrics = p.writeLoop calls metrics 0 groups := by
  rw [write, h]

theorem filterMap_range_getElem? {α : Type} (l : List α) :
    (List.range l.length).filterMap (l[·]?) = l := by
  induction l using reverseRecOn with
  | nil => rfl
  | append_singleton l a ih =>
    rw [length_append, length_singleton, range_succ, filterMap_append]
    congr 1
    · refine Eq.trans (filterMap_congr fun i hi => ?_) ih
      exact getElem?_append_left (mem_range.1 hi)
    · simp

section

variable {groups : List (GoString × List ℕ)} (hgroups : GroupsOf metrics groups)

include hgroups

theorem write_metric_perm (h : (p.write calls groups metrics).2 = none) :
    ((p.write calls groups metrics).1.map StoredRow.metric).Perm metrics := by
  cases hconnect : calls.connect with
  | error => simp [write, hconnect] at h
  | ok =>
    rw [write_eq_of_connect hconnect] at h ⊢
    rw [writeLoop_metric h]
    refine (hgroups.perm.filterMap _).trans ?_
    rw [filterMap_range_getElem?]

/-- A failed write of one measurement copies nothing. -/
theorem write_of_oneMeasurement (hone : OneMeasurement metrics) {e : RowError ε}
    (h : (p.write calls groups metrics).2 = some e) : (p.write calls groups metrics).1 = [] := by
  cases hconnect : calls.connect with
  | error => rw [write, hconnect]
  | ok =>
    rw [write_eq_of_connect hconnect] at h ⊢
    match groups, hgroups.length_le_one hone with
    | [], _ => rfl
    | [(measureName, indices)], _ =>
      rw [writeLoop] at h ⊢
      cases hvalues : p.writeMetricsFromMeasure calls 0 measureName indices metrics with
      | error => rfl
      | ok => simp [hvalues, writeLoop] at h

end

end Settings

/-! ## A copy that fails -/

/-- Every call succeeds but the copy of the `n`th measurement. -/
def DbCalls.copyFails [Inhabited J] [Inhabited ε] (n : ℕ) : DbCalls 𝔽 J ε where
  connect := .ok ()
  prepareTable := fun _ => .ok ()
  prepareTagTable := fun _ => .ok ()
  getTagID := fun _ _ => .ok 0
  buildTagsJsonb := fun _ => .ok default
  buildFieldsJsonb := fun _ => .ok default
  doCopy := fun i => if i = n then .error default else .ok ()

namespace Settings

variable [Inhabited J] [Inhabited ε] {p : Settings} {metrics : List (Metric 𝔽)}
  {measureName : GoString} {columns : TargetColumns} {tagColumns : Option TargetColumns} {n i : ℕ}

theorem exists_createRows {added : List GoString} (h : Extends p.mapper.init columns added) :
    ∀ {indices : List ℕ} {j : ℕ}, (∀ i ∈ indices, i < metrics.length) →
      ∃ rows, p.createRows (DbCalls.copyFails n : DbCalls 𝔽 J ε) i measureName metrics columns
        tagColumns j indices = .ok rows
  | [], _, _ => ⟨[], rfl⟩
  | index :: indices, j, hrange => by
    rw [forall_mem_cons] at hrange
    obtain ⟨rest, hrest⟩ := exists_createRows h (j := j + 1) hrange.2
    obtain ⟨row, hrow⟩ : ∃ row, (p.rows (DbCalls.copyFails n : DbCalls 𝔽 J ε) i
        j).createRowFromMetric columns.names.length metrics[index] columns tagColumns = .ok row :=
      ⟨_, createRowFromMetric_eq (fun _ => rfl) (fun _ _ => rfl) (fun _ => rfl) h.index_lt
        fun hfk => h.lt_names (h.builtinLayout.tagID hfk).1⟩
    refine ⟨⟨measureName, metrics[index], row⟩ :: rest, ?_⟩
    rw [createRows, getElem?_eq_getElem hrange.1]
    simp only [orPanic, bind, Except.bind]
    rw [hrow, hrest]
    rfl

theorem prepareTables_copyFails :
    p.prepareTables (DbCalls.copyFails n : DbCalls 𝔽 J ε) i = .ok () := by
  rw [prepareTables]
  split_ifs <;> rfl

variable (p n i measureName) in
theorem writeMetricsFromMeasure_copyFails {indices : List ℕ}
    (hrange : ∀ i ∈ indices, i < metrics.length) :
    ∃ rows, rows.map StoredRow.metric = indices.filterMap (metrics[·]?) ∧
      p.writeMetricsFromMeasure (DbCalls.copyFails n : DbCalls 𝔽 J ε) i measureName indices
        metrics = if i = n then .error (.error default) else .ok rows := by
  obtain ⟨columns, tagColumns, _, htarget, hext, -⟩ := p.mapper.target_spec hrange
  obtain ⟨rows, hrows⟩ : ∃ rows, p.createRows (DbCalls.copyFails n : DbCalls 𝔽 J ε) i measureName
      metrics columns tagColumns 0 indices = .ok rows := exists_createRows hext hrange
  refine ⟨rows, createRows_metric hrows, ?_⟩
  rw [writeMetricsFromMeasure, htarget]
  simp only [orPanic, bind, Except.bind, prepareTables_copyFails, hrows]
  simp only [DbCalls.copyFails]
  split_ifs <;> rfl

end Settings

/-- Whatever call fails, and in whatever order the measurements come : a write of the batch that
returns an error has copied no row. -/
def NothingLeft (J ε : Type) (p : Settings) (metrics : List (Metric 𝔽)) : Prop :=
  ∀ (calls : DbCalls 𝔽 J ε) (groups : List (GoString × List ℕ)),
    groups.Perm (groupMetricsByMeasurement metrics) →
      ∀ e, (p.write calls groups metrics).2 = some e → (p.write calls groups metrics).1 = []

theorem not_nothingLeft [Inhabited J] [Inhabited ε] {p : Settings}
    (h : ¬OneMeasurement metrics) : ¬NothingLeft J ε p metrics := by
  intro hleft
  have hgroups := groupsOf_group metrics
  -- The first measurement is copied, the copy of the second fails.
  match hg : groupMetricsByMeasurement metrics with
  | [] | [_] => exact h (hgroups.oneMeasurement (by simp [hg]))
  | g :: g' :: groups =>
    rw [hg] at hgroups
    obtain ⟨rows, hrows, hfirst⟩ := Settings.writeMetricsFromMeasure_copyFails (J := J) (ε := ε)
      p g.1 1 0 (hgroups.index_lt (g := g) (by simp))
    obtain ⟨_, -, hsecond⟩ := Settings.writeMetricsFromMeasure_copyFails (J := J) (ε := ε)
      p g'.1 1 1 (hgroups.index_lt (g := g') (by simp))
    have hwrite : p.write (DbCalls.copyFails 1 : DbCalls 𝔽 J ε) (g :: g' :: groups) metrics =
        (rows, some (.error default)) := by
      rw [Settings.write_eq_of_connect rfl, Settings.writeLoop, hfirst, Settings.writeLoop, hsecond]
      simp
    have hnil := hleft (DbCalls.copyFails 1) _ (List.Perm.of_eq hg.symm) (.error default)
      (by rw [hwrite])
    rw [hwrite] at hnil
    obtain ⟨i, hi⟩ := exists_mem_of_ne_nil _ (hgroups.ne_nil g (by simp))
    have hlt := hgroups.index_lt (g := g) (by simp) i hi
    rw [show rows = [] from hnil, map_nil, eq_comm, filterMap_eq_nil_iff] at hrows
    simpa [hlt] using hrows i hi

theorem nothingLeft_iff_oneMeasurement [Inhabited J] [Inhabited ε] (p : Settings)
    (metrics : List (Metric 𝔽)) : NothingLeft J ε p metrics ↔ OneMeasurement metrics := by
  refine ⟨fun h => by_contra fun hone => not_nothingLeft hone h, ?_⟩
  intro hone _ _ hperm e h
  exact Settings.write_of_oneMeasurement ((groupsOf_group metrics).of_perm hperm) hone h

/-! ## Retries -/

/-- An output in use : its settings, and for its `n`th write how the calls go and in which order
the measurements come. -/
structure Session (𝔽 J ε : Type) where
  settings : Settings
  calls : ℕ → DbCalls 𝔽 J ε
  order : ℕ → List (Metric 𝔽) → List (GoString × List ℕ)
  order_perm : ∀ n metrics, (order n metrics).Perm (groupMetricsByMeasurement metrics)

/-- The metrics of a batch. -/
def batchMetrics (batch : List (Option (Handle 𝔽))) : List (Metric 𝔽) :=
  batch.reduceOption.map metric

namespace Session

variable (s : Session 𝔽 J ε)

/-- The `n`th write. -/
def write (n : ℕ) (batch : List (Option (Handle 𝔽))) : List (StoredRow 𝔽 J) × Option (RowError ε) :=
  s.settings.write (s.calls n) (s.order n (batchMetrics batch)) (batchMetrics batch)

/-- The rows in the tables after the calls `writes`. -/
def stored (writes : List (List (Option (Handle 𝔽)) × Bool)) : List (StoredRow 𝔽 J) :=
  writes.zipIdx.flatMap fun w => (s.write w.2 w.1.1).1

/-- The calls `writes` went as the database let them. -/
def Answers (writes : List (List (Option (Handle 𝔽)) × Bool)) : Prop :=
  ∀ w ∈ writes.zipIdx, w.1.2 = (s.write w.2 w.1.1).2.isNone

variable {s}

theorem write_metric_perm {n : ℕ} {batch : List (Option (Handle 𝔽))}
    (hone : OneMeasurement (batchMetrics batch)) :
    ((s.write n batch).1.map StoredRow.metric).Perm
      (if (s.write n batch).2.isNone then batchMetrics batch else []) := by
  have hgroups := (groupsOf_group (batchMetrics batch)).of_perm
    (s.order_perm n (batchMetrics batch))
  cases herr : (s.write n batch).2 with
  | none => exact Settings.write_metric_perm hgroups herr
  | some =>
    have hnil : (s.write n batch).1 = [] := Settings.write_of_oneMeasurement hgroups hone herr
    simp [hnil]

/-- The tables hold the metrics of the writes that succeeded. -/
theorem stored_perm_delivered : ∀ {writes : List (List (Option (Handle 𝔽)) × Bool)},
    s.Answers writes → (∀ w ∈ writes, OneMeasurement (batchMetrics w.1)) →
      ((s.stored writes).map StoredRow.metric).Perm
        ((RunningOutput.delivered writes).map metric) := by
  intro writes
  induction writes using reverseRecOn with
  | nil => exact fun _ _ => List.Perm.refl _
  | append_singleton writes w ih =>
    intro hans hone
    rw [Answers, zipIdx_append, forall_mem_append] at hans
    rw [forall_mem_append] at hone
    have hlast := hans.2 (w, writes.length) (by simp)
    have hwrite := write_metric_perm (s := s) (n := writes.length) (hone.2 w (by simp))
    rw [← hlast] at hwrite
    rw [stored, zipIdx_append, flatMap_append, map_append,
      RunningOutput.delivered_append, map_append]
    refine (ih hans.1 hone.1).append ?_
    obtain ⟨_, ok⟩ := w
    cases ok <;> simpa [RunningOutput.delivered, batchMetrics] using hwrite

open RunningOutput in
/-- A failed write of a batch has copied nothing, whatever fails, exactly if the batch is of one
measurement. In every run of an output that does not overflow and that writes such batches, each
metric is in a table or in the buffer, once. -/
theorem nothingLeft_iff [GoFloat 𝔽] [Inhabited J] [Inhabited ε] (s : Session 𝔽 J ε) :
    (∀ metrics : List (Metric 𝔽), NothingLeft J ε s.settings metrics ↔ OneMeasurement metrics) ∧
      ∀ (config : OutputConfig) (batchSize bufferLimit : ℕ) (ok : ℕ → Bool)
        (ops : List (OutputOp 𝔽)), Machine.AllSteps (step ok) NoOverflow
          (newRunningOutput none config batchSize bufferLimit) ops →
        ∃ ro, Machine.run (step ok) (newRunningOutput none config batchSize bufferLimit) ops =
            some ro ∧
          (s.Answers ro.writes → (∀ w ∈ ro.writes, OneMeasurement (batchMetrics w.1)) →
            ((s.stored ro.writes).map StoredRow.metric ++ batchMetrics ro.buffer.contents).Perm
              ((ro.passedMetrics ops).map metric)) := by
  refine ⟨nothingLeft_iff_oneMeasurement s.settings, ?_⟩
  intro config batchSize bufferLimit ok ops hroom
  obtain ⟨ro, F, live, hrun, hpassed, h⟩ :=
    exists_delivering config batchSize bufferLimit ok ops hroom
  refine ⟨ro, hrun, fun hans hone => ?_⟩
  have hlive : batchMetrics ro.buffer.contents = live.map metric := by
    rw [batchMetrics, h.settled.ring.contents_eq, reduceOption, filterMap_map]
    simp
  rw [hpassed, hlive]
  refine ((stored_perm_delivered hans hone).append_right _).trans ?_
  refine perm_append_comm.trans ?_
  rw [← map_append]
  exact (h.perm.map _).symm

/-- The copy of the `n`th measurement fails in the first write, no call fails afterwards. -/
def copyFailsFirst (n : ℕ) : Session ℤ Unit Unit where
  settings := ⟨false, false, false, false⟩
  calls := fun k => if k = 0 then DbCalls.copyFails n else
    { DbCalls.copyFails n with doCopy := fun _ => .ok () }
  order := fun _ metrics => groupMetricsByMeasurement metrics
  order_perm := fun _ _ => List.Perm.refl _

open RunningOutput in
/-- Two metrics of one measurement, whose first write fails. -/
theorem nothingLeft_iff_retry : ∃ ro : RunningOutput ℤ,
    Machine.run (step fun n => n != 0) (newRunningOutput none (plain 2 4) 0 0)
      [.addMetric 0 (counter 0), .addMetric 0 (counter 1), .writeBatch,
        .writeBatch] = some ro ∧ ro.writes.length = 2 ∧
      (((copyFailsFirst 0).stored ro.writes).map StoredRow.metric ++
        batchMetrics ro.buffer.contents).Perm [(counter 0).metric,
          (counter 1).metric] := by
  obtain ⟨ro, hrun, hstored⟩ := (nothingLeft_iff (copyFailsFirst 0)).2 (plain 2 4) 0 0
    (fun n => n != 0) [.addMetric 0 (counter 0), .addMetric 0 (counter 1),
      .writeBatch, .writeBatch] (by decide)
  cases hrun
  refine ⟨_, rfl, rfl, hstored ?_ ?_⟩
  · unfold Answers
    decide
  · decide

open RunningOutput in
/-- Two measurements, of which the second is not copied in the first write : the batch is
written again, and the first measurement is there twice. -/
theorem retry_stores_twice : ∃ (m m' : Handle ℤ) (ro : RunningOutput ℤ),
    Machine.AllSteps (step fun n => n != 0) NoOverflow
      (newRunningOutput none (plain 2 4) 0 0)
      [.addMetric 0 m, .addMetric 0 m', .writeBatch, .writeBatch] ∧
    Machine.run (step fun n => n != 0) (newRunningOutput none (plain 2 4) 0 0)
      [.addMetric 0 m, .addMetric 0 m', .writeBatch, .writeBatch] = some ro ∧
    (copyFailsFirst 1).Answers ro.writes ∧ ro.buffer.contents = [] ∧
    ((copyFailsFirst 1).write 0 [some m', some m]).1.length = 1 ∧
    ((copyFailsFirst 1).write 0 [some m', some m]).2.isSome ∧
    ((copyFailsFirst 1).stored ro.writes).length = 3 := by
  refine ⟨⟨none, ⟨str "cpu", [], [⟨str "usage", .int 1⟩], 0, .untyped, false, by decide,
      by decide⟩⟩,
    ⟨none, ⟨str "mem", [], [⟨str "free", .int 1⟩], 0, .untyped, false, by decide, by decide⟩⟩,
    _, by decide, rfl, ?_, ?_, by decide, by decide, ?_⟩
  · unfold Answers
    decide
  · decide
  · decide

end Session

end Telegraf.Postgresql
