import Telegraf.PostgresqlColumns
import Telegraf.Writes

/-!
# Rows of the PostgreSQL output

`Target` appends to the built-in columns a column for every key it maps, each once
(`Extends`), but tags and fields share the set of mapped keys even where the tags live in a
table of their own, and the built-in names are not in it. So a row is faithful to its
metric exactly if the keys involved are `Unambiguous`.
-/

open List hiding getElem?_eq_some_iff

namespace Telegraf.Postgresql

open TargetColumns Writes

variable {𝔽 J ε : Type}

/-! ## The columns that are added -/

/-- `c` is `init` with a column for each of `added` after its own. -/
structure Extends (init c : TargetColumns) (added : List GoString) : Prop where
  names : c.names = init.names ++ added
  nodup : added.Nodup
  target_of_mem : ∀ k ∈ added, c.target k = some (init.names.length + added.idxOf k)
  target_of_not_mem : ∀ k, k ∉ added → c.target k = init.target k
  dataTypes : ∃ dataTypes, c.dataTypes = init.dataTypes ++ dataTypes ∧ .jsonb ∉ dataTypes
  roles : ∃ roles, c.roles = init.roles ++ roles ∧ .tagsIDCol ∉ roles

theorem Extends.refl (init : TargetColumns) : Extends init init [] where
  names := (append_nil _).symm
  nodup := nodup_nil
  target_of_mem := fun _ h => absurd h not_mem_nil
  target_of_not_mem := fun _ _ => rfl
  dataTypes := ⟨[], (append_nil _).symm, not_mem_nil⟩
  roles := ⟨[], (append_nil _).symm, not_mem_nil⟩

variable {added : List GoString}

theorem Extends.snoc {init c : TargetColumns} (h : Extends init c added)
    {key : GoString} (hkey : key ∉ added) {dataType : PgDataType} (hdt : dataType ≠ .jsonb)
    {role : ColumnRole} (hrole : role ≠ .tagsIDCol) :
    Extends init
      { c with
        target := Function.update c.target key (some c.names.length)
        names := c.names ++ [key]
        dataTypes := c.dataTypes ++ [dataType]
        roles := c.roles ++ [role] } (added ++ [key]) := by
  obtain ⟨dts, hdts, hjsonb⟩ := h.dataTypes
  obtain ⟨rs, hrs, hid⟩ := h.roles
  refine ⟨by rw [h.names, append_assoc], ?_, fun k hk => ?_, fun k hk => ?_,
    ⟨dts ++ [dataType], by rw [hdts, append_assoc], ?_⟩,
    ⟨rs ++ [role], by rw [hrs, append_assoc], ?_⟩⟩
  · exact h.nodup.append (nodup_singleton key) (by simpa using hkey)
  · by_cases heq : k = key
    · subst heq
      simp only [Function.update_self, h.names, length_append,
        idxOf_append_of_notMem hkey, idxOf_cons_self, Nat.add_zero]
    · have hmem : k ∈ added := by simpa [heq] using hk
      simp only [Function.update_of_ne heq, h.target_of_mem k hmem, idxOf_append_of_mem hmem]
  · simp only [mem_append, mem_singleton, not_or] at hk
    simp only [Function.update_of_ne hk.2, h.target_of_not_mem k hk.1]
  · simpa using ⟨hjsonb, hdt.symm⟩
  · simpa using ⟨hid, hrole.symm⟩

/-- Mapping keys adds those not mapped before. -/
theorem mapKeys_spec {init : TargetColumns} (role : ColumnRole) (hrole : role ≠ .tagsIDCol) :
    ∀ (keys : List (GoString × PgDataType)) (mapped : List GoString) (c : TargetColumns)
      (added : List GoString), (∀ e ∈ keys, e.2 ≠ .jsonb) → Extends init c added →
      (∀ k ∈ added, k ∈ mapped) →
      (∀ k, k ∈ (mapKeys role keys mapped c).1 ↔ k ∈ mapped ∨ k ∈ keys.map Prod.fst) ∧
        ∃ added', Extends init (mapKeys role keys mapped c).2 added' ∧
          (∀ k ∈ added', k ∈ (mapKeys role keys mapped c).1) ∧
          ∀ k, k ∈ added' ↔ k ∈ added ∨ (k ∉ mapped ∧ k ∈ keys.map Prod.fst)
  | [], mapped, c, added, _, h, hsub => ⟨fun k => by simp [mapKeys], added, h, hsub, by simp⟩
  | (key, dataType) :: keys, mapped, c, added, hdt, h, hsub => by
    have hdt' : ∀ e ∈ keys, e.2 ≠ .jsonb := fun e he => hdt e (mem_cons_of_mem _ he)
    rw [mapKeys]
    split_ifs with hmem
    · obtain ⟨hmapped, added', h', hsub', hadded⟩ := mapKeys_spec role hrole keys mapped c
        added hdt' h hsub
      refine ⟨fun k => ?_, added', h', hsub', fun k => ?_⟩
      · rw [hmapped]
        grind
      · rw [hadded]
        grind
    · have hkey : key ∉ added := fun hk => hmem (hsub key hk)
      obtain ⟨hmapped, added', h', hsub', hadded⟩ := mapKeys_spec role hrole keys
        (key :: mapped) _ _ hdt' (h.snoc hkey (hdt _ mem_cons_self) hrole) (by grind)
      refine ⟨fun k => ?_, added', h', hsub', fun k => ?_⟩
      · rw [hmapped]
        grind
      · rw [hadded]
        grind

theorem derivePgDatatype_ne_jsonb (v : FieldValue 𝔽) : derivePgDatatype v ≠ .jsonb := by
  cases v <;> simp [derivePgDatatype]

namespace Mapper

variable (d : Mapper)

/-- Whether a key becomes a column of the main table while the metrics are visited in order :
as a tag or a field, whichever comes first, and where tags have their own table only as a
field. -/
def mapsKey (k : GoString) : List (Metric 𝔽) → Bool
  | [] => false
  | m :: ms =>
    if d.tagsAsJSON then m.hasField k || mapsKey k ms
    else if d.tagsAsFK then !m.hasTag k && (m.hasField k || mapsKey k ms)
    else m.hasTag k || m.hasField k || mapsKey k ms

/-- The tags table is there if `Target` needs it. -/
def HasTagTable (tagColumns : Option TargetColumns) : Prop :=
  d.tagsAsJSON = false → d.tagsAsFK = true → tagColumns.isSome = true

variable {d}

theorem targetMetric_spec {init : TargetColumns} (m : Metric 𝔽) {mapped : List GoString}
    {c : TargetColumns} {tagC : Option TargetColumns}
    (htag : d.HasTagTable tagC) (h : Extends init c added) (hsub : ∀ k ∈ added, k ∈ mapped) :
    ∃ mapped' c' tagC' added', d.targetMetric m mapped c tagC = some (mapped', c', tagC') ∧
      d.HasTagTable tagC' ∧ Extends init c' added' ∧ (∀ k ∈ added', k ∈ mapped') ∧
      ∀ k ms, (k ∈ added' ∨ k ∉ mapped' ∧ d.mapsKey k ms = true) ↔
        k ∈ added ∨ k ∉ mapped ∧ d.mapsKey k (m :: ms) = true := by
  have hfields : ∀ k, k ∈ (m.fields.map fun f => (f.key, derivePgDatatype f.value)).map
      Prod.fst ↔ m.hasField k = true := fun k => by simp [Metric.hasField]
  have htags : ∀ k, k ∈ (m.tags.map fun t => (t.key, PgDataType.text)).map Prod.fst ↔
      m.hasTag k = true := fun k => by simp [Metric.hasTag]
  have hdtF : ∀ e ∈ m.fields.map fun f => (f.key, derivePgDatatype f.value), e.2 ≠ .jsonb := by
    intro e he
    obtain ⟨f, -, rfl⟩ := mem_map.1 he
    exact derivePgDatatype_ne_jsonb _
  have hdtT : ∀ e ∈ m.tags.map fun t => (t.key, PgDataType.text), e.2 ≠ .jsonb := by
    intro e he
    obtain ⟨t, -, rfl⟩ := mem_map.1 he
    simp
  cases htj : d.tagsAsJSON with
  | true =>
    obtain ⟨hmapped, added', h', hsub', hadded⟩ :=
      mapKeys_spec .fieldCol (by simp) _ mapped c added hdtF h hsub
    refine ⟨_, _, tagC, added', by simp only [targetMetric, htj, if_true]; rfl, htag, h', hsub',
      fun k ms => ?_⟩
    rw [hadded, hmapped, hfields, mapsKey, htj]
    grind
  | false =>
    cases hfk : d.tagsAsFK with
    | true =>
      obtain ⟨tagC, rfl⟩ := Option.isSome_iff_exists.1 (htag htj hfk)
      obtain ⟨hmapped, -⟩ := mapKeys_spec .tagCol (by simp) _ mapped tagC [] hdtT
        (Extends.refl tagC) (by simp)
      obtain ⟨hmapped', added', h', hsub', hadded⟩ := mapKeys_spec .fieldCol (by simp)
        _ (mapTags m.tags mapped tagC).1 c added hdtF h
        (fun k hk => (hmapped k).2 (.inl (hsub k hk)))
      refine ⟨_, _, _, added', by simp only [targetMetric, htj, hfk]; rfl, fun _ _ => rfl, h',
        hsub', fun k ms => ?_⟩
      rw [hadded, hmapped', hfields, mapTags, hmapped, htags, mapsKey, htj, hfk]
      grind
    | false =>
      obtain ⟨hmapped, added₁, h₁, hsub₁, hadded₁⟩ :=
        mapKeys_spec .tagCol (by simp) _ mapped c added hdtT h hsub
      obtain ⟨hmapped', added', h', hsub', hadded⟩ := mapKeys_spec .fieldCol (by simp)
        _ _ _ added₁ hdtF h₁ hsub₁
      refine ⟨_, _, tagC, added', by simp only [targetMetric, htj, hfk]; rfl, htag, h',
        hsub', fun k ms => ?_⟩
      rw [hadded, hmapped', hfields, hmapped, hadded₁, htags, mapsKey, htj, hfk]
      grind

/-- The metrics that `Target` visits. -/
def visited (indices : List ℕ) (metrics : List (Metric 𝔽)) : List (Metric 𝔽) :=
  indices.filterMap fun i => metrics[i]?

variable {metrics : List (Metric 𝔽)}

theorem targetLoop_spec {init : TargetColumns} :
    ∀ (indices : List ℕ) {mapped : List GoString} {c : TargetColumns}
      {tagC : Option TargetColumns} {added : List GoString},
      (∀ i ∈ indices, i < metrics.length) → d.HasTagTable tagC → Extends init c added →
      (∀ k ∈ added, k ∈ mapped) →
      ∃ c' tagC' added', d.targetLoop metrics indices mapped c tagC = some (c', tagC') ∧
        Extends init c' added' ∧ ∀ k, k ∈ added' ↔
          k ∈ added ∨ k ∉ mapped ∧ d.mapsKey k (visited indices metrics) = true
  | [], mapped, c, tagC, added, _, _, h, _ =>
    ⟨c, tagC, added, rfl, h, fun k => by simp [visited, mapsKey]⟩
  | i :: indices, mapped, c, tagC, added, hrange, htag, h, hsub => by
    have hi := getElem?_eq_getElem (hrange i mem_cons_self)
    obtain ⟨m, hm⟩ : ∃ m, metrics[i]? = some m := ⟨_, hi⟩
    obtain ⟨_, _, _, _, htarget, htag₁, h₁, hsub₁, hkeys⟩ :=
      targetMetric_spec m htag h hsub
    obtain ⟨c', tagC', added', hloop, h', hadded⟩ := targetLoop_spec indices
      (fun j hj => hrange j (mem_cons_of_mem _ hj)) htag₁ h₁ hsub₁
    refine ⟨c', tagC', added', ?_, h', fun k => ?_⟩
    · rw [targetLoop, hm]
      simp only [Option.bind_eq_bind, Option.bind_some, htarget, hloop]
    · rw [hadded, hkeys, visited, visited, filterMap_cons, hm]

variable (d) in
/-- Whether `Target` adds a column for a key to the main table. -/
def addsColumn (k : GoString) (ms : List (Metric 𝔽)) : Bool :=
  !(d.tagsAsJSON && d.fieldsAsJSON) && d.mapsKey k ms

variable (d) in
/-- The built-in columns of the main table. -/
def init : TargetColumns :=
  (initTargetColumns d.tagsAsFK d.tagsAsJSON d.fieldsAsJSON).1

/-- `Target` adds to the built-in columns one for each key that it maps. -/
theorem target_spec {indices : List ℕ} (hrange : ∀ i ∈ indices, i < metrics.length) :
    ∃ c tagC added, d.target indices metrics = some (c, tagC) ∧ Extends d.init c added ∧
      ∀ k, k ∈ added ↔ d.addsColumn k (visited indices metrics) = true := by
  by_cases hjson : (d.tagsAsJSON && d.fieldsAsJSON) = true
  · refine ⟨d.init, (initTargetColumns d.tagsAsFK d.tagsAsJSON d.fieldsAsJSON).2, [], ?_,
      Extends.refl _, fun k => by simp [addsColumn, hjson]⟩
    simp only [target, hjson, if_true]
    rfl
  · have htag : d.HasTagTable (initTargetColumns d.tagsAsFK d.tagsAsJSON d.fieldsAsJSON).2 := by
      intro htj hfk
      rw [htj, hfk]
      cases d.fieldsAsJSON <;> rfl
    obtain ⟨c, tagC, added, hloop, h, hadded⟩ := targetLoop_spec indices hrange htag
      (Extends.refl d.init)
      (fun k (hk : k ∈ []) => hk)
    refine ⟨c, tagC, added, ?_, h, fun k => by simp [hadded, addsColumn, hjson]⟩
    simp only [target, hjson]
    exact hloop

end Mapper

/-! ## The layout of a table -/

/-- The index of the column for the fields, where they are stored as JSON. -/
def fieldsJSONIndex (d : Mapper) : ℕ :=
  if d.tagsAsFK || d.tagsAsJSON then 2 else 1

/-- Where the built-in columns are. -/
structure BuiltinLayout (d : Mapper) (c : TargetColumns) (n : ℕ) : Prop where
  tagID : d.tagsAsFK = true →
    1 < n ∧ c.names[1]? = some tagIDColumnName ∧ c.roles[1]? = some .tagsIDCol
  tagID_unique : ∀ j, c.roles[j]? = some .tagsIDCol → d.tagsAsFK = true ∧ j = 1
  tagsJSON : d.tagsAsFK = false → d.tagsAsJSON = true →
    1 < n ∧ c.names[1]? = some tagsJSONColumn ∧ c.dataTypes[1]? = some .jsonb
  fieldsJSON : d.fieldsAsJSON = true → fieldsJSONIndex d < n ∧
    c.names[fieldsJSONIndex d]? = some fieldsJSONColumn ∧
    c.dataTypes[fieldsJSONIndex d]? = some .jsonb
  jsonb_unique : ∀ j, c.dataTypes[j]? = some .jsonb →
    d.tagsAsFK = false ∧ d.tagsAsJSON = true ∧ j = 1 ∨
      d.fieldsAsJSON = true ∧ j = fieldsJSONIndex d

theorem builtinLayout_init (d : Mapper) : BuiltinLayout d d.init d.init.names.length := by
  obtain ⟨fk, tj, fj⟩ := d
  refine ⟨?_, ?_, ?_, ?_, ?_⟩
  · revert fk tj fj
    decide
  · intro j hj
    cases fk <;> cases tj <;> cases fj <;> rcases j with _ | _ | _ | j <;>
      simp_all [Mapper.init, initTargetColumns, builtin, timeColumn]
  · revert fk tj fj
    decide
  · revert fk tj fj
    decide
  · intro j hj
    cases fk <;> cases tj <;> cases fj <;> rcases j with _ | _ | _ | j <;>
      simp_all [Mapper.init, initTargetColumns, builtin, timeColumn,
        fieldsJSONIndex]

section Layout

variable {d : Mapper} {c : TargetColumns} {added : List GoString} {j : ℕ}

/-- An entry that no added column has is one of a built-in column. -/
theorem getElem?_of_notMem {β : Type*} {l l' : List β} {x : β} (hx : x ∉ l')
    (h : (l ++ l')[j]? = some x) : l[j]? = some x := by
  rcases Nat.lt_or_ge j l.length with hlt | hge
  · rwa [getElem?_append_left hlt] at h
  · rw [getElem?_append_right hge] at h
    exact absurd (mem_of_getElem? h) hx

theorem getElem?_append_of_some {β : Type*} {l : List β} (l' : List β) {x : β}
    (h : l[j]? = some x) : (l ++ l')[j]? = some x := by
  rw [List.getElem?_append_left (List.getElem?_eq_some_iff.1 h).1, h]

theorem Extends.builtinLayout (h : Extends d.init c added) :
    BuiltinLayout d c d.init.names.length := by
  have hinit := builtinLayout_init d
  obtain ⟨_, hdts, hjsonb⟩ := h.dataTypes
  obtain ⟨_, hrs, hid⟩ := h.roles
  refine ⟨fun hfk => ?_, fun j hj => ?_, fun hfk htj => ?_, fun hfj => ?_, fun j hj => ?_⟩
  · obtain ⟨hlt, hname, hrole⟩ := hinit.tagID hfk
    rw [h.names, hrs]
    exact ⟨hlt, getElem?_append_of_some _ hname, getElem?_append_of_some _ hrole⟩
  · rw [hrs] at hj
    exact hinit.tagID_unique j (getElem?_of_notMem hid hj)
  · obtain ⟨hlt, hname, hdt⟩ := hinit.tagsJSON hfk htj
    rw [h.names, hdts]
    exact ⟨hlt, getElem?_append_of_some _ hname, getElem?_append_of_some _ hdt⟩
  · obtain ⟨hlt, hname, hdt⟩ := hinit.fieldsJSON hfj
    rw [h.names, hdts]
    exact ⟨hlt, getElem?_append_of_some _ hname, getElem?_append_of_some _ hdt⟩
  · rw [hdts] at hj
    exact hinit.jsonb_unique j (getElem?_of_notMem hjsonb hj)

theorem index_init_lt (d : Mapper) (k : GoString) : d.init.index k < d.init.names.length := by
  obtain ⟨fk, tj, fj⟩ := d
  cases fk <;> cases tj <;> cases fj <;>
    simp only [Mapper.init, initTargetColumns, builtin, timeColumn,
      index, Function.update_apply] <;>
    split_ifs <;> simp

theorem index_init_tags (hfk : d.tagsAsFK = false) (htj : d.tagsAsJSON = true) :
    d.init.index tagsJSONColumn = 1 := by
  obtain ⟨fk, tj, fj⟩ := d
  obtain rfl : fk = false := hfk
  obtain rfl : tj = true := htj
  revert fj
  decide

theorem index_init_fields (hfj : d.fieldsAsJSON = true) :
    d.init.index fieldsJSONColumn = fieldsJSONIndex d := by
  obtain ⟨fk, tj, fj⟩ := d
  obtain rfl : fj = true := hfj
  revert fk tj
  decide

theorem names_init_pos (d : Mapper) : 0 < d.init.names.length :=
  Nat.zero_lt_of_lt (index_init_lt d [])

section

variable (h : Extends d.init c added)

include h

variable {k : GoString}

theorem Extends.index_of_mem (hk : k ∈ added) :
    c.index k = d.init.names.length + added.idxOf k := by
  rw [index, h.target_of_mem k hk]
  rfl

theorem Extends.index_of_not_mem (hk : k ∉ added) : c.index k = d.init.index k := by
  rw [index, h.target_of_not_mem k hk]
  rfl

theorem Extends.index_ne (hk : k ∈ added) (hj : j < d.init.names.length) : c.index k ≠ j := by
  rw [h.index_of_mem hk]
  omega

theorem Extends.lt_names (hj : j < d.init.names.length) : j < c.names.length := by
  rw [h.names, length_append]
  exact Nat.lt_add_right _ hj

theorem Extends.index_lt (k : GoString) : c.index k < c.names.length := by
  by_cases hk : k ∈ added
  · rw [h.index_of_mem hk, h.names, length_append]
    exact Nat.add_lt_add_left (idxOf_lt_length_of_mem hk) _
  · rw [h.index_of_not_mem hk]
    exact h.lt_names (index_init_lt d k)

/-- An added column has the name of its key. -/
theorem Extends.getElem?_index (hk : k ∈ added) : c.names[c.index k]? = some k := by
  rw [h.index_of_mem hk, h.names, getElem?_append_right (Nat.le_add_right _ _),
    Nat.add_sub_cancel_left, getElem?_idxOf hk]

theorem Extends.index_inj {k k' : GoString} (hk : k ∈ added)
    (hk' : k' ∈ added) (heq : c.index k = c.index k') : k = k' := by
  have hname := h.getElem?_index hk
  rw [heq, h.getElem?_index hk'] at hname
  exact (Option.some.inj hname).symm

theorem Extends.target_index (hk : k ∈ added) : c.target k = some (c.index k) := by
  rw [h.index_of_mem hk, h.target_of_mem k hk]

end

end Layout

variable {k : GoString} {d : Mapper}

theorem Mapper.mapsKey_of_hasField (hmode : d.tagsAsJSON = true ∨ d.tagsAsFK = false) :
    ∀ {ms : List (Metric 𝔽)} {m : Metric 𝔽}, m ∈ ms → m.hasField k = true → d.mapsKey k ms = true
  | m' :: ms, m, hm, hk => by
    have hrest : m ∈ ms → d.mapsKey k ms = true := fun hm => mapsKey_of_hasField hmode hm hk
    rw [mapsKey]
    rcases mem_cons.1 hm with rfl | hm <;> rcases hmode with h | h <;> grind

theorem Mapper.mapsKey_of_hasTag (htj : d.tagsAsJSON = false)
    (hfk : d.tagsAsFK = false) : ∀ {ms : List (Metric 𝔽)} {m : Metric 𝔽},
      m ∈ ms → m.hasTag k = true → d.mapsKey k ms = true
  | m' :: ms, m, hm, hk => by
    have hrest : m ∈ ms → d.mapsKey k ms = true := fun hm => mapsKey_of_hasTag htj hfk hm hk
    rw [mapsKey, htj, hfk]
    rcases mem_cons.1 hm with rfl | hm <;> grind

/-! ## Rows as writes -/

/-- The mapper with the settings of the transformer. -/
def Transformer.mapper (dt : Transformer 𝔽 J ε) : Mapper :=
  ⟨dt.tagsAsFK, dt.tagsAsJSONb, dt.fieldsAsJSONb⟩

def cellWrites (J : Type) (c : TargetColumns) (cells : List (GoString × FieldValue 𝔽)) :
    List (ℕ × Cell 𝔽 J) :=
  cells.map fun e => (c.index e.1, .value e.2)

section

variable (d : Mapper) (c : TargetColumns) (m : Metric 𝔽)

/-- The writes for the tags, with the id or the JSON that was looked up. -/
def tagWrites (id : ℤ) (tagsJson : J) : List (ℕ × Cell 𝔽 J) :=
  if d.tagsAsFK then [(1, .tagID id)]
  else if d.tagsAsJSON then [(c.index tagsJSONColumn, .json tagsJson)]
  else cellWrites J c (tagCells m)

def fieldWrites (fieldsJson : J) : List (ℕ × Cell 𝔽 J) :=
  if d.fieldsAsJSON then [(c.index fieldsJSONColumn, .json fieldsJson)]
  else cellWrites J c (fieldCells m)

def rowWrites (id : ℤ) (tagsJson fieldsJson : J) : List (ℕ × Cell 𝔽 J) :=
  (0, .time m.tm) :: (tagWrites d c m id tagsJson ++ fieldWrites d c m fieldsJson)

def writtenRow (id : ℤ) (tagsJson fieldsJson : J) : List (Cell 𝔽 J) :=
  apply (rowWrites d c m id tagsJson fieldsJson) (replicate c.names.length Cell.nil)

end

open Transformer

theorem setCell_eq {row : List (Cell 𝔽 J)} {i : ℕ} (h : i < row.length) (cell : Cell 𝔽 J) :
    setCell row i cell = (.ok (apply [(i, cell)] row) : Except (RowError ε) _) := by
  rw [setCell, if_pos h]
  rfl

theorem setCells_eq {c : TargetColumns} : ∀ {cells : List (GoString × FieldValue 𝔽)}
    {row : List (Cell 𝔽 J)}, (∀ k, c.index k < row.length) →
      setCells c cells row = (.ok (apply (cellWrites J c cells) row) :
        Except (RowError ε) _)
  | [], _, _ => rfl
  | (key, value) :: cells, row, h => by
    rw [setCells, setCell_eq (h key)]
    exact setCells_eq fun k => by simpa using h k

section CreateRow

variable {dt : Transformer 𝔽 J ε} {c : TargetColumns} {tagC : Option TargetColumns} {m : Metric 𝔽}
  {id : ℤ} {tagsJson fieldsJson : J}
  (hid : dt.tagsAsFK = true → dt.getTagID tagC m = .ok id)
  (htags : dt.tagsAsFK = false → dt.tagsAsJSONb = true → dt.buildTagsJsonb m.tags = .ok tagsJson)
  (hfields : dt.fieldsAsJSONb = true → dt.buildFieldsJsonb m.fields = .ok fieldsJson)

section

variable {row : List (Cell 𝔽 J)} (hindex : ∀ k, c.index k < row.length)

include hindex

include hid htags in
theorem setTags_eq (hone : dt.tagsAsFK = true → 1 < row.length) :
    dt.setTags m c tagC row = .ok (apply (tagWrites dt.mapper c m id tagsJson) row) := by
  cases hfk : dt.tagsAsFK with
  | true =>
    simp [setTags, tagWrites, mapper, hfk, hid hfk, setCell_eq (hone hfk)]
  | false =>
    cases htj : dt.tagsAsJSONb with
    | true =>
      simp [setTags, tagWrites, mapper, hfk, htj, htags hfk htj,
        setCell_eq (hindex tagsJSONColumn)]
    | false =>
      simp [setTags, tagWrites, mapper, hfk, htj, setCells_eq hindex]

include hfields in
theorem setFields_eq :
    dt.setFields m c row = .ok (apply (fieldWrites dt.mapper c m fieldsJson) row) := by
  cases hfj : dt.fieldsAsJSONb with
  | true =>
    simp [setFields, fieldWrites, mapper, hfj, hfields hfj,
      setCell_eq (hindex fieldsJSONColumn)]
  | false => simp [setFields, fieldWrites, mapper, hfj, setCells_eq hindex]

end

include hid htags hfields in
/-- A row is what its writes leave of an empty one. -/
theorem createRowFromMetric_eq (hindex : ∀ k, c.index k < c.names.length)
    (hone : dt.tagsAsFK = true → 1 < c.names.length) :
    dt.createRowFromMetric c.names.length m c tagC =
      .ok (writtenRow dt.mapper c m id tagsJson fieldsJson) := by
  have hpos : 0 < c.names.length := Nat.zero_lt_of_lt (hindex [])
  rw [createRowFromMetric, setCell_eq (by simpa using hpos)]
  simp only [bind, Except.bind]
  rw [setTags_eq hid htags (by simpa using hindex) (by simpa using hone)]
  simp only
  rw [setFields_eq hfields (by simpa using hindex), ← apply_append, ← apply_append]
  rfl

end CreateRow

/-! ## Faithful rows -/

/-- The cell is for the time, the tag id or JSON, or for one of the metric's own columns. -/
def CellUsed (d : Mapper) (c : TargetColumns) (m : Metric 𝔽) (j : ℕ) : Prop :=
  j = 0 ∨ c.roles[j]? = some .tagsIDCol ∨ c.dataTypes[j]? = some .jsonb ∨
    (d.fieldsAsJSON = false ∧ ∃ f ∈ m.fields, c.target f.key = some j) ∨
    (d.tagsAsFK = false ∧ d.tagsAsJSON = false ∧ ∃ t ∈ m.tags, c.target t.key = some j)

/-- The row holds the metric's time, the tag id, the JSON, and each tag and field that is
stored as a column in the cell of the column of its name ; the other cells are nil. -/
structure FaithfulRow (d : Mapper) (c : TargetColumns) (m : Metric 𝔽) (id : ℤ)
    (tagsJson fieldsJson : J) (row : List (Cell 𝔽 J)) : Prop where
  time : row[0]? = some (.time m.tm)
  fields : d.fieldsAsJSON = false → ∀ f ∈ m.fields, ∃ j, c.target f.key = some j ∧
    c.names[j]? = some f.key ∧ row[j]? = some (.value f.value)
  tags : d.tagsAsFK = false → d.tagsAsJSON = false → ∀ t ∈ m.tags, ∃ j,
    c.target t.key = some j ∧ c.names[j]? = some t.key ∧
      row[j]? = some (.value (.string t.value))
  tagID : d.tagsAsFK = true → ∃ j : ℕ, c.names[j]? = some tagIDColumnName ∧
    c.roles[j]? = some .tagsIDCol ∧ row[j]? = some (.tagID id)
  tagsJSON : d.tagsAsFK = false → d.tagsAsJSON = true → ∃ j : ℕ,
    c.names[j]? = some tagsJSONColumn ∧ c.dataTypes[j]? = some .jsonb ∧
      row[j]? = some (.json tagsJson)
  fieldsJSON : d.fieldsAsJSON = true → ∃ j : ℕ, c.names[j]? = some fieldsJSONColumn ∧
    c.dataTypes[j]? = some .jsonb ∧ row[j]? = some (.json fieldsJson)
  rest : ∀ j < row.length, ¬CellUsed d c m j → row[j]? = some Cell.nil

/-- The keys of the metrics `ms` of a table do not get into each other's way, or into that of
the JSON columns, in the row of `m` :
* with a tags table, every field of `m` occurs as a field before it occurs as a tag,
* with tags and fields in one table, a field of `m` with the key of a tag has its value,
* with tags as JSON, no metric has a field `tags`,
* with fields as JSON, `fields` does not become a column. -/
structure Unambiguous (d : Mapper) (ms : List (Metric 𝔽)) (m : Metric 𝔽) : Prop where
  tagTable : d.fieldsAsJSON = false → d.tagsAsFK = true → d.tagsAsJSON = false →
    ∀ f ∈ m.fields, d.mapsKey f.key ms = true
  sameKey : d.fieldsAsJSON = false → d.tagsAsFK = false → d.tagsAsJSON = false →
    ∀ t ∈ m.tags, ∀ f ∈ m.fields, f.key = t.key → f.value = .string t.value
  tagsJSON : d.fieldsAsJSON = false → d.tagsAsFK = false → d.tagsAsJSON = true →
    d.mapsKey tagsJSONColumn ms = false
  fieldsJSON : d.fieldsAsJSON = true → d.tagsAsJSON = false →
    d.mapsKey fieldsJSONColumn ms = false

section Faithful

variable {d : Mapper} {c : TargetColumns} {added : List GoString} {m : Metric 𝔽} {id : ℤ}
  {tagsJson fieldsJson : J} {j : ℕ}

theorem getElem?_row (hj : j < c.names.length) :
    (writtenRow d c m id tagsJson fieldsJson)[j]? =
      some ((last (rowWrites d c m id tagsJson fieldsJson) j).getD Cell.nil) := by
  rw [writtenRow, getElem?_apply, getElem?_replicate_of_lt hj]
  rfl

theorem last_rowWrites : last (rowWrites d c m id tagsJson fieldsJson) j =
    ((last (fieldWrites d c m fieldsJson) j).or
      (last (tagWrites d c m id tagsJson) j)).or (if 0 = j then some (.time m.tm) else none) := by
  rw [rowWrites, last, last_append]

section

variable (h : Extends d.init c added) {cells : List (GoString × FieldValue 𝔽)}
  (hcells : ∀ e ∈ cells, e.1 ∈ added)

include h hcells

/-- Writes to added columns are behind the built-in ones. -/
theorem last_cellWrites_of_lt
    (hj : j < d.init.names.length) : last (cellWrites J c cells) j = none := by
  refine last_eq_none fun w hw => ?_
  obtain ⟨e, he, rfl⟩ := mem_map.1 hw
  exact h.index_ne (hcells e he) hj

/-- Writes to columns of different keys all stay. -/
theorem last_cellWrites_of_mem (hnodup : (cells.map Prod.fst).Nodup) {e : GoString × FieldValue 𝔽}
    (he : e ∈ cells) : last (cellWrites J c cells) (c.index e.1) = some (.value e.2) := by
  refine last_of_mem ?_ (mem_map.2 ⟨e, he, rfl⟩)
  have hmap : (cellWrites J c cells).map Prod.fst = (cells.map Prod.fst).map c.index := by
    simp [cellWrites]
  rw [hmap]
  refine hnodup.map_on fun k hk k' hk' heq => ?_
  obtain ⟨e₁, he₁, rfl⟩ := mem_map.1 hk
  obtain ⟨e₂, he₂, rfl⟩ := mem_map.1 hk'
  exact h.index_inj (hcells e₁ he₁) (hcells e₂ he₂) heq

end

theorem mem_tagCells : (∃ e ∈ tagCells m, e.1 = k) ↔ m.hasTag k = true := by
  simp [tagCells, Metric.hasTag]

theorem mem_fieldCells : (∃ e ∈ fieldCells m, e.1 = k) ↔ m.hasField k = true := by
  simp [fieldCells, Metric.hasField]

/-- The keys of all the cells written for `m` have columns of their own. -/
structure Placed (d : Mapper) (added : List GoString) (m : Metric 𝔽) : Prop where
  tags : d.tagsAsFK = false → d.tagsAsJSON = false → ∀ e ∈ tagCells m, e.1 ∈ added
  fields : d.fieldsAsJSON = false → ∀ e ∈ fieldCells m, e.1 ∈ added

section

variable (h : Extends d.init c added) (hp : Placed d added m) (hj : j < d.init.names.length)

include h hp hj

theorem last_fieldWrites_of_lt (hjson : d.fieldsAsJSON = true → c.index fieldsJSONColumn ≠ j) :
    last (fieldWrites d c m fieldsJson) j = none := by
  rw [fieldWrites]
  split_ifs with hfj
  · exact last_eq_none (by simpa using hjson hfj)
  · exact last_cellWrites_of_lt h (hp.fields (by simpa using hfj)) hj

theorem last_tagWrites_of_lt (hid : d.tagsAsFK = true → 1 ≠ j)
    (hjson : d.tagsAsFK = false → d.tagsAsJSON = true → c.index tagsJSONColumn ≠ j) :
    last (tagWrites d c m id tagsJson) j = none := by
  rw [tagWrites]
  split_ifs with hfk htj
  · exact last_eq_none (by simpa using hid hfk)
  · exact last_eq_none (by simpa using hjson (by simpa using hfk) htj)
  · exact last_cellWrites_of_lt h (hp.tags (by simpa using hfk) (by simpa using htj)) hj

end

theorem fieldsJSONIndex_pos (d : Mapper) : 0 < fieldsJSONIndex d := by
  rw [fieldsJSONIndex]
  split_ifs <;> decide

theorem fieldsJSONIndex_ne_one (h : d.tagsAsFK = true ∨ d.tagsAsJSON = true) :
    fieldsJSONIndex d ≠ 1 := by
  rw [fieldsJSONIndex, if_pos (by simpa using h)]
  decide

theorem nodup_tagCells (m : Metric 𝔽) : ((tagCells m).map Prod.fst).Nodup := by
  simpa [tagCells, Function.comp_def] using tags_nodup m

theorem nodup_fieldCells (m : Metric 𝔽) : ((fieldCells m).map Prod.fst).Nodup := by
  simpa [fieldCells, Function.comp_def] using m.fields_nodup

section

variable (h : Extends d.init c added) (hp : Placed d added m)
  (htags : d.tagsAsFK = false → d.tagsAsJSON = true → c.index tagsJSONColumn = 1)
  (hfields : d.fieldsAsJSON = true → c.index fieldsJSONColumn = fieldsJSONIndex d)

include h hp hfields

/-- The JSON of the fields is not in the column of the tag id or of the tags' JSON. -/
theorem last_fieldWrites_one
    (hlt : 1 < d.init.names.length) (hmode : d.tagsAsFK = true ∨ d.tagsAsJSON = true) :
    last (fieldWrites d c m fieldsJson) 1 = none :=
  last_fieldWrites_of_lt h hp hlt fun hfj => by
    rw [hfields hfj]
    exact fieldsJSONIndex_ne_one hmode

/-- A field that is written to the column of a tag has the tag's value. -/
theorem eq_of_last_fieldWrites {t : Tag} (hmem : t.key ∈ added)
    (hsame : d.fieldsAsJSON = false → ∀ f ∈ m.fields, f.key = t.key → f.value = .string t.value)
    {v : Cell 𝔽 J} (hv : last (fieldWrites d c m fieldsJson) (c.index t.key) = some v) :
    v = .value (.string t.value) := by
  have hw := mem_of_last hv
  rw [fieldWrites] at hw
  split_ifs at hw with hfj
  · have hlt := (h.builtinLayout.fieldsJSON hfj).1
    have heq := (Prod.mk.inj (mem_singleton.1 hw)).1
    rw [hfields hfj] at heq
    exact absurd heq (h.index_ne hmem hlt)
  · have hfj' : d.fieldsAsJSON = false := by simpa using hfj
    obtain ⟨e, he, heq⟩ := mem_map.1 hw
    obtain ⟨f, hf, rfl⟩ := mem_map.1 he
    obtain ⟨hindex, rfl⟩ := Prod.mk.inj heq
    rw [hsame hfj' f hf (h.index_inj (hp.fields hfj' _ he) hmem hindex)]

include htags

/-- Every write is to a cell in use. -/
theorem cellUsed_of_mem {w : ℕ × Cell 𝔽 J} (hw : w ∈ rowWrites d c m id tagsJson fieldsJson) :
    CellUsed d c m w.1 := by
  have hlayout := h.builtinLayout
  rw [rowWrites, mem_cons, mem_append] at hw
  rcases hw with rfl | hw | hw
  · exact .inl rfl
  · rw [tagWrites] at hw
    split_ifs at hw with hfk htj
    · rw [mem_singleton.1 hw]
      exact .inr (.inl (hlayout.tagID hfk).2.2)
    · have hfk' : d.tagsAsFK = false := by simpa using hfk
      rw [mem_singleton.1 hw, htags hfk' htj]
      exact .inr (.inr (.inl (hlayout.tagsJSON hfk' htj).2.2))
    · have hfk' : d.tagsAsFK = false := by simpa using hfk
      have htj' : d.tagsAsJSON = false := by simpa using htj
      obtain ⟨e, he, rfl⟩ := mem_map.1 hw
      obtain ⟨t, ht, rfl⟩ := mem_map.1 he
      exact .inr (.inr (.inr (.inr
        ⟨hfk', htj', t, ht, h.target_index (hp.tags hfk' htj' _ he)⟩)))
  · rw [fieldWrites] at hw
    split_ifs at hw with hfj
    · rw [mem_singleton.1 hw, hfields hfj]
      exact .inr (.inr (.inl (hlayout.fieldsJSON hfj).2.2))
    · have hfj' : d.fieldsAsJSON = false := by simpa using hfj
      obtain ⟨e, he, rfl⟩ := mem_map.1 hw
      obtain ⟨f, hf, rfl⟩ := mem_map.1 he
      exact .inr (.inr (.inr (.inl ⟨hfj', f, hf, h.target_index (hp.fields hfj' _ he)⟩)))

theorem faithfulRow_of_placed
    (hsame : d.fieldsAsJSON = false → d.tagsAsFK = false → d.tagsAsJSON = false →
      ∀ t ∈ m.tags, ∀ f ∈ m.fields, f.key = t.key → f.value = .string t.value) :
    FaithfulRow d c m id tagsJson fieldsJson (writtenRow d c m id tagsJson fieldsJson) := by
  have hlayout := h.builtinLayout
  have hn := names_init_pos d
  refine ⟨?_, fun hfj f hf => ?_, fun hfk htj t ht => ?_, fun hfk => ?_, fun hfk htj => ?_,
    fun hfj => ?_, fun j hj hused => ?_⟩
  · have hfield : last (fieldWrites d c m fieldsJson) 0 = none :=
      last_fieldWrites_of_lt h hp hn fun hfj => by
        rw [hfields hfj]
        exact Nat.ne_of_gt (fieldsJSONIndex_pos d)
    have htag : last (tagWrites d c m id tagsJson) 0 = none :=
      last_tagWrites_of_lt h hp hn (fun _ => Nat.one_ne_zero) fun hfk htj => by
        rw [htags hfk htj]
        exact Nat.one_ne_zero
    rw [getElem?_row (h.lt_names hn), last_rowWrites, hfield, htag]
    rfl
  · have he : (f.key, f.value) ∈ fieldCells m := mem_map.2 ⟨f, hf, rfl⟩
    have hmem := hp.fields hfj _ he
    refine ⟨c.index f.key, h.target_index hmem, h.getElem?_index hmem, ?_⟩
    have hlast := last_cellWrites_of_mem (J := J) h (hp.fields hfj) (nodup_fieldCells m) he
    rw [getElem?_row (h.index_lt _), last_rowWrites, fieldWrites, hfj, if_neg Bool.false_ne_true,
      hlast]
    rfl
  · have he : (t.key, .string t.value) ∈ tagCells m := mem_map.2 ⟨t, ht, rfl⟩
    have hmem := hp.tags hfk htj _ he
    refine ⟨c.index t.key, h.target_index hmem, h.getElem?_index hmem, ?_⟩
    have hlast := last_cellWrites_of_mem (J := J) h (hp.tags hfk htj) (nodup_tagCells m) he
    rw [getElem?_row (h.index_lt _), last_rowWrites, tagWrites, hfk, htj,
      if_neg Bool.false_ne_true, if_neg Bool.false_ne_true, hlast]
    cases hv : last (fieldWrites d c m fieldsJson) (c.index t.key) with
    | none => rfl
    | some =>
      rw [eq_of_last_fieldWrites h hp hfields hmem (fun hfj => hsame hfj hfk htj t ht) hv]
      rfl
  · obtain ⟨hlt, hname, hrole⟩ := hlayout.tagID hfk
    refine ⟨1, hname, hrole, ?_⟩
    rw [getElem?_row (h.lt_names hlt), last_rowWrites,
      last_fieldWrites_one h hp hfields hlt (.inl hfk), tagWrites, if_pos hfk]
    rfl
  · obtain ⟨hlt, hname, hdt⟩ := hlayout.tagsJSON hfk htj
    refine ⟨1, hname, hdt, ?_⟩
    rw [getElem?_row (h.lt_names hlt), last_rowWrites,
      last_fieldWrites_one h hp hfields hlt (.inr htj), tagWrites, hfk, if_pos htj, htags hfk htj]
    rfl
  · obtain ⟨hlt, hname, hdt⟩ := hlayout.fieldsJSON hfj
    refine ⟨fieldsJSONIndex d, hname, hdt, ?_⟩
    rw [getElem?_row (h.lt_names hlt), last_rowWrites, fieldWrites, if_pos hfj,
      hfields hfj]
    simp [last]
  · rw [writtenRow, length_apply, length_replicate] at hj
    have hnone : last (rowWrites d c m id tagsJson fieldsJson) j = none :=
      last_eq_none fun w hw heq =>
        hused (heq ▸ cellUsed_of_mem h hp htags hfields hw)
    rw [getElem?_row hj, hnone]
    rfl

end

variable {f : Field 𝔽}

/-- The cell of a field's column holds the value of some field. -/
theorem exists_getElem?_row_of_field (h : Extends d.init c added) (hfj : d.fieldsAsJSON = false)
    (hf : f ∈ m.fields) :
    ∃ v, (writtenRow d c m id tagsJson fieldsJson)[c.index f.key]? = some (.value v) := by
  have hwrites : fieldWrites d c m fieldsJson = cellWrites J c (fieldCells m) := by
    rw [fieldWrites, if_neg (by simp [hfj])]
  have hw : (c.index f.key, Cell.value f.value) ∈ fieldWrites d c m fieldsJson := by
    rw [hwrites]
    exact mem_map.2 ⟨(f.key, f.value), mem_map.2 ⟨f, hf, rfl⟩, rfl⟩
  obtain ⟨u, hu⟩ := exists_last hw
  have hmem := mem_of_last hu
  rw [hwrites] at hmem
  obtain ⟨e, -, heq⟩ := mem_map.1 hmem
  obtain ⟨-, rfl⟩ := Prod.mk.inj heq
  refine ⟨e.2, ?_⟩
  rw [getElem?_row (h.index_lt f.key), last_rowWrites, hu]
  rfl

/-! ## When rows are faithful -/

section Back

variable (h : Extends d.init c added)
  (hrow : FaithfulRow d c m id tagsJson fieldsJson (writtenRow d c m id tagsJson fieldsJson))

include h hrow

/-- A field that is not a column would be written over the time or the tag id. -/
theorem mem_added_of_faithfulRow (hfj : d.fieldsAsJSON = false) (hfk : d.tagsAsFK = true)
    (htj : d.tagsAsJSON = false) (hf : f ∈ m.fields) : f.key ∈ added := by
  by_contra hnot
  have hlt : c.index f.key < 2 := by
    rw [h.index_of_not_mem hnot]
    refine Nat.lt_of_lt_of_le (index_init_lt d f.key) ?_
    rw [Mapper.init, hfk, htj, hfj]
    decide
  obtain ⟨v, hcell⟩ : ∃ v, (writtenRow d c m id tagsJson fieldsJson)[c.index f.key]? =
    some (.value v) := exists_getElem?_row_of_field h hfj hf
  have hcases : c.index f.key = 0 ∨ c.index f.key = 1 := by omega
  rcases hcases with h0 | h1
  · rw [h0, hrow.time] at hcell
    simp at hcell
  · obtain ⟨j, -, hrole, hid⟩ := hrow.tagID hfk
    obtain ⟨-, rfl⟩ := h.builtinLayout.tagID_unique j hrole
    rw [h1, hid] at hcell
    simp at hcell

omit h in
/-- A tag and a field in one column have one value. -/
theorem value_eq_of_faithfulRow (hfj : d.fieldsAsJSON = false) (hfk : d.tagsAsFK = false)
    (htj : d.tagsAsJSON = false) {t : Tag} (ht : t ∈ m.tags) (hf : f ∈ m.fields)
    (hkey : f.key = t.key) : f.value = .string t.value := by
  obtain ⟨j, htarget, -, hcell⟩ := hrow.fields hfj f hf
  obtain ⟨_, htarget', -, hcell'⟩ := hrow.tags hfk htj t ht
  rw [hkey, htarget'] at htarget
  cases htarget
  rw [hcell'] at hcell
  simpa using hcell.symm

/-- Were there a column of its name, the JSON of the tags would be in it. -/
theorem tagsJSONColumn_notMem (hp : Placed d added m) (hfj : d.fieldsAsJSON = false)
    (hfk : d.tagsAsFK = false) (htj : d.tagsAsJSON = true) : tagsJSONColumn ∉ added := by
  intro hmem
  have hlayout := h.builtinLayout
  have hlt := (hlayout.tagsJSON hfk htj).1
  have hnone : last (rowWrites d c m id tagsJson fieldsJson) 1 = none := by
    rw [last_rowWrites, last_fieldWrites_of_lt h hp hlt (by simp [hfj]),
      last_tagWrites_of_lt h hp hlt (by simp [hfk]) fun _ _ => h.index_ne hmem hlt]
    rfl
  obtain ⟨j, -, hdt, hcell⟩ := hrow.tagsJSON hfk htj
  obtain rfl : j = 1 := by
    rcases hlayout.jsonb_unique j hdt with ⟨-, -, hj⟩ | ⟨hfj', -⟩
    · exact hj
    · simp [hfj] at hfj'
  rw [getElem?_row (h.lt_names hlt), hnone] at hcell
  simp [Cell.nil] at hcell

/-- Were there a column of its name, the JSON of the fields would be in it. -/
theorem fieldsJSONColumn_notMem (hp : Placed d added m) (hfj : d.fieldsAsJSON = true)
    (htj : d.tagsAsJSON = false) : fieldsJSONColumn ∉ added := by
  intro hmem
  have hlayout := h.builtinLayout
  have hlt := (hlayout.fieldsJSON hfj).1
  have hnone : last (rowWrites d c m id tagsJson fieldsJson) (fieldsJSONIndex d) =
      none := by
    rw [last_rowWrites, last_fieldWrites_of_lt h hp hlt fun _ => h.index_ne hmem hlt,
      last_tagWrites_of_lt h hp hlt (fun hfk => (fieldsJSONIndex_ne_one (.inl hfk)).symm)
        (by simp [htj]), if_neg (Nat.ne_of_lt (fieldsJSONIndex_pos d))]
    rfl
  obtain ⟨j, -, hdt, hcell⟩ := hrow.fieldsJSON hfj
  obtain rfl : j = fieldsJSONIndex d := by
    rcases hlayout.jsonb_unique j hdt with ⟨-, htj', -⟩ | ⟨-, hj⟩
    · simp [htj] at htj'
    · exact hj
  rw [getElem?_row (h.lt_names hlt), hnone] at hcell
  simp [Cell.nil] at hcell

end Back

section Keys

variable {ms : List (Metric 𝔽)} (hadded : ∀ k, k ∈ added ↔ d.addsColumn k ms = true)
  (hm : m ∈ ms)

include hadded

theorem mem_added (hmode : d.tagsAsJSON = false ∨ d.fieldsAsJSON = false) :
    k ∈ added ↔ d.mapsKey k ms = true := by
  rw [hadded, Mapper.addsColumn]
  rcases hmode with h | h <;> simp [h]

include hm

/-- Tags and fields have columns, except for a field that came first as a tag. -/
theorem placed_of_mem (hfields : d.fieldsAsJSON = false → d.tagsAsFK = true →
    d.tagsAsJSON = false → ∀ f ∈ m.fields, d.mapsKey f.key ms = true) : Placed d added m where
  tags := fun hfk htj e he => (mem_added hadded (.inl htj)).2
    (Mapper.mapsKey_of_hasTag htj hfk hm (mem_tagCells.1 ⟨e, he, rfl⟩))
  fields := by
    intro hfj e he
    rw [mem_added hadded (.inr hfj)]
    by_cases hmode : d.tagsAsJSON = true ∨ d.tagsAsFK = false
    · exact Mapper.mapsKey_of_hasField hmode hm (mem_fieldCells.1 ⟨e, he, rfl⟩)
    · obtain ⟨f, hf, rfl⟩ := mem_map.1 he
      exact hfields hfj (by simp_all) (by simp_all) f hf

theorem faithfulRow_of_unambiguous (h : Extends d.init c added) (hu : Unambiguous d ms m) :
    FaithfulRow d c m id tagsJson fieldsJson (writtenRow d c m id tagsJson fieldsJson) := by
  refine faithfulRow_of_placed h (placed_of_mem hadded hm hu.tagTable) (fun hfk htj => ?_)
    (fun hfj => ?_) hu.sameKey
  · have hnot : tagsJSONColumn ∉ added := by
      rw [hadded, Mapper.addsColumn]
      cases hfj : d.fieldsAsJSON with
      | true => simp [htj]
      | false => simp [hu.tagsJSON hfj hfk htj]
    rw [h.index_of_not_mem hnot, index_init_tags hfk htj]
  · have hnot : fieldsJSONColumn ∉ added := by
      rw [hadded, Mapper.addsColumn]
      cases htj : d.tagsAsJSON with
      | true => simp [hfj]
      | false => simp [hu.fieldsJSON hfj htj]
    rw [h.index_of_not_mem hnot, index_init_fields hfj]

theorem unambiguous_of_faithfulRow (h : Extends d.init c added)
    (hrow : FaithfulRow d c m id tagsJson fieldsJson (writtenRow d c m id tagsJson fieldsJson)) :
    Unambiguous d ms m := by
  refine ⟨fun hfj hfk htj f hf => ?_, fun hfj hfk htj t ht f hf hkey => ?_,
    fun hfj hfk htj => ?_, fun hfj htj => ?_⟩
  · exact (mem_added hadded (.inl htj)).1 (mem_added_of_faithfulRow h hrow hfj hfk htj hf)
  · exact value_eq_of_faithfulRow hrow hfj hfk htj ht hf hkey
  · have hp : Placed d added m := placed_of_mem hadded hm (by simp [htj])
    have hnot := tagsJSONColumn_notMem h hrow hp hfj hfk htj
    rw [mem_added hadded (.inr hfj)] at hnot
    simpa using hnot
  · have hp : Placed d added m := placed_of_mem hadded hm (by simp [hfj])
    have hnot := fieldsJSONColumn_notMem h hrow hp hfj htj
    rw [mem_added hadded (.inl htj)] at hnot
    simpa using hnot

end Keys

end Faithful

/-- The row of any metric of a table is faithful to it if and only if the keys are
unambiguous, where the tag id is looked up and the JSON is built. -/
theorem faithfulRow_iff_unambiguous (dt : Transformer 𝔽 J ε) {indices : List ℕ}
    {metrics : List (Metric 𝔽)} (hrange : ∀ i ∈ indices, i < metrics.length) {i : ℕ}
    (hi : i ∈ indices) {m : Metric 𝔽} (hm : metrics[i]? = some m) :
    ∃ cols tagCols, dt.mapper.target indices metrics = some (cols, tagCols) ∧
      ∀ id tagsJson fieldsJson,
        (dt.tagsAsFK = true → dt.getTagID tagCols m = .ok id) →
        (dt.tagsAsFK = false → dt.tagsAsJSONb = true →
          dt.buildTagsJsonb m.tags = .ok tagsJson) →
        (dt.fieldsAsJSONb = true → dt.buildFieldsJsonb m.fields = .ok fieldsJson) →
        ∃ row, dt.createRowFromMetric cols.names.length m cols tagCols = .ok row ∧
          (FaithfulRow dt.mapper cols m id tagsJson fieldsJson row ↔
            Unambiguous dt.mapper (Mapper.visited indices metrics) m) := by
  obtain ⟨c, tagC, _, htarget, h, hadded⟩ := Mapper.target_spec (d := dt.mapper) hrange
  have hmem : m ∈ Mapper.visited indices metrics := mem_filterMap.2 ⟨i, hi, hm⟩
  refine ⟨c, tagC, htarget, fun id tagsJson fieldsJson hid htags hfields => ⟨_,
    createRowFromMetric_eq hid htags hfields h.index_lt fun hfk =>
      h.lt_names (h.builtinLayout.tagID hfk).1,
    unambiguous_of_faithfulRow hadded hmem h, faithfulRow_of_unambiguous hadded hmem h⟩⟩

theorem faithfulRow_two_hosts :
    let dt : Transformer ℕ ℕ Unit :=
      ⟨false, false, false, fun _ _ => .ok 7, fun _ => .ok 0, fun _ => .ok 0⟩
    let m := ((Metric.empty (str "cpu") 3 .untyped).addTag (str "host") (str "a")).addField
      (str "usage") (.int 1)
    let m' := (Metric.empty (str "cpu") 5 .untyped).addField (str "host") (.string (str "b"))
    ∃ cols tagCols row, dt.mapper.target [0, 1] [m, m'] = some (cols, tagCols) ∧
      dt.createRowFromMetric cols.names.length m' cols tagCols = .ok row ∧
      FaithfulRow dt.mapper cols m' 0 0 0 row := by
  intro dt m m'
  obtain ⟨cols, tagCols, htarget, hrow⟩ := faithfulRow_iff_unambiguous dt
    (by decide : ∀ i ∈ [0, 1], i < [m, m'].length) (by decide : 1 ∈ [0, 1])
    (rfl : [m, m'][1]? = some m')
  obtain ⟨row, hcreate, hiff⟩ := hrow 0 0 0 (by simp [dt]) (by simp [dt]) (by simp [dt])
  refine ⟨cols, tagCols, row, htarget, hcreate, hiff.2 ⟨?_, ?_, ?_, ?_⟩⟩ <;>
    simp [dt, mapper, m', Metric.empty, Metric.addField]

/-- With a tags table, a field whose key was a tag of an earlier metric has no column, so its
value is written over the time of the row. -/
theorem field_overwrites_time :
    let dt : Transformer ℕ ℕ Unit :=
      ⟨true, false, false, fun _ _ => .ok 7, fun _ => .ok 0, fun _ => .ok 0⟩
    let m := ((Metric.empty (str "cpu") 3 .untyped).addTag (str "host") (str "a")).addField
      (str "usage") (.int 1)
    let m' := (Metric.empty (str "cpu") 5 .untyped).addField (str "host") (.string (str "b"))
    ∃ cols tagCols row, dt.mapper.target [0, 1] [m, m'] = some (cols, tagCols) ∧
      dt.createRowFromMetric cols.names.length m' cols tagCols = .ok row ∧
      row[0]? = some (.value (.string (str "b"))) ∧ ¬FaithfulRow dt.mapper cols m' 7 0 0 row := by
  refine ⟨_, _, _, rfl, rfl, by decide, fun h => ?_⟩
  exact absurd h.time (by decide)

end Telegraf.Postgresql
