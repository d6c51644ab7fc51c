import Telegraf.FilterCompile

/-!
# What filters do

`Filter.Compile` of `internal/models/filter.go`, and what a compiled filter selects and keeps
in terms of its lists. A list without elements is no rule, except that `Select` takes a
`TagPass` that is empty but not nil for a rule that no metric meets.
-/

namespace Telegraf

open FilterList Telegraf.Metric List Telegraf.Filter

/-! ## The lists -/

/-- `models.TagFilter`. -/
structure TagFilterConfig where
  name : GoString
  filter : List GoString
deriving Repr, DecidableEq

/-- The lists of a `models.Filter`. For the tag filters `none` is the nil slice. -/
structure FilterConfig where
  nameDrop : List GoString
  namePass : List GoString
  fieldDrop : List GoString
  fieldPass : List GoString
  tagDrop : Option (List TagFilterConfig)
  tagPass : Option (List TagFilterConfig)
  tagExclude : List GoString
  tagInclude : List GoString

namespace FilterConfig

/-- No list has an element. -/
def allEmpty (c : FilterConfig) : Bool :=
  c.nameDrop.length == 0 && c.namePass.length == 0 && c.fieldDrop.length == 0 &&
    c.fieldPass.length == 0 && c.tagInclude.length == 0 && c.tagExclude.length == 0 &&
    (c.tagPass.getD []).length == 0 && (c.tagDrop.getD []).length == 0

section

variable (glob : GlobCompile) (option : String)

/-- A call of `filter.Compile` for the option of that name. -/
def compileOption (filters : List GoString) : Except GoString (Option (GoString → Bool)) :=
  (compile glob filters).mapError fun err =>
    str ("Error compiling '" ++ option ++ "', ") ++ err

/-- The loop over `TagDrop` or `TagPass`. -/
def compileTags : List TagFilterConfig → Except GoString (List TagFilter)
  | [] => .ok []
  | t :: ts => do
    let filter ← compileOption glob option t.filter
    let rest ← compileTags ts
    pure (⟨t.name, filter⟩ :: rest)

/-- A slice of tag filters, which is nil or not. -/
def compileSlice : Option (List TagFilterConfig) → Except GoString (Option (List TagFilter))
  | none => .ok none
  | some ts => (compileTags glob option ts).map some

end

/-- `Filter.Compile`. -/
def compile (glob : GlobCompile) (c : FilterConfig) : Except GoString Filter :=
  if c.allEmpty then
    .ok { inactive with
      tagDrop := c.tagDrop.map fun _ => []
      tagPass := c.tagPass.map fun _ => [] }
  else do
    let nameDrop ← compileOption glob "namedrop" c.nameDrop
    let namePass ← compileOption glob "namepass" c.namePass
    let fieldDrop ← compileOption glob "fielddrop" c.fieldDrop
    let fieldPass ← compileOption glob "fieldpass" c.fieldPass
    let tagExclude ← compileOption glob "tagexclude" c.tagExclude
    let tagInclude ← compileOption glob "taginclude" c.tagInclude
    let tagDrop ← compileSlice glob "tagdrop" c.tagDrop
    let tagPass ← compileSlice glob "tagpass" c.tagPass
    pure ⟨nameDrop, namePass, fieldDrop, fieldPass, tagDrop, tagPass, tagExclude, tagInclude, true⟩

variable {𝔽 : Type*} {glob : GlobCompile}

/-! ## What the lists say -/

/-- The string is allowed by a list of strings to pass and a list of strings to drop. -/
def Passes (glob : GlobCompile) (pass drop : List GoString) (s : GoString) : Prop :=
  (pass = [] ∨ Matches glob pass s) ∧ (drop = [] ∨ ¬Matches glob drop s)

instance (pass drop : List GoString) (s : GoString) : Decidable (Passes glob pass drop s) := by
  unfold Passes
  infer_instance

/-- Some entry has a tag of its name with a value that it matches. -/
def TagsMatch (glob : GlobCompile) (entries : List TagFilterConfig) (tags : List Tag) : Prop :=
  ∃ e ∈ entries, ∃ t ∈ tags, t.key = e.name ∧ Matches glob e.filter t.value

instance (entries : List TagFilterConfig) (tags : List Tag) :
    Decidable (TagsMatch glob entries tags) := by
  unfold TagsMatch
  infer_instance

/-- The metric is to be selected. -/
def Selects (glob : GlobCompile) (c : FilterConfig) (m : Metric 𝔽) : Prop :=
  Passes glob c.namePass c.nameDrop m.name ∧
    (c.tagPass.getD [] = [] ∨ TagsMatch glob (c.tagPass.getD []) m.tags) ∧
      (c.tagDrop.getD [] = [] ∨ ¬TagsMatch glob (c.tagDrop.getD []) m.tags)

instance (c : FilterConfig) (m : Metric 𝔽) : Decidable (Selects glob c m) := by
  unfold Selects
  infer_instance

/-- The metric with the tags and fields to be kept. -/
def Keeps (glob : GlobCompile) (c : FilterConfig) (m m' : Metric 𝔽) : Prop :=
  m'.name = m.name ∧ m'.tm = m.tm ∧ m'.tp = m.tp ∧ m'.aggregate = m.aggregate ∧
    (m'.fields = m.fields.filter fun f => Passes glob c.fieldPass c.fieldDrop f.key) ∧
      m'.tags = m.tags.filter fun t => Passes glob c.tagInclude c.tagExclude t.key

end FilterConfig

/-! ## Compiled filters -/

namespace Filter

variable {𝔽 : Type*} (f : Filter) (m : Metric 𝔽)

/-- The string passes a filter to pass and a filter to drop, each of which may be nil. -/
def passes (pass drop : Option (GoString → Bool)) (s : GoString) : Bool :=
  pass.all (· s) && !drop.any (· s)

theorem shouldNamePass_eq (key : GoString) :
    f.shouldNamePass key = passes f.namePass f.nameDrop key := by
  unfold shouldNamePass passes
  cases f.namePass <;> cases f.nameDrop <;> simp

theorem shouldFieldPass_eq (key : GoString) :
    f.shouldFieldPass key = passes f.fieldPass f.fieldDrop key := by
  unfold shouldFieldPass passes
  cases f.fieldPass <;> cases f.fieldDrop <;> simp

theorem shouldTagsPass_eq (tags : List Tag) :
    f.shouldTagsPass tags =
      (f.tagPass.all (matchTags · tags) && !f.tagDrop.any (matchTags · tags)) := by
  unfold shouldTagsPass
  cases f.tagPass <;> cases f.tagDrop <;> simp

theorem foldl_removeTag_filter (bad : GoString → Bool) :
    ((m.tags.map Tag.key).filter bad).foldl removeTag m =
      m.keepTags fun t => !bad t.key := by
  rw [foldl_removeTag]
  refine keepTags_congr fun t ht => ?_
  have hkey : t.key ∈ m.tags.map Tag.key := mem_map_of_mem ht
  cases hbad : bad t.key <;> simp [hbad, hkey]

theorem filterFields_eq : f.filterFields m = m.keepFields fun fl => f.shouldFieldPass fl.key := by
  rw [filterFields, foldl_removeField]
  refine keepFields_congr fun fl hfl => ?_
  have hkey : fl.key ∈ m.fields.map Field.key := mem_map_of_mem hfl
  cases hpass : f.shouldFieldPass fl.key <;> simp [hpass, hkey]

theorem filterTags_eq_foldl {keys : List GoString} {m₁ : Metric 𝔽}
    (hkeys : (m.tags.map Tag.key).filter (fun key => !f.tagInclude.all (· key)) = keys)
    (hm : keys.foldl removeTag m = m₁) :
    f.filterTags m = (keys ++ (m₁.tags.map Tag.key).filter fun key =>
      f.tagExclude.any (· key)).foldl removeTag m₁ := by
  subst hkeys hm
  unfold filterTags
  cases f.tagInclude <;> cases f.tagExclude <;> simp

theorem filterTags_eq :
    f.filterTags m = m.keepTags fun t => passes f.tagInclude f.tagExclude t.key := by
  rw [f.filterTags_eq_foldl m rfl (foldl_removeTag_filter m _), foldl_append]
  -- the keys that are removed once more are not there any more
  have hagain : ∀ keys : List GoString, (∀ key ∈ keys, f.tagInclude.all (· key) = false) →
      keys.foldl removeTag (m.keepTags fun t => !!f.tagInclude.all (· t.key)) =
        m.keepTags fun t => f.tagInclude.all (· t.key) := by
    intro keys hkeys
    rw [foldl_removeTag, keepTags_keepTags]
    refine keepTags_congr fun t _ => ?_
    by_cases hmem : t.key ∈ keys
    · simp [hkeys t.key hmem]
    · simp [hmem]
  rw [hagain _ (by simp)]
  simp only [Bool.not_not]
  rw [foldl_removeTag_filter, keepTags_keepTags]
  exact keepTags_congr fun t _ => Bool.and_comm _ _

theorem modify_eq (h : f.isActive = true) :
    f.modify m = (m.keepFields fun fl => passes f.fieldPass f.fieldDrop fl.key).keepTags fun t =>
      passes f.tagInclude f.tagExclude t.key := by
  rw [modify, if_pos h, filterFields_eq, filterTags_eq]
  simp only [shouldFieldPass_eq]

theorem modify_modify : f.modify (f.modify m) = f.modify m := by
  cases h : f.isActive with
  | true => simp [modify_eq, h, ← keepFields_keepTags]
  | false => simp [modify, h]

end Filter

/-! ## Compiled lists -/

namespace FilterConfig

variable {𝔽 : Type*} {glob : GlobCompile} {option : String}

theorem compileOption_eq_ok {filters : List GoString} {p : Option (GoString → Bool)}
    (h : compileOption glob option filters = .ok p) : FilterList.compile glob filters = .ok p := by
  rw [compileOption] at h
  cases hp : FilterList.compile glob filters with
  | error => simp [hp, Except.mapError] at h
  | ok => simpa [hp, Except.mapError] using h

/-- An entry and its compiled filter. -/
def EntryCompiles (glob : GlobCompile) (t : TagFilterConfig) (p : TagFilter) : Prop :=
  p.name = t.name ∧ FilterList.compile glob t.filter = .ok p.filter

theorem compileTags_eq_ok : ∀ {ts : List TagFilterConfig} {ps : List TagFilter},
    compileTags glob option ts = .ok ps → Forall₂ (EntryCompiles glob) ts ps
  | [], ps, h => by
    cases h
    exact Forall₂.nil
  | t :: ts, ps, h => by
    rw [compileTags] at h
    obtain ⟨p, hp, h⟩ := bind_eq_ok h
    obtain ⟨_, hrest, h⟩ := bind_eq_ok h
    cases h
    exact Forall₂.cons ⟨rfl, compileOption_eq_ok hp⟩ (compileTags_eq_ok hrest)

theorem compileSlice_eq_ok {ts : Option (List TagFilterConfig)}
    {ps : Option (List TagFilter)} (h : compileSlice glob option ts = .ok ps) :
    Option.Rel (Forall₂ (EntryCompiles glob)) ts ps := by
  cases ts with
  | none =>
    cases h
    exact Option.Rel.none
  | some ts =>
    rw [compileSlice] at h
    cases hps : compileTags glob option ts with
    | error => simp [hps, Except.map] at h
    | ok =>
      rw [hps] at h
      cases h
      exact Option.Rel.some (compileTags_eq_ok hps)

/-- A compiled filter has the filters of the lists. -/
structure Compiled (glob : GlobCompile) (c : FilterConfig) (f : Filter) : Prop where
  nameDrop : FilterList.compile glob c.nameDrop = .ok f.nameDrop
  namePass : FilterList.compile glob c.namePass = .ok f.namePass
  fieldDrop : FilterList.compile glob c.fieldDrop = .ok f.fieldDrop
  fieldPass : FilterList.compile glob c.fieldPass = .ok f.fieldPass
  tagDrop : Option.Rel (Forall₂ (EntryCompiles glob)) c.tagDrop f.tagDrop
  tagPass : Option.Rel (Forall₂ (EntryCompiles glob)) c.tagPass f.tagPass
  tagExclude : FilterList.compile glob c.tagExclude = .ok f.tagExclude
  tagInclude : FilterList.compile glob c.tagInclude = .ok f.tagInclude
  isActive : f.isActive = !c.allEmpty

theorem compiled_of_compile {c : FilterConfig} {f : Filter} (h : compile glob c = .ok f) :
    Compiled glob c f := by
  rw [compile] at h
  split_ifs at h with hempty
  · cases h
    simp only [allEmpty, Bool.and_eq_true, beq_iff_eq, length_eq_zero_iff] at hempty
    obtain ⟨⟨⟨⟨⟨⟨⟨h₁, h₂⟩, h₃⟩, h₄⟩, h₅⟩, h₆⟩, h₇⟩, h₈⟩ := hempty
    have hslice : ∀ ts : Option (List TagFilterConfig), ts.getD [] = [] →
        Option.Rel (Forall₂ (EntryCompiles glob)) ts (ts.map fun _ => []) := by
      rintro (_ | ts) hts
      · exact Option.Rel.none
      · cases hts
        exact Option.Rel.some Forall₂.nil
    have hnone : ∀ l : List GoString, l = [] → FilterList.compile glob l = .ok none := by
      rintro _ rfl
      rfl
    exact
      { nameDrop := hnone _ h₁
        namePass := hnone _ h₂
        fieldDrop := hnone _ h₃
        fieldPass := hnone _ h₄
        tagDrop := hslice _ h₈
        tagPass := hslice _ h₇
        tagExclude := hnone _ h₆
        tagInclude := hnone _ h₅
        isActive := by simp [allEmpty, inactive, h₁, h₂, h₃, h₄, h₅, h₆, h₇, h₈] }
  · obtain ⟨nameDrop, h₁, h⟩ := bind_eq_ok h
    obtain ⟨namePass, h₂, h⟩ := bind_eq_ok h
    obtain ⟨fieldDrop, h₃, h⟩ := bind_eq_ok h
    obtain ⟨fieldPass, h₄, h⟩ := bind_eq_ok h
    obtain ⟨tagExclude, h₅, h⟩ := bind_eq_ok h
    obtain ⟨tagInclude, h₆, h⟩ := bind_eq_ok h
    obtain ⟨tagDrop, h₇, h⟩ := bind_eq_ok h
    obtain ⟨tagPass, h₈, h⟩ := bind_eq_ok h
    cases h
    exact
      { nameDrop := compileOption_eq_ok h₁
        namePass := compileOption_eq_ok h₂
        fieldDrop := compileOption_eq_ok h₃
        fieldPass := compileOption_eq_ok h₄
        tagDrop := compileSlice_eq_ok h₇
        tagPass := compileSlice_eq_ok h₈
        tagExclude := compileOption_eq_ok h₅
        tagInclude := compileOption_eq_ok h₆
        isActive := by simp [hempty] }

/-! ## The specification -/

theorem passes_iff {pass drop : List GoString} {p d : Option (GoString → Bool)}
    (hp : FilterList.compile glob pass = .ok p) (hd : FilterList.compile glob drop = .ok d)
    (s : GoString) : passes p d s = true ↔ Passes glob pass drop s := by
  rw [passes, Bool.and_eq_true, Passes]
  refine and_congr ?_ ?_
  · cases p with
    | none => simp [FilterList.compile_eq_none hp]
    | some =>
      have hne : pass ≠ [] := by
        rintro rfl
        cases hp
      simp [hne, FilterList.matches_of_compile hp]
  · cases d with
    | none => simp [FilterList.compile_eq_none hd]
    | some =>
      have hne : drop ≠ [] := by
        rintro rfl
        cases hd
      simp [hne, FilterList.matches_of_compile hd]

theorem matchTags_iff {ts : List TagFilterConfig} {ps : List TagFilter}
    (h : Forall₂ (EntryCompiles glob) ts ps) (tags : List Tag) :
    matchTags ps tags = true ↔ TagsMatch glob ts tags := by
  induction h with
  | nil => simp [matchTags, TagsMatch]
  | @cons t p ts ps hentry _ ih =>
    obtain ⟨hname, hp⟩ := hentry
    rw [matchTags, any_cons, Bool.or_eq_true, TagsMatch, exists_mem_cons_iff]
    refine or_congr ?_ ih
    cases hfilter : p.filter with
    | none =>
      rw [hfilter] at hp
      simp [Matches, hp]
    | some =>
      rw [hfilter] at hp
      simp [matches_of_compile hp, hname]

section Slices

variable {ts : Option (List TagFilterConfig)} {ps : Option (List TagFilter)}
  (h : Option.Rel (Forall₂ (EntryCompiles glob)) ts ps) (tags : List Tag)

include h

theorem all_matchTags_iff : ps.all (matchTags · tags) = true ↔
    ts ≠ some [] ∧ (ts.getD [] = [] ∨ TagsMatch glob (ts.getD []) tags) := by
  cases h with
  | none => simp
  | @some ts ps hrel =>
    rw [Option.all_some, matchTags_iff hrel]
    cases ts with
    | nil => simp [TagsMatch]
    | cons => simp

theorem any_matchTags_iff : ps.any (matchTags · tags) = true ↔
    ¬(ts.getD [] = [] ∨ ¬TagsMatch glob (ts.getD []) tags) := by
  cases h with
  | none => simp
  | @some ts ps hrel =>
    rw [Option.any_some, matchTags_iff hrel]
    cases ts with
    | nil => simp [TagsMatch]
    | cons => simp

end Slices

variable {c : FilterConfig} {f : Filter}

/-- What the compiled filter selects, with the list that is empty and not nil apart. -/
theorem select_iff (h : Compiled glob c f) (m : Metric 𝔽) : f.select m = true ↔
    (c.allEmpty = false → c.tagPass ≠ some []) ∧ Selects glob c m := by
  cases hempty : c.allEmpty with
  | true =>
    have hactive : f.isActive = false := by simp [h.isActive, hempty]
    simp only [allEmpty, Bool.and_eq_true, beq_iff_eq, length_eq_zero_iff] at hempty
    simp [select, hactive, Selects, Passes, hempty]
  | false =>
    have hactive : f.isActive = true := by simp [h.isActive, hempty]
    rw [select, hactive, Bool.not_true, Bool.false_or, Bool.and_eq_true,
      shouldNamePass_eq, passes_iff h.namePass h.nameDrop, shouldTagsPass_eq,
      Bool.and_eq_true, all_matchTags_iff h.tagPass, Bool.not_eq_true', ← Bool.not_eq_true,
      any_matchTags_iff h.tagDrop, not_not, Selects]
    tauto

theorem keeps_modify (h : Compiled glob c f) (m : Metric 𝔽) : Keeps glob c m (f.modify m) := by
  cases hempty : c.allEmpty with
  | true =>
    have hactive : f.isActive = false := by simp [h.isActive, hempty]
    simp only [allEmpty, Bool.and_eq_true, beq_iff_eq, length_eq_zero_iff] at hempty
    simp [Filter.modify, hactive, Keeps, Passes, hempty]
  | false =>
    have hactive : f.isActive = true := by simp [h.isActive, hempty]
    have hpasses {pass drop : List GoString} {p d : Option (GoString → Bool)}
        (hp : FilterList.compile glob pass = .ok p) (hd : FilterList.compile glob drop = .ok d)
        (s : GoString) : Filter.passes p d s = decide (Passes glob pass drop s) :=
      Bool.eq_iff_iff.2 ((passes_iff hp hd s).trans decide_eq_true_iff.symm)
    rw [f.modify_eq m hactive]
    simp only [hpasses h.fieldPass h.fieldDrop, hpasses h.tagInclude h.tagExclude]
    exact ⟨rfl, rfl, rfl, rfl, rfl, rfl⟩

/-- A compiled filter selects and keeps what its lists say, except that an empty `TagPass` that
is not nil rejects what the other lists would select. -/
theorem filter_meets_lists_iff {𝔽 : Type*} {glob : GlobCompile} {c : FilterConfig} {f : Filter}
    (h : compile glob c = .ok f) (m : Metric 𝔽) :
    ((f.select m = true ↔ Selects glob c m) ∧ Keeps glob c m (f.modify m) ∧
        f.modify (f.modify m) = f.modify m) ↔
      ¬(c.tagPass = some [] ∧ c.allEmpty = false ∧ Passes glob c.namePass c.nameDrop m.name ∧
        (c.tagDrop.getD [] = [] ∨ ¬TagsMatch glob (c.tagDrop.getD []) m.tags)) := by
  have hc := compiled_of_compile h
  have hrest : Keeps glob c m (f.modify m) ∧ f.modify (f.modify m) = f.modify m :=
    ⟨keeps_modify hc m, f.modify_modify m⟩
  rw [and_iff_left hrest, select_iff hc]
  constructor
  · rintro hiff ⟨hpass, hactive, hname, hdrop⟩
    have hselects : Selects glob c m := ⟨hname, .inl (by simp [hpass]), hdrop⟩
    exact (hiff.2 hselects).1 hactive hpass
  · intro hnot
    refine ⟨And.right, fun hselects => ⟨fun hactive hpass => hnot ?_, hselects⟩⟩
    exact ⟨hpass, hactive, hselects.1, hselects.2.2⟩

/-- A name to pass and some tags to pass. -/
def cpuOnly (tagPass : Option (List TagFilterConfig)) : FilterConfig :=
  ⟨[], [str "cpu"], [str "usage*"], [], none, tagPass, [str "rack"], []⟩

def cpuMetric : Metric Unit :=
  (((empty (str "cpu") 0 .untyped).addTag (str "rack") (str "7")).addTag
    (str "host") (str "a1")).addField (str "usage_idle") (.bool true)

/-- An empty `TagPass` that is not nil rejects every metric. -/
theorem select_of_empty_tagPass :
    (∃ f, compile wildcards (cpuOnly (some [])) = .ok f ∧
      f.select cpuMetric = false) ∧
    Selects wildcards (cpuOnly (some [])) cpuMetric :=
  ⟨⟨_, rfl, by decide⟩, by decide⟩

theorem filter_meets_lists_of_host :
    ∃ f, compile wildcards (cpuOnly (some [⟨str "host", [str "a*"]⟩])) = .ok f ∧
      f.select cpuMetric = true ∧
      ((f.select cpuMetric = true ↔
          Selects wildcards (cpuOnly (some [⟨str "host", [str "a*"]⟩])) cpuMetric) ∧
        Keeps wildcards (cpuOnly (some [⟨str "host", [str "a*"]⟩])) cpuMetric
          (f.modify cpuMetric) ∧
        f.modify (f.modify cpuMetric) = f.modify cpuMetric) :=
  ⟨_, rfl, by decide, (filter_meets_lists_iff rfl cpuMetric).2 (by decide)⟩

end FilterConfig

end Telegraf
