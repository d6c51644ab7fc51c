import Telegraf.Metric

/-!
# Metric filters

`Filter` of `internal/models/filter.go` after `Compile` : which metrics are selected, and
which of their tags and fields are kept. A compiled `filter.Filter` is its `Match` function,
and `none` stands for nil.
-/

namespace Telegraf

/-- `models.TagFilter`, compiled. -/
structure TagFilter where
  name : GoString
  filter : Option (GoString → Bool)

/-- `models.Filter`, compiled. -/
structure Filter where
  nameDrop : Option (GoString → Bool)
  namePass : Option (GoString → Bool)
  fieldDrop : Option (GoString → Bool)
  fieldPass : Option (GoString → Bool)
  tagDrop : Option (List TagFilter)
  tagPass : Option (List TagFilter)
  tagExclude : Option (GoString → Bool)
  tagInclude : Option (GoString → Bool)
  isActive : Bool

namespace Filter

variable {𝔽 : Type*} (f : Filter)

/-- A filter without rules. -/
def inactive : Filter :=
  ⟨none, none, none, none, none, none, none, none, false⟩

def shouldNamePass (key : GoString) : Bool :=
  match f.namePass, f.nameDrop with
  | some pass, some drop => pass key && !drop key
  | some pass, none => pass key
  | none, some drop => !drop key
  | none, none => true

def shouldFieldPass (key : GoString) : Bool :=
  match f.fieldPass, f.fieldDrop with
  | some pass, some drop => pass key && !drop key
  | some pass, none => pass key
  | none, some drop => !drop key
  | none, none => true

/-- Some pattern with a filter matches the value of a tag of its name. -/
def matchTags (pats : List TagFilter) (tags : List Tag) : Bool :=
  pats.any fun pat =>
    match pat.filter with
    | none => false
    | some filter => tags.any fun tag => tag.key == pat.name && filter tag.value

def shouldTagsPass (tags : List Tag) : Bool :=
  match f.tagPass, f.tagDrop with
  | some pass, some drop => matchTags pass tags && !matchTags drop tags
  | some pass, none => matchTags pass tags
  | none, some drop => !matchTags drop tags
  | none, none => true

/-- `Filter.Select`. -/
def select (m : Metric 𝔽) : Bool :=
  !f.isActive || f.shouldNamePass m.name && f.shouldTagsPass m.tags

def filterFields (m : Metric 𝔽) : Metric 𝔽 :=
  ((m.fields.map Field.key).filter fun key => !f.shouldFieldPass key).foldl Metric.removeField m

/-- `filterTags`. The keys that `taginclude` removes are removed once more at the end. -/
def filterTags (m : Metric 𝔽) : Metric 𝔽 :=
  let includeKeys := match f.tagInclude with
    | none => []
    | some incl => (m.tags.map Tag.key).filter fun key => !incl key
  let m := includeKeys.foldl Metric.removeTag m
  let excludeKeys := match f.tagExclude with
    | none => []
    | some excl => (m.tags.map Tag.key).filter excl
  (includeKeys ++ excludeKeys).foldl Metric.removeTag m

/-- `Filter.Modify`. -/
def modify (m : Metric 𝔽) : Metric 𝔽 :=
  if f.isActive then f.filterTags (f.filterFields m) else m

end Filter

end Telegraf
