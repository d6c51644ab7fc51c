import Telegraf.Delimited
import Telegraf.MetricMap

/-!
# The identity of a series

The bytes that `metric.HashID` feeds to the hash : the name and the keys and values of the
tags, each followed by a newline. The bytes do not say whether a newline is one of these or
part of a name, key or value, so two metrics have the same bytes if and only if they have the
same lines, however the lines are distributed over their names, keys and values.
-/

open List

namespace Telegraf

namespace Metric

variable {𝔽 : Type*}

/-- What `HashID` writes. -/
def seriesKey (m : Metric 𝔽) : GoString :=
  m.name ++ str "\n" ++ m.tags.flatMap fun t => t.key ++ str "\n" ++ t.value ++ str "\n"

/-- The name, and the keys and values. -/
def components (m : Metric 𝔽) : List GoString :=
  m.name :: m.tags.flatMap fun t => [t.key, t.value]

/-- The lines of the components. -/
def lines (m : Metric 𝔽) : List GoString :=
  m.components.flatMap (splitOn 10)

/-- The metrics have the same lines with the newlines in other places. -/
def Redistributes (m m' : Metric 𝔽) : Prop :=
  m.lines = m'.lines ∧ m.components.map (count 10) ≠ m'.components.map (count 10)

theorem seriesKey_eq_flatMap (m : Metric 𝔽) : m.seriesKey = m.components.flatMap (· ++ [10]) := by
  have htags : ∀ tags : List Tag, (tags.flatMap fun t => t.key ++ str "\n" ++ t.value ++ str "\n") =
        (tags.flatMap fun t => [t.key, t.value]).flatMap (· ++ [10]) := by
    intro tags
    rw [flatMap_assoc, show str "\n" = [10] by decide]
    simp
  rw [seriesKey, htags, components, flatMap_cons, show str "\n" = [10] by decide]

theorem seriesKey_eq_iff (m m' : Metric 𝔽) : m.seriesKey = m'.seriesKey ↔ m.lines = m'.lines := by
  rw [seriesKey_eq_flatMap, seriesKey_eq_flatMap]
  exact Delimited.flatMap_snoc_eq_iff

theorem tags_eq_of_flatMap_eq : ∀ {tags tags' : List Tag},
    (tags.flatMap fun t => [t.key, t.value]) = (tags'.flatMap fun t => [t.key, t.value]) →
    tags = tags'
  | [], [], _ => rfl
  | [], t' :: tags', h => by simp at h
  | t :: tags, [], h => by simp at h
  | ⟨key, value⟩ :: tags, ⟨key', value'⟩ :: tags', h => by
    simp only [flatMap_cons, cons_append, nil_append, cons.injEq] at h
    obtain ⟨rfl, rfl, hrest⟩ := h
    rw [tags_eq_of_flatMap_eq hrest]

/-- The components are the name and the tags. -/
theorem components_eq_iff (m m' : Metric 𝔽) :
    m.components = m'.components ↔ m.name = m'.name ∧ m.tags = m'.tags := by
  rw [components, components, cons.injEq]
  exact and_congr_right fun _ => ⟨tags_eq_of_flatMap_eq, fun h => by rw [h]⟩

/-- The bytes determine the series unless the metrics have the same lines with the newlines in
other places. -/
theorem seriesKey_determines_iff (m m' : Metric 𝔽) :
    (m.seriesKey = m'.seriesKey → m.name = m'.name ∧ m.toMap.tags = m'.toMap.tags) ↔
      ¬Redistributes m m' := by
  rw [seriesKey_eq_iff]
  constructor
  · rintro h ⟨hlines, hcount⟩
    obtain ⟨hname, htags⟩ := h hlines
    exact hcount (by rw [(components_eq_iff m m').2 ⟨hname, tags_eq_of_toMap htags⟩])
  · intro hnot hlines
    have hcount : m.components.map (count 10) = m'.components.map (count 10) := by
      by_contra hne
      exact hnot ⟨hlines, hne⟩
    obtain ⟨hname, htags⟩ := (components_eq_iff m m').1
      (Delimited.eq_of_flatMap_splitOn_eq hlines hcount)
    rw [toMap, toMap, htags]
    exact ⟨hname, rfl⟩

/-- A name with two newlines, and a name with a tag. -/
theorem seriesKey_of_newlines :
    (empty (str "cpu\nhost\na") 0 .untyped : Metric Unit).seriesKey =
        ((empty (str "cpu") 0 .untyped).addTag (str "host") (str "a") : Metric Unit).seriesKey ∧
      (empty (str "cpu\nhost\na") 0 .untyped : Metric Unit).name ≠
        ((empty (str "cpu") 0 .untyped).addTag (str "host") (str "a") : Metric Unit).name := by
  decide

end Metric

end Telegraf
