import Telegraf.Metric

/-!
# Applying templates

`Template.Apply` (`internal/templating/template.go`) gives the components of a line to the parts of
a template. The `break` behind a greedy part leaves the `switch` only, and the parts behind it take
their components again. Every component is used once exactly if no part behind a greedy one has a
component left to take (`uses_once_iff`).
-/

open List

namespace Telegraf.Templating

structure Template where
  separator : GoString
  parts : List GoString
  defaultTags : GoString → Option GoString
  greedyField : Bool
  greedyMeasurement : Bool

-- `split` is `strings.Split`
variable (split : GoString → GoString → List GoString)

def newTemplate (separator pattern : GoString) (defaultTags : GoString → Option GoString) :
    Option Template :=
  let parts := split pattern separator
  if parts.any fun part => (str "measurement").isPrefixOf part then
    some ⟨separator, parts, defaultTags, decide (str "field*" ∈ parts),
      decide (str "measurement*" ∈ parts)⟩
  else none

/-- What a part contributes to : the slices of `Apply`, and those in its map of tags. -/
inductive Target where
  | measurement
  | field
  | tag (name : GoString)
deriving DecidableEq

section

variable {β γ : Type} (parts : List GoString) (fields : List β) (c : Target → List β)

def append (target : Target) (xs : List β) : Target → List β :=
  fun k => if target = k then c k ++ xs else c k

/-- The body of the loop over the parts. -/
def takePart (part : GoString × ℕ) : Target → List β :=
  match fields.drop part.2 with
  | [] => c
  | x :: rest =>
    if part.1 = [] then c
    else if part.1 = str "measurement" then append c .measurement [x]
    else if part.1 = str "field" then append c .field [x]
    -- the `break` of these two cases ends the `switch`
    else if part.1 = str "field*" then append c .field (x :: rest)
    else if part.1 = str "measurement*" then append c .measurement (x :: rest)
    else append c (.tag part.1) [x]

/-- The loop over the parts. -/
def takeParts : Target → List β :=
  parts.zipIdx.foldl (takePart fields) c

/-- The default tags are set first. -/
def Template.defaults (t : Template) : Target → List GoString
  | .tag k => (t.defaultTags k).toList
  | _ => []

/-- The measurement, the tags and the field name. A tag without values is not in the map. -/
def joinAll (joiner : GoString) (c : Target → List GoString) :
    GoString × (GoString → Option GoString) × GoString :=
  (joiner.intercalate (c .measurement),
    fun k => if c (.tag k) = [] then none else some (joiner.intercalate (c (.tag k))),
    joiner.intercalate (c .field))

def Template.apply (t : Template) (line joiner : GoString) :
    Option (GoString × (GoString → Option GoString) × GoString) :=
  if (t.greedyField ∨ str "field*" ∈ t.parts) ∧
      (t.greedyMeasurement ∨ str "measurement*" ∈ t.parts) then none
  else some (joinAll joiner (takeParts t.parts (split line t.separator) t.defaults))

/-! ## Contributions -/

/-- The components that the parts take of a line of `n` components, by their positions. -/
def contributions (n : ℕ) : Target → List ℕ :=
  takeParts parts (range n) fun _ => []

def target (part : GoString) : Target :=
  if part = str "measurement" ∨ part = str "measurement*" then .measurement
  else if part = str "field" ∨ part = str "field*" then .field
  else .tag part

abbrev Greedy (part : GoString) : Prop :=
  part = str "measurement*" ∨ part = str "field*"

/-- Contributions are in line order, no component contributes twice, and the components from a
greedy part on contribute to what it is for only. -/
structure UsesOnce (n : ℕ) : Prop where
  inOrder : ∀ k, (contributions parts n k).Pairwise (· < ·)
  once : ∀ j k k', j ∈ contributions parts n k → j ∈ contributions parts n k' → k = k'
  greedy : ∀ i part, parts[i]? = some part → Greedy part → ∀ j, i ≤ j → j < n →
    ∀ k, j ∈ contributions parts n k ↔ k = target part

/-- No part behind a greedy one has a component left to take. -/
def NoneBehindGreedy (n : ℕ) : Prop :=
  ∀ i j part part', parts[i]? = some part → Greedy part → i < j → j < n →
    parts[j]? = some part' → part' = []

/-- What a part takes. -/
def takes (k : Target) (part : GoString × ℕ) : List β :=
  if part.1 = [] ∨ target part.1 ≠ k then []
  else if Greedy part.1 then fields.drop part.2
  else fields[part.2]?.toList

theorem takePart_eq (part : GoString × ℕ) (k : Target) :
    takePart fields c part k = c k ++ takes fields k part := by
  obtain ⟨part, i⟩ := part
  have hdistinct :
      [str "measurement", str "field", str "field*", str "measurement*", []].Nodup := by decide
  rw [takePart, takes, ← head?_drop]
  cases fields.drop i with
  | nil => simp
  | cons => grind [target, append]

theorem takeParts_eq (k : Target) :
    takeParts parts fields c k = c k ++ parts.zipIdx.flatMap (takes fields k) := by
  unfold takeParts
  induction parts.zipIdx generalizing c with
  | nil => simp
  | cons part l ih => rw [foldl_cons, ih, takePart_eq, flatMap_cons, append_assoc]

theorem takes_map (f : β → γ) (k : Target) (part : GoString × ℕ) :
    takes (fields.map f) k part = (takes fields k part).map f := by
  unfold takes
  split_ifs
  · rfl
  · exact map_drop.symm
  · cases h : fields[part.2]? <;> simp [h]

end

section

variable {parts : List GoString} {part : GoString} {n i j : ℕ} {k : Target}

theorem contributions_eq : contributions parts n k = parts.zipIdx.flatMap (takes (range n) k) :=
  (takeParts_eq _ _ _ _).trans (nil_append _)

/-- What is taken are the components at the positions that contribute. -/
theorem takeParts_eq_map (fields : List GoString) (c : Target → List GoString) :
    takeParts parts fields c = fun k =>
      c k ++ (contributions parts fields.length k).map fun i => fields.getD i [] := by
  have hfields : (range fields.length).map (fun i => fields.getD i []) = fields := by
    refine ext_getElem (by simp) fun i _ hi => ?_
    simp [hi]
  funext k
  rw [contributions_eq, takeParts_eq, map_flatMap]
  congr 2
  funext part
  rw [← takes_map, hfields]

theorem mem_takes_range : j ∈ takes (range n) k (part, i) ↔
    part ≠ [] ∧ target part = k ∧ i ≤ j ∧ j < n ∧ (Greedy part ∨ j = i) := by
  have hdrop : j ∈ (range n).drop i ↔ i ≤ j ∧ j < n := by
    rw [range_eq_range', drop_range', mem_range'_1]
    omega
  have hone : j ∈ (range n)[i]?.toList ↔ j < n ∧ j = i := by
    simp [getElem?_eq_some_iff]
    omega
  grind [takes]

theorem mem_contributions : j ∈ contributions parts n k ↔
    ∃ i part, parts[i]? = some part ∧ j ∈ takes (range n) k (part, i) := by
  rw [contributions_eq, mem_flatMap, Prod.exists, exists_comm]
  simp only [mem_zipIdx_iff_getElem?]

section

variable (h : NoneBehindGreedy parts n)

include h

/-- A part in front of one that takes something has its own component only. -/
theorem NoneBehindGreedy.lt_of_lt {i' j' : ℕ} {part' : GoString} {k' : Target}
    (hpart : parts[i]? = some part) (hpart' : parts[i']? = some part') (hlt : i < i')
    (hj : j ∈ takes (range n) k (part, i)) (hj' : j' ∈ takes (range n) k' (part', i')) :
    j < j' := by
  obtain ⟨hne, -, hle, hn, -⟩ := mem_takes_range.1 hj'
  obtain ⟨-, -, -, -, hgreedy | rfl⟩ := mem_takes_range.1 hj
  · exact absurd (h i i' part part' hpart hgreedy hlt (Nat.lt_of_le_of_lt hle hn) hpart') hne
  · exact Nat.lt_of_lt_of_le hlt hle

theorem NoneBehindGreedy.once {k' : Target} (hk : j ∈ contributions parts n k)
    (hk' : j ∈ contributions parts n k') : k = k' := by
  obtain ⟨i, _, hpart, hj⟩ := mem_contributions.1 hk
  obtain ⟨i', _, hpart', hj'⟩ := mem_contributions.1 hk'
  rcases Nat.lt_trichotomy i i' with hlt | rfl | hlt
  · exact absurd (h.lt_of_lt hpart hpart' hlt hj hj') (Nat.lt_irrefl j)
  · cases hpart.symm.trans hpart'
    exact (mem_takes_range.1 hj).2.1.symm.trans (mem_takes_range.1 hj').2.1
  · exact absurd (h.lt_of_lt hpart' hpart hlt hj' hj) (Nat.lt_irrefl j)

theorem NoneBehindGreedy.inOrder (k : Target) : (contributions parts n k).Pairwise (· < ·) := by
  have hindex : parts.zipIdx.Pairwise fun p q => p.2 < q.2 := by
    rw [← pairwise_map (R := (· < ·)), zipIdx_map_snd]
    exact pairwise_lt_range'
  rw [contributions_eq, pairwise_flatMap]
  refine ⟨fun p _ => ?_, hindex.imp_of_mem fun {p q} hp hq hlt x hx y hy => ?_⟩
  · unfold takes
    split_ifs
    · exact Pairwise.nil
    · exact pairwise_lt_range.sublist (drop_sublist _ _)
    · cases (range n)[p.2]? <;> simp
  · exact h.lt_of_lt (mem_zipIdx_iff_getElem?.1 hp) (mem_zipIdx_iff_getElem?.1 hq) hlt hx hy

end

theorem Greedy.mem_takes (hgreedy : Greedy part) (hle : i ≤ j) (hn : j < n) :
    j ∈ takes (range n) (target part) (part, i) := by
  refine mem_takes_range.2 ⟨?_, rfl, hle, hn, .inl hgreedy⟩
  rintro rfl
  exact absurd hgreedy (by decide)

theorem usesOnce_iff_noneBehindGreedy : UsesOnce parts n ↔ NoneBehindGreedy parts n := by
  constructor
  · intro h i j part part' hpart hgreedy hlt hn hpart'
    by_contra hne
    have hj' : j ∈ takes (range n) (target part') (part', j) :=
      mem_takes_range.2 ⟨hne, rfl, Nat.le_refl j, hn, .inr rfl⟩
    have hle := Nat.le_of_lt hlt
    rw [(h.greedy i part hpart hgreedy j hle hn _).1
      (mem_contributions.2 ⟨j, part', hpart', hj'⟩)] at hj'
    -- both parts take the component for the same target
    have horder := h.inOrder (target part)
    rw [contributions_eq, pairwise_flatMap, pairwise_iff_getElem] at horder
    obtain ⟨hi, rfl⟩ := List.getElem?_eq_some_iff.1 hpart
    obtain ⟨hj, rfl⟩ := List.getElem?_eq_some_iff.1 hpart'
    have hlt' := horder.2 i j (by simpa using hi) (by simpa using hj) hlt
    simp only [getElem_zipIdx, Nat.zero_add] at hlt'
    exact Nat.lt_irrefl j (hlt' j (hgreedy.mem_takes hle hn) j hj')
  · intro h
    refine ⟨h.inOrder, fun _ _ _ => h.once, fun i part hpart hgreedy j hle hn k => ?_⟩
    have hmem := mem_contributions.2 ⟨i, part, hpart, hgreedy.mem_takes hle hn⟩
    exact ⟨fun hk => h.once hk hmem, fun hk => hk ▸ hmem⟩

end

/-- For a template with one kind of greedy parts at most, `Apply` joins what the components
contribute, and every component is used once if and only if no part behind a greedy one has a
component left to take. -/
theorem uses_once_iff (separator pattern : GoString) (defaultTags : GoString → Option GoString)
    {t : Template} (ht : newTemplate split separator pattern defaultTags = some t)
    (hone : ¬(str "field*" ∈ t.parts ∧ str "measurement*" ∈ t.parts)) (line joiner : GoString) :
    let fields := split line t.separator
    t.apply split line joiner = some (joinAll joiner fun k =>
        t.defaults k ++ (contributions t.parts fields.length k).map fun i => fields.getD i []) ∧
      (UsesOnce t.parts fields.length ↔ NoneBehindGreedy t.parts fields.length) := by
  refine ⟨?_, usesOnce_iff_noneBehindGreedy⟩
  rw [← takeParts_eq_map, Template.apply, if_neg]
  dsimp only [newTemplate] at ht
  split_ifs at ht
  cases ht
  simpa using hone

/-- `strings.Split` at dots. -/
def dots (s _separator : GoString) : List GoString := s.splitOn 46

/-- The first component is a tag, and the greedy part takes the others. -/
theorem uses_once_tag_first : ∃ t,
    newTemplate dots (str ".") (str "host.measurement*") (fun _ => none) = some t ∧
      UsesOnce t.parts (dots (str "a.b.c") t.separator).length := by
  refine ⟨_, rfl, (uses_once_iff dots (str ".") (str "host.measurement*") (fun _ => none) rfl
    (by decide) (str "a.b.c") []).2.2 ?_⟩
  rintro (_ | i) (_ | _ | j) part _ hpart hgreedy hlt - hpart'
  · exact absurd hlt (Nat.lt_irrefl 0)
  · cases hpart
    exact absurd hgreedy (by decide)
  · cases hpart'
  · exact absurd hlt (Nat.not_lt_zero _)
  · exact absurd hlt (by omega)
  · cases hpart'

/-- The second component is in the measurement and in the tag. -/
theorem component_used_twice :
    ((newTemplate dots (str ".") (str "measurement*.host") fun _ => none).bind fun t =>
      (t.apply dots (str "a.b") (str ".")).map fun r => (r.1, r.2.1 (str "host"), r.2.2)) =
        some (str "a.b", some (str "b"), []) := by
  decide

end Telegraf.Templating
