import Telegraf.Prometheus

/-!
# Sanitised names

`sanitize` (`plugins/serializers/prometheus/convert.go`) leaves out a first rune that is not
allowed, writes the others that are not allowed as underscores, and trims underscores. What comes
first then was checked as one of the other runes only, and can be a digit. A name is sanitised as it
should be exactly if it is valid, or the first character that survives and is no underscore is no
digit (`sanitises_iff`).
-/

open List

namespace Telegraf.Prometheus

/-- The characters of a name that are not replaced. -/
def Table.survivors (table : Table) : List (Option UInt8) → List UInt8
  | [] => []
  | r :: rs => (r.filter table.first).toList ++ rs.filterMap fun r => r.filter table.rest

def isDigit (b : UInt8) : Bool := 0x30 ≤ b && b ≤ 0x39

/-- A sanitised name is valid and stays as it is, a valid name is not changed, and a name is
rejected only if no character survives but underscores. -/
structure Sanitises (table : Table) (name : GoString) : Prop where
  valid : ∀ t, sanitize table name = some t →
    table.isValid t = true ∧ sanitize table t = some t
  same : table.isValid name = true → sanitize table name = some name
  rejected : sanitize table name = none → ∀ b ∈ table.survivors (runes name), b = 0x5F

/-- The first character that survives and is no underscore is no digit. -/
def Table.NoDigitFirst (table : Table) (name : GoString) : Prop :=
  ∀ b, (table.survivors (runes name)).find? (fun b => b != 0x5F) = some b → isDigit b = false

/-- What both tables have in common. -/
structure Table.Laws (table : Table) : Prop where
  ascii : ∀ b, table.rest b = true → b < 0x80
  first : ∀ b, table.first b = (table.rest b && !isDigit b)
  underscore : table.rest 0x5F = true

theorem laws : metricNameTable.Laws ∧ labelNameTable.Laws := by
  refine ⟨⟨fun b => ?_, fun b => ?_, by decide⟩, ⟨fun b => ?_, fun b => ?_, by decide⟩⟩ <;>
    simp only [metricNameTable, labelNameTable, isUpper, isLower, isDigit, UInt8.le_iff_toNat_le,
      UInt8.lt_iff_toNat_lt, ← UInt8.toNat_inj] <;>
    grind

theorem runeSize_of_ascii {b : UInt8} (h : b < 0x80) (s : GoString) : runeSize (b :: s) = 1 := by
  rw [UInt8.lt_iff_toNat_lt] at h
  have hlow : ∀ x : UInt8, 0x80 ≤ x.toNat → ¬x ≤ b := fun x hx hle => by
    rw [UInt8.le_iff_toNat_le] at hle
    exact absurd h (by change ¬b.toNat < 128; omega)
  rcases s with _ | ⟨c, _ | ⟨d, _ | ⟨e, s⟩⟩⟩ <;>
    simp [runeSize, runeSize.runeSize2, runeSize.runeSize3, hlow]

/-- The runes of ASCII bytes are the bytes. -/
theorem runes_of_ascii : ∀ {s : GoString}, (∀ b ∈ s, b < 0x80) → runes s = s.map some
  | [], _ => rfl
  | b :: s, h => by
    have hb := h b mem_cons_self
    have hrest : runes s = s.map some := runes_of_ascii fun c hc => h c (mem_cons_of_mem _ hc)
    rw [runes] at hrest ⊢
    rw [runesFrom, runeSize_of_ascii hb, if_pos hb, hrest, map_cons]

variable {table : Table} {name : GoString}

theorem isValid_iff (h : table.Laws) {t : GoString} (ht : ∀ b ∈ t, table.rest b = true) :
    table.isValid t = true ↔ ∃ b, t.head? = some b ∧ isDigit b = false := by
  rw [Table.isValid, runes_of_ascii fun b hb => h.ascii b (ht b hb)]
  cases t with
  | nil => simp
  | cons b t =>
    have hb := ht b mem_cons_self
    have hall : ∀ c ∈ t, table.rest c = true := fun c hc => ht c (mem_cons_of_mem _ hc)
    simpa [h.first, hb] using fun _ => hall

/-- What is written is allowed behind the first position. -/
theorem rest_of_mem_replaced (h : table.Laws) {rs : List (Option UInt8)} {b : UInt8}
    (hb : b ∈ table.replaced rs) : table.rest b = true := by
  cases rs with
  | nil => cases hb
  | cons =>
    rcases mem_append.1 hb with hb | hb
    · obtain ⟨-, hfirst⟩ := Option.filter_eq_some_iff.1 (Option.mem_toList.1 hb)
      rw [h.first, Bool.and_eq_true] at hfirst
      exact hfirst.1
    · obtain ⟨r', -, rfl⟩ := mem_map.1 hb
      cases hr : r'.filter table.rest with
      | none => exact h.underscore
      | some => exact (Option.filter_eq_some_iff.1 hr).2

/-- Only underscores are written for what does not survive. -/
theorem filter_replaced (rs : List (Option UInt8)) :
    (table.replaced rs).filter (fun b => b != 0x5F) =
      (table.survivors rs).filter fun b => b != 0x5F := by
  cases rs with
  | nil => rfl
  | cons r rs =>
    rw [Table.replaced, Table.survivors, filter_append, filter_append]
    congr 1
    induction rs with
    | nil => rfl
    | cons r rs ih => cases hr : r.filter table.rest <;> simp [filter_cons, hr, ih]

/-- What comes first after trimming is the first character that is no underscore. -/
theorem head?_trimUnderscores (s : GoString) :
    (trimUnderscores s).head? = (s.filter fun b => b != 0x5F).head? := by
  have hp : (fun b : UInt8 => !(b != 0x5F)) = fun b => decide (b = 0x5F) :=
    funext fun b => Bool.not_not _
  rw [head?_filter, find?_eq_head?_dropWhile_not, hp, trimUnderscores]
  cases hs : s.dropWhile fun b => decide (b = 0x5F) with
  | nil => rfl
  | cons b bs =>
    have hb : decide (b = 0x5F) = false := by
      have hb := head?_dropWhile_not (fun b => decide (b = 0x5F)) s
      rwa [hs] at hb
    have hne : rdropWhile (fun b => decide (b = 0x5F)) (b :: bs) ≠ [] := fun hnil =>
      Bool.false_ne_true (hb.symm.trans (rdropWhile_eq_nil_iff.1 hnil b mem_cons_self))
    obtain ⟨u, hu⟩ := rdropWhile_prefix (fun b => decide (b = 0x5F)) (b :: bs)
    rw [← head?_append_of_ne_nil _ hne, hu]

theorem sanitises_iff_of_laws (h : table.Laws) :
    Sanitises table name ↔ table.isValid name = true ∨ table.NoDigitFirst name := by
  by_cases hvalid : table.isValid name = true
  · have hsame : sanitize table name = some name := if_pos hvalid
    refine iff_of_true ⟨fun t ht => ?_, fun _ => hsame, fun hnone => ?_⟩ (.inl hvalid)
    · cases hsame.symm.trans ht
      exact ⟨hvalid, hsame⟩
    · cases hsame.symm.trans hnone
  · have hsanitize : sanitize table name =
        if trimUnderscores (table.replaced (runes name)) = [] then none
        else some (trimUnderscores (table.replaced (runes name))) := if_neg hvalid
    have hrest : ∀ b ∈ trimUnderscores (table.replaced (runes name)), table.rest b = true :=
      fun b hb => rest_of_mem_replaced h ((dropWhile_suffix _).subset
        (( rdropWhile_prefix _ _).subset hb))
    have hiff := isValid_iff h hrest
    have hhead := head?_trimUnderscores (table.replaced (runes name))
    simp only [hvalid, false_or, Bool.false_eq_true]
    rw [filter_replaced] at hhead
    rw [Table.NoDigitFirst, ← head?_filter, ← hhead]
    split_ifs at hsanitize with hnil
    · refine iff_of_true ⟨fun t ht => ?_, fun h => absurd h hvalid, fun _ b hb => ?_⟩ ?_
      · cases hsanitize.symm.trans ht
      · rw [hnil, eq_comm, head?_nil, head?_eq_none_iff, filter_eq_nil_iff] at hhead
        simpa using hhead b hb
      · rw [hnil]
        exact fun b hb => nomatch hb
    · constructor
      · intro hs b hb
        obtain ⟨_, hb', hdigit⟩ := hiff.1 (hs.valid _ hsanitize).1
        cases hb.symm.trans hb'
        exact hdigit
      · intro hdigit
        obtain ⟨b, t, ht⟩ := exists_cons_of_ne_nil hnil
        have htrue := hiff.2 ⟨b, by rw [ht, head?_cons], hdigit b (by rw [ht, head?_cons])⟩
        refine ⟨fun t ht => ?_, fun h => absurd h hvalid, fun hnone => ?_⟩
        · cases hsanitize.symm.trans ht
          exact ⟨htrue, if_pos htrue⟩
        · cases hsanitize.symm.trans hnone

/-- With both tables, a name is sanitised as it should be if and only if it is valid or the first
character that survives and is no underscore is no digit. -/
theorem sanitises_iff (name : GoString) :
    (Sanitises metricNameTable name ↔
        metricNameTable.isValid name = true ∨ metricNameTable.NoDigitFirst name) ∧
      (Sanitises labelNameTable name ↔
        labelNameTable.isValid name = true ∨ labelNameTable.NoDigitFirst name) :=
  ⟨sanitises_iff_of_laws laws.1, sanitises_iff_of_laws laws.2⟩

/-- The minus is left out and the digit comes first. -/
theorem digit_comes_first : sanitize metricNameTable (str "-1") = some (str "1") ∧
    metricNameTable.isValid (str "1") = false ∧ sanitize metricNameTable (str "1") = none := by
  decide

end Telegraf.Prometheus
