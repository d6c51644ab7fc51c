import Telegraf.InfluxTokens

/-!
# Escaping and unescaping

The escapers of the serializer (`plugins/serializers/influx/escape.go`) work byte by byte, and none
of them escapes a backslash in a name, a tag or a field key. Whether the machine reads an escaped
element to its end, and not over the separator behind it, is a question of the backslashes :
`Element.encodable` says when, of the string itself (`walk_escaped_iff`).

The unescapers of the parser (`plugins/parsers/influx/escape.go`) undo the escapers on strings
without a backslash and without a tab, a newline, a form feed or a carriage return, and those of
the string fields do on every string.
-/

open List

namespace Telegraf.Influx

open Replacer

variable {b : UInt8} {s t : GoString}

/-! ## Byte by byte -/

/-- A byte that has to be escaped, behind a backslash. -/
def escaped (separators : GoString) (b : UInt8) : GoString :=
  if b ∈ separators then [92, b] else [b]

/-- A byte of a name, a tag or a field key as it is written. -/
def escapeByte (separators : GoString) (b : UInt8) : GoString :=
  if b = 9 then str "\\t" else if b = 10 then str "\\n" else if b = 12 then str "\\f"
  else if b = 13 then str "\\r" else escaped separators b

variable {σ : List (GoString × GoString)} {elems : GoString}

/-- An escaper with patterns of one byte, which is used if there is something to escape. -/
theorem replacer_eq_flatMap {f : UInt8 → GoString} (hσ : ∀ e ∈ σ, e.1.length = 1)
    (hf : ∀ b, ((matchAt σ [b]).map Prod.snd).getD [b] = f b) (helems : ∀ b, b ∉ elems → f b = [b])
    (s : GoString) : (if containsAny s elems then replace σ s else s) = s.flatMap f := by
  split
  · rw [replace_eq_flatMap_of_length_eq_one hσ]
    exact flatMap_congr fun b _ => hf b
  · next hnone =>
    have hall : ∀ b ∈ s, f b = [b] := fun b hb =>
      helems b fun hmem => hnone (any_eq_true.2 ⟨b, hb, by simpa using hmem⟩)
    rw [flatMap_congr hall]
    simp

theorem escape_eq_flatMap (s : GoString) : escape s = s.flatMap (escapeByte [32, 44, 61]) := by
  have hσ : escaper = [([9], str "\\t"), ([10], str "\\n"), ([12], str "\\f"), ([13], str "\\r"),
      ([44], [92, 44]), ([32], [92, 32]), ([61], [92, 61])] := rfl
  refine replacer_eq_flatMap (by decide) (fun b => ?_) (fun b hb => ?_) s
  · rw [hσ]
    simp only [matchAt_cons_singleton, escapeByte, escaped]
    grind [matchAt]
  · have hesc : escapes = [9, 10, 12, 13, 32, 44, 61] := rfl
    simp [hesc] at hb
    simp [escapeByte, escaped, hb]

theorem nameEscape_eq_flatMap (s : GoString) : nameEscape s = s.flatMap (escapeByte [32, 44]) := by
  have hσ : nameEscaper = [([9], str "\\t"), ([10], str "\\n"), ([12], str "\\f"),
      ([13], str "\\r"), ([44], [92, 44]), ([32], [92, 32])] := rfl
  refine replacer_eq_flatMap (by decide) (fun b => ?_) (fun b hb => ?_) s
  · rw [hσ]
    simp only [matchAt_cons_singleton, escapeByte, escaped]
    grind [matchAt]
  · have hesc : nameEscapes = [9, 10, 12, 13, 32, 44] := rfl
    simp [hesc] at hb
    simp [escapeByte, escaped, hb]

theorem stringFieldEscape_eq_flatMap (s : GoString) :
    stringFieldEscape s = s.flatMap (escaped [34, 92]) := by
  have hσ : stringFieldEscaper = [([34], [92, 34]), ([92], [92, 92])] := rfl
  refine replacer_eq_flatMap (by decide) (fun b => ?_) (fun b hb => ?_) s
  · rw [hσ]
    simp only [matchAt_cons_singleton, escaped]
    grind [matchAt]
  · have hesc : stringFieldEscapes = [9, 10, 12, 13, 92, 34] := rfl
    simp [hesc] at hb
    simp [escaped, hb]

theorem escapeByte_ne_nil (separators : GoString) (b : UInt8) : escapeByte separators b ≠ [] := by
  unfold escapeByte escaped
  split_ifs <;> exact cons_ne_nil _ _

variable {separators : GoString}

theorem flatMap_escapeByte_eq_nil : s.flatMap (escapeByte separators) = [] ↔ s = [] := by
  rw [flatMap_eq_nil_iff]
  constructor
  · intro h
    exact eq_nil_iff_forall_not_mem.2 fun b hb => escapeByte_ne_nil separators b (h b hb)
  · rintro rfl
    simp

theorem escape_eq_nil : escape s = [] ↔ s = [] := by
  rw [escape_eq_flatMap]
  exact flatMap_escapeByte_eq_nil

theorem nameEscape_eq_nil : nameEscape s = [] ↔ s = [] := by
  rw [nameEscape_eq_flatMap]
  exact flatMap_escapeByte_eq_nil

/-- A first byte that is no backslash is the first byte of the string itself. -/
theorem head?_of_head?_escaped (hb : b ≠ 92)
    (h : (s.flatMap (escapeByte separators)).head? = some b) : s.head? = some b := by
  cases s with
  | nil => simp at h
  | cons c =>
    have hfirst : (escapeByte separators c).head? = some b := by
      obtain ⟨d, _, hd⟩ := exists_cons_of_ne_nil (escapeByte_ne_nil separators c)
      simpa [hd] using h
    have hcases : (escapeByte separators c).head? = some c ∨
        (escapeByte separators c).head? = some 92 := by
      unfold escapeByte escaped
      split_ifs
      all_goals first | exact .inl rfl | exact .inr rfl
    rcases hcases with hc | hc
    · exact hc.symm.trans hfirst
    · exact absurd (Option.some.inj (hfirst.symm.trans hc)) hb

/-! ## Which strings can be written -/

/-- The backslashes of the string leave its element and its separators as they are. `esc` is true
behind a backslash. A backslash at the end would escape the separator behind the element, and
behind one backslash the one of an escaped separator would be a pair with it. -/
def Element.encodable (el : Element) : Bool → GoString → Bool
  | esc, [] => !esc
  | false, b :: s =>
    if b = 92 then el.encodable true s else !(el.blank && b = 11) && el.encodable false s
  | true, b :: s =>
    if b = 92 then el.encodable (!el.pairs) s
    else !(el.pairs && b ∈ el.separators) && el.encodable false s

/-- The separators of an element are no control characters, and none is a backslash or a letter
that stands for a control character. -/
structure Element.Separators (el : Element) : Prop where
  escapable : el.separators.all isEscapable = true
  notMem : [11, 92, 116, 110, 102, 114].all (· ∉ el.separators) = true

variable {el : Element}

theorem Element.Separators.ne (hel : el.Separators) (hb : b ∈ el.separators) :
    b ∉ [11, 92, 116, 110, 102, 114] := by
  intro hmem
  have hnot := all_eq_true.1 hel.notMem b hmem
  exact of_decide_eq_true hnot hb

theorem Element.walk_pair (el : Element) (esc : Bool) (hb : isEscapable b = true) (h92 : b ≠ 92)
    (t : GoString) : el.walk esc (92 :: b :: t) =
      if (esc && el.pairs && !el.plain b) = true then none else el.walk false t := by
  cases esc with
  | false => simp [walk, hb, h92]
  | true =>
    cases hpairs : el.pairs with
    | false => simp [walk, hb, h92, hpairs]
    | true => cases hplain : el.plain b <;> simp [walk, h92, hpairs, hplain]

theorem Element.Separators.plain_letter (hel : el.Separators)
    (hb : b ∈ [(116 : UInt8), 110, 102, 114]) : el.plain b = true := by
  simp only [mem_cons, not_mem_nil, or_false] at hb
  rw [plain_iff]
  rcases hb with rfl | rfl | rfl | rfl <;>
    exact ⟨by decide, by decide, fun h => hel.ne h (by decide), fun _ => by decide⟩

theorem escapeByte_of_not_escapable (separators : GoString) (hb : isEscapable b = false) :
    ∃ c ∈ [(116 : UInt8), 110, 102, 114], escapeByte separators b = [92, c] := by
  simp only [isEscapable, Bool.not_eq_false', Bool.or_eq_true, decide_eq_true_eq] at hb
  rcases hb with ((rfl | rfl) | rfl) | rfl
  exacts [⟨116, by decide, rfl⟩, ⟨110, by decide, rfl⟩, ⟨102, by decide, rfl⟩,
    ⟨114, by decide, rfl⟩]

theorem escapeByte_of_escapable (separators : GoString) (hb : isEscapable b = true) :
    escapeByte separators b = escaped separators b := by
  simp only [isEscapable, Bool.not_eq_true', Bool.or_eq_false_iff, decide_eq_false_iff_not] at hb
  simp [escapeByte, hb]

/-- What the machine makes of one byte as it is written. -/
theorem Element.walk_escapeByte (hel : el.Separators) (esc : Bool) (b : UInt8) (t : GoString) :
    el.walk esc (escapeByte el.separators b ++ t) =
      if b = 92 then el.walk (!(esc && el.pairs)) t
      else if (esc && el.pairs && b ∈ el.separators || !esc && el.blank && b = 11) = true then none
      else el.walk false t := by
  cases hb : isEscapable b with
  | false =>
    obtain ⟨c, hc, heq⟩ := escapeByte_of_not_escapable el.separators hb
    have hplain := plain_iff.1 (hel.plain_letter hc)
    have hesc : isEscapable c = true := by
      simp [isEscapable, hplain]
    have hmem : b ∉ el.separators := by
      intro hmem
      rw [all_eq_true.1 hel.escapable b hmem] at hb
      cases hb
    have h92 : b ≠ 92 := by
      rintro rfl
      cases hb
    have h11 : b ≠ 11 := by
      rintro rfl
      cases hb
    rw [heq, cons_append, singleton_append, el.walk_pair esc hesc hplain.2.1, hel.plain_letter hc]
    simp [hmem, h92, h11]
  | true =>
    rw [escapeByte_of_escapable _ hb, escaped]
    by_cases hmem : b ∈ el.separators
    · have hnot := hel.ne hmem
      simp only [mem_cons, not_mem_nil, or_false, not_or] at hnot
      have hplain : el.plain b = false := by simp [Element.plain, hmem]
      rw [if_pos hmem, cons_append, singleton_append, el.walk_pair esc hb hnot.2.1, hplain]
      simp [hmem, hnot]
    · rw [if_neg hmem, singleton_append]
      by_cases h92 : b = 92
      · cases esc <;> simp [Element.walk, h92]
      · cases esc with
        | false =>
          have hplain : el.plain b = !(el.blank && b = 11) := by simp [Element.plain, hb, h92, hmem]
          cases hblank : el.blank && b = 11 <;> simp [Element.walk, h92, hplain, hblank]
        | true => simp [Element.walk, h92, hb, hmem]

/-- The machine reads an element to its end exactly if the string can be written. -/
theorem Element.walk_escaped_iff (hel : el.Separators) :
    ∀ (s : GoString) {esc : Bool},
      el.walk esc (s.flatMap (escapeByte el.separators)) = some false ↔ el.encodable esc s = true
  | [], esc => by simp [walk, encodable]
  | b :: s, esc => by
    rw [flatMap_cons, walk_escapeByte hel]
    by_cases h92 : b = 92
    · rw [if_pos h92, walk_escaped_iff hel s]
      cases esc <;> simp [encodable, h92]
    · rw [if_neg h92]
      cases esc with
      | false =>
        cases hblank : el.blank && b = 11 <;>
          simp [encodable, h92, hblank, walk_escaped_iff hel s]
      | true =>
        cases hpair : el.pairs && b ∈ el.separators <;>
          simp [encodable, h92, hpair, walk_escaped_iff hel s]

namespace Element

theorem name_walk_iff : name.walk false (nameEscape s) = some false ↔
    name.encodable false s = true := by
  rw [nameEscape_eq_flatMap]
  exact walk_escaped_iff ⟨rfl, rfl⟩ s

theorem walk_escape_iff (hel : el.Separators) (hsep : el.separators = [32, 44, 61]) :
    el.walk false (escape s) = some false ↔ el.encodable false s = true := by
  rw [escape_eq_flatMap, ← hsep]
  exact walk_escaped_iff hel s

/-- Without backslashes and vertical tabs there is nothing that could go wrong. -/
theorem encodable_of_notMem : ∀ {s : GoString}, 92 ∉ s → 11 ∉ s →
    el.encodable false s = true
  | [], _, _ => rfl
  | b :: s, h92, h11 => by
    rw [mem_cons, not_or] at h92 h11
    have hb92 : b ≠ 92 := Ne.symm h92.1
    have hb11 : b ≠ 11 := Ne.symm h11.1
    simp [encodable, hb92, hb11, encodable_of_notMem h92.2 h11.2]

end Element

theorem stringWalk_escaped : ∀ s : GoString,
    stringWalk false (s.flatMap (escaped [34, 92])) = some false
  | [] => rfl
  | b :: s => by
    rw [flatMap_cons, escaped]
    by_cases hmem : b ∈ [(34 : UInt8), 92]
    · have hb : b = 34 ∨ b = 92 := by simpa using hmem
      simp [hmem, hb, stringWalk, stringWalk_escaped s]
    · have hb : b ≠ 34 ∧ b ≠ 92 := by simpa using hmem
      simp [hb, stringWalk, stringWalk_escaped s]

theorem stringWalk_stringFieldEscape (s : GoString) :
    stringWalk false (stringFieldEscape s) = some false := by
  rw [stringFieldEscape_eq_flatMap]
  exact stringWalk_escaped s

/-! ## Unescaping -/

/-- An unescaper for some separators drops the backslashes before them. -/
structure Unescaper (separators : GoString) (σ : List (GoString × GoString)) : Prop where
  pair : ∀ e ∈ σ, e.1 = 92 :: e.2 ∧ e.2.length = 1
  mem : separators.all (fun b => ([92, b], [b]) ∈ σ) = true

section

variable (hσ : Unescaper separators σ)

include hσ

theorem Unescaper.exists_eq {e : GoString × GoString} (he : e ∈ σ) : ∃ b, e = ([92, b], [b]) := by
  obtain ⟨hpattern, hlen⟩ := hσ.pair e he
  obtain ⟨b, hb⟩ := length_eq_one_iff.1 hlen
  exact ⟨b, Prod.ext (by rw [hpattern, hb]) hb⟩

theorem Unescaper.mem_of_mem (hb : b ∈ separators) : ([92, b], [b]) ∈ σ :=
  of_decide_eq_true (all_eq_true.1 hσ.mem b hb)

theorem Unescaper.matchAt_pair (hb : b ∈ separators) (t : GoString) :
    matchAt σ ([92, b] ++ t) = some ([92, b], [b]) := by
  cases hmatch : matchAt σ ([92, b] ++ t) with
  | none => exact absurd (prefix_append _ _) (matchAt_eq_none.1 hmatch _ (hσ.mem_of_mem hb))
  | some =>
    obtain ⟨hmem, hpre⟩ := matchAt_eq_some hmatch
    obtain ⟨c, rfl⟩ := hσ.exists_eq hmem
    have hc : c = b := by simpa using hpre
    rw [hc]

theorem Unescaper.not_startsWith (hb : b ≠ 92) (t : GoString) : ∀ e ∈ σ, ¬e.1 <+: b :: t := by
  intro e he hpre
  obtain ⟨c, rfl⟩ := hσ.exists_eq he
  exact hb (cons_prefix_cons.1 hpre).1.symm

/-- An unescaper undoes the escapes, if a backslash is escaped or there is none. -/
theorem Unescaper.replace_escaped : ∀ {s : GoString}, 92 ∉ s ∨ 92 ∈ separators →
    replace σ (s.flatMap (escaped separators)) = s
  | [], _ => rfl
  | b :: s, h => by
    have hrest : 92 ∉ s ∨ 92 ∈ separators :=
      h.imp_left fun hnot hmem => hnot (mem_cons_of_mem b hmem)
    rw [flatMap_cons, escaped]
    split
    · next hb =>
      rw [replace_of_matchAt (hσ.matchAt_pair hb _) (cons_ne_nil _ _),
        replace_escaped hrest, singleton_append]
    · next hb =>
      have h92 : b ≠ 92 := by
        rintro rfl
        exact h.elim (fun hnot => hnot mem_cons_self) hb
      rw [singleton_append, replace_cons (hσ.not_startsWith h92 _), replace_escaped hrest]

/-- The same for an unescaper that is only used if there may be an escape. -/
theorem Unescaper.unescape_escaped (helems : separators ⊆ elems) (h : 92 ∉ s ∨ 92 ∈ separators) :
    (if containsAny (s.flatMap (escaped separators)) elems
      then replace σ (s.flatMap (escaped separators)) else s.flatMap (escaped separators)) = s := by
  split
  · exact hσ.replace_escaped h
  · next hnone =>
    have hall : ∀ b ∈ s, escaped separators b = [b] := by
      intro b hb
      refine if_neg fun hmem => hnone (any_eq_true.2 ⟨b, ?_, by simpa using helems hmem⟩)
      exact mem_flatMap.2 ⟨b, hb, by simp [escaped, hmem]⟩
    rw [flatMap_congr hall]
    simp

end

/-- A string that has none of the control characters that are written as letters. -/
def HasNoControl (s : GoString) : Prop :=
  ∀ b ∈ s, isEscapable b = true

theorem flatMap_escapeByte (separators : GoString) (h : HasNoControl s) :
    s.flatMap (escapeByte separators) = s.flatMap (escaped separators) :=
  flatMap_congr fun b hb => escapeByte_of_escapable separators (h b hb)

theorem unescape_escape (h92 : 92 ∉ s) (h : HasNoControl s) : unescape (escape s) = s := by
  have hσ : Unescaper [32, 44, 61] unescaper := ⟨by decide, by decide⟩
  rw [escape_eq_flatMap, flatMap_escapeByte _ h]
  exact hσ.unescape_escaped (List.Subset.refl _) (.inl h92)

theorem nameUnescape_nameEscape (h92 : 92 ∉ s) (h : HasNoControl s) :
    nameUnescape (nameEscape s) = s := by
  have hσ : Unescaper [32, 44] nameUnescaper := ⟨by decide, by decide⟩
  rw [nameEscape_eq_flatMap, flatMap_escapeByte _ h]
  exact hσ.unescape_escaped (List.Subset.refl _) (.inl h92)

theorem stringFieldUnescape_stringFieldEscape (s : GoString) :
    stringFieldUnescape (stringFieldEscape s) = s := by
  have hσ : Unescaper [34, 92] stringFieldUnescaper := ⟨by decide, by decide⟩
  rw [stringFieldEscape_eq_flatMap]
  exact hσ.unescape_escaped (by simp [Parser.stringFieldEscapes, str, String.utf8EncodeChar])
    (.inr (by decide))

end Telegraf.Influx
