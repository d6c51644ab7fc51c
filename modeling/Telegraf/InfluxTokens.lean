import Telegraf.InfluxHandler
import Telegraf.InfluxSerializer

/-!
# Reading the elements of a line

How the machine reads a name, a tag, a field and a timestamp, byte by byte, as long as it is at one
position of the grammar. `Reads` is for a text that is read without a stop, and texts that follow
each other are read one after the other.

A name, a tag and a field key are read by `Element.walk`, which only keeps track of the
backslashes : in a name and in a field key a backslash can be behind a backslash, and in a tag the
second one begins an escape of its own.
-/

open List

namespace Telegraf.Influx

open Scanner Telegraf.Influx.Config

variable {H E 𝔽 : Type} {h : Handler H E} {c c₁ c₂ : Config H} {x q : Pos} {b : UInt8}
  {token key t u : GoString} {s : H}

/-! ## Reading -/

/-- The text is read without a stop. -/
def Reads (h : Handler H E) (c : Config H) (t : GoString) (c' : Config H) : Prop :=
  scan (react h) c t = .out c'

theorem Reads.nil (c : Config H) : Reads h c [] c := rfl

theorem Reads.append (h₁ : Reads h c t c₁) (h₂ : Reads h c₁ u c₂) : Reads h c (t ++ u) c₂ :=
  (scan_append h₁).trans h₂

theorem Reads.cons (h₁ : react h c b = .go c₁) (h₂ : Reads h c₁ t c₂) : Reads h c (b :: t) c₂ :=
  (scan_cons_of_go h₁).trans h₂

theorem Reads.single (h₁ : react h c b = .go c₁) : Reads h c [b] c₁ :=
  Reads.cons h₁ (Reads.nil c₁)

/-- Inside a metric at one position. -/
def Config.inMetric (x : Pos) (token key : GoString) (s : H) : Config H :=
  ⟨[x], token, key, true, s⟩

theorem move_of_delta {ps : List Place} (hd : delta x b = [(ps, q)]) :
    (move [x] b : Except (ParseErr E) _) = .ok (actions ps, [q]) := by
  simp [move, moves, hd]

variable {s' : H}

theorem react_of_read (hin : inside q = true)
    (hread : (registers h).read c b = .go (.inMetric q token key s)) :
    react h c b = .go (.inMetric q (token ++ [b]) key s) := by
  rw [react, hread]
  simp [push, inMetric, begun, hin]

/-- A position that holds no byte reads a byte once. -/
theorem react_of_readOnce (hin : inside q = true) (hheld : held [q] = false)
    (honce : (registers h).readOnce c b = .go (.inMetric q token key s)) :
    react h c b = .go (.inMetric q (token ++ [b]) key s) := by
  have hcs : (registers h).cs (.inMetric q token key s) = [q] := rfl
  refine react_of_read hin ?_
  rw [Registers.read, honce]
  simp only [hcs, hheld, Bool.false_eq_true, if_false]

section

variable (ps : List Place) {token' key' : GoString} (hd : delta x b = [(ps, q)])
  (hin : inside q = true) (hheld : held [q] = false) (heol : q ≠ .eol)
  (hperform : (registers h).performAll (actions ps) (.inMetric x token key s) =
    (.inMetric x token' key' s', none))

include hd hin heol hperform

theorem readOnce_go :
    (registers h).readOnce (.inMetric x token key s) b = .go (.inMetric q token' key' s') := by
  have hcs : (registers h).cs (.inMetric x token key s) = [x] := rfl
  rw [Registers.readOnce, hcs, move_of_delta hd]
  simp only [hperform, mem_singleton, heol.symm, if_false]
  simp [registers, setCs, inMetric, begun, hin]

include hheld in
theorem react_go :
    react h (.inMetric x token key s) b = .go (.inMetric q (token' ++ [b]) key' s') :=
  react_of_readOnce hin hheld (readOnce_go ps hd hin heol hperform)

end

theorem react_quiet (hd : delta x b = [([], q)]) (hin : inside q = true)
    (hheld : held [q] = false) (heol : q ≠ .eol) :
    react h (.inMetric x token key s) b = .go (.inMetric q (token ++ [b]) key s) :=
  react_go [] hd hin hheld heol rfl

variable {p : Place}

theorem react_begin (hd : delta x b = [([p], q)]) (hp : actions [p] = [.begin])
    (hin : inside q = true) (hheld : held [q] = false) (heol : q ≠ .eol) :
    react h (.inMetric x token key s) b = .go (.inMetric q [b] key s) := by
  have hperform : (registers h).performAll (actions [p]) (.inMetric x token key s) =
      (.inMetric x [] key s, none) := by
    rw [hp]
    rfl
  exact react_go [p] hd hin hheld heol hperform

/-! ## Names, tags and keys -/

/-- A name, a tag key, a tag value or a field key : its positions, the separators that it escapes,
whether a vertical tab is a blank behind it, and whether a backslash can be escaped. -/
structure Element where
  normal : Pos
  esc : Pos
  separators : GoString
  blank : Bool
  pairs : Bool

/-- A character that stands for itself. -/
def Element.plain (el : Element) (b : UInt8) : Bool :=
  isEscapable b && !(b = 92) && !(b ∈ el.separators) && !(el.blank && b = 11)

/-- Follow the backslashes of a text. -/
def Element.walk (el : Element) : Bool → GoString → Option Bool
  | esc, [] => some esc
  | false, b :: t => if b = 92 then el.walk true t else if el.plain b then el.walk false t else none
  | true, b :: t =>
    if b = 92 then el.walk (!el.pairs) t
    else if isEscapable b then el.walk false t else none

def Element.pos (el : Element) (esc : Bool) : Pos :=
  if esc then el.esc else el.normal

/-- The automaton reads the element so. -/
structure Element.Laws (el : Element) (h : Handler H E) : Prop where
  plain : ∀ {b}, el.plain b = true → ∀ token key s,
    react h (.inMetric el.normal token key s) b =
      .go (.inMetric el.normal (token ++ [b]) key s)
  backslash : ∀ token key s, react h (.inMetric el.normal token key s) 92 =
    .go (.inMetric el.esc (token ++ [92]) key s)
  escaped : ∀ {b}, isEscapable b = true → b ≠ 92 → ∀ token key s,
    react h (.inMetric el.esc token key s) b =
      .go (.inMetric el.normal (token ++ [b]) key s)
  again : ∀ token key s, react h (.inMetric el.esc token key s) 92 =
    .go (.inMetric (el.pos (!el.pairs)) (token ++ [92]) key s)

variable {el : Element}

theorem Element.Laws.reads (hl : el.Laws h) : ∀ (t : GoString) {esc esc' : Bool}
    {token : GoString}, el.walk esc t = some esc' →
    Reads h (.inMetric (el.pos esc) token key s) t (.inMetric (el.pos esc') (token ++ t) key s)
  | [], esc, esc', token, hwalk => by
    obtain rfl : esc = esc' := by simpa [walk] using hwalk
    rw [append_nil]
    exact Reads.nil _
  | b :: t, false, esc', token, hwalk => by
    rw [walk] at hwalk
    rw [← singleton_append, ← append_assoc]
    split_ifs at hwalk with hb hplain
    · rw [hb]
      exact Reads.cons (hl.backslash token key s) (hl.reads t hwalk)
    · exact Reads.cons (hl.plain hplain token key s) (hl.reads t hwalk)
  | b :: t, true, esc', token, hwalk => by
    rw [walk] at hwalk
    rw [← singleton_append, ← append_assoc]
    split_ifs at hwalk with hb hesc
    · rw [hb]
      exact Reads.cons (hl.again token key s) (hl.reads t hwalk)
    · exact Reads.cons (hl.escaped hesc hb token key s) (hl.reads t hwalk)

namespace Element

def name : Element := ⟨.name, .nameEsc, [32, 44], true, true⟩

def tagKey : Element := ⟨.tagKey, .tagKeyEsc, [32, 44, 61], false, false⟩

def tagValue : Element := ⟨.tagValue, .tagValueEsc, [32, 44, 61], true, false⟩

def fieldKey (n : FieldNo) : Element := ⟨.fieldKey n, .fieldKeyEsc n, [32, 44, 61], false, true⟩

theorem plain_iff : el.plain b = true ↔
    (b ≠ 9 ∧ b ≠ 10 ∧ b ≠ 12 ∧ b ≠ 13) ∧ b ≠ 92 ∧ b ∉ el.separators ∧
      (el.blank = true → b ≠ 11) := by
  simp only [plain, isEscapable, Bool.and_eq_true, Bool.not_eq_true', Bool.or_eq_false_iff,
    Bool.and_eq_false_iff, decide_eq_false_iff_not]
  cases el.blank <;> simp <;> tauto

/-- A backslash behind a backslash in a tag is held. -/
theorem react_held {hold : Pos} (hd : delta x b = [([], hold)]) (hheld : held [hold] = true)
    (hhold : inside hold = true) (heol : hold ≠ .eol) (hd' : delta hold b = [([], q)])
    (hin : inside q = true) (heol' : q ≠ .eol) :
    react h (.inMetric x token key s) b = .go (.inMetric q (token ++ [b]) key s) := by
  have hcs : (registers h).cs (.inMetric hold token key s) = [hold] := rfl
  refine react_of_read hin ?_
  rw [Registers.read, readOnce_go [] hd hhold heol rfl]
  simp only [hcs, hheld, if_true]
  exact readOnce_go [] hd' hin heol' rfl

theorem delta_plain (hel : el = name ∨ el = tagKey ∨ el = tagValue ∨ ∃ n, el = fieldKey n)
    (hb : el.plain b = true) : delta el.normal b = [([], el.normal)] := by
  rw [plain_iff] at hb
  rcases hel with rfl | rfl | rfl | ⟨n, rfl⟩
  all_goals
    simp [name, tagKey, tagValue, fieldKey] at hb
    simp [name, tagKey, tagValue, fieldKey, delta, on, isKeyChar, isNameChar, isEscapable, isWs, hb]

theorem name_laws : name.Laws h where
  plain hb _ _ _ := react_quiet (delta_plain (.inl rfl) hb) rfl rfl (nomatch ·)
  backslash _ _ _ := react_quiet rfl rfl rfl (nomatch ·)
  escaped hb _ _ _ _ := react_quiet (by simp [delta, on, name, hb]) rfl rfl (nomatch ·)
  again _ _ _ := react_quiet rfl rfl rfl (nomatch ·)

theorem fieldKey_laws (n : FieldNo) : (fieldKey n).Laws h where
  plain hb _ _ _ := react_quiet (delta_plain (.inr (.inr (.inr ⟨n, rfl⟩))) hb) rfl rfl (nomatch ·)
  backslash _ _ _ := react_quiet rfl rfl rfl (nomatch ·)
  escaped hb _ _ _ _ := react_quiet (by simp [delta, on, fieldKey, hb]) rfl rfl (nomatch ·)
  again _ _ _ := react_quiet rfl rfl rfl (nomatch ·)

theorem tagKey_laws : tagKey.Laws h where
  plain hb _ _ _ := react_quiet (delta_plain (.inr (.inl rfl)) hb) rfl rfl (nomatch ·)
  backslash _ _ _ := react_quiet rfl rfl rfl (nomatch ·)
  escaped hb hb' _ _ _ := react_quiet (by simp [delta, on, tagKey, hb, hb']) rfl rfl (nomatch ·)
  again _ _ _ := react_held rfl rfl rfl (nomatch ·) rfl rfl (nomatch ·)

theorem tagValue_laws : tagValue.Laws h where
  plain hb _ _ _ := react_quiet (delta_plain (.inr (.inr (.inl rfl))) hb) rfl rfl (nomatch ·)
  backslash _ _ _ := react_quiet rfl rfl rfl (nomatch ·)
  escaped hb hb' _ _ _ := react_quiet (by simp [delta, on, tagValue, hb, hb']) rfl rfl (nomatch ·)
  again _ _ _ := react_held rfl rfl rfl (nomatch ·) rfl rfl (nomatch ·)

/-- An element from the position before it. -/
theorem Laws.reads_from (hl : el.Laws h)
    (hplain : ∀ {b}, el.plain b = true → t.head? = some b → delta x b = [([p], el.normal)])
    (hesc : delta x 92 = [([p], el.esc)]) (hp : actions [p] = [.begin])
    (hin : ∀ esc, inside (el.pos esc) = true) (hheld : ∀ esc, held [el.pos esc] = false)
    (heol : ∀ esc, el.pos esc ≠ .eol) (hne : t ≠ []) (hwalk : el.walk false t = some false) :
    Reads h (.inMetric x token key s) t (.inMetric el.normal t key s) := by
  obtain ⟨b, t, rfl⟩ := exists_cons_of_ne_nil hne
  rw [walk] at hwalk
  split_ifs at hwalk with hb hb'
  · subst hb
    exact Reads.cons (react_begin hesc hp (hin true) (hheld true) (heol true)) (hl.reads t hwalk)
  · exact Reads.cons (react_begin (hplain hb' rfl) hp (hin false) (hheld false) (heol false))
      (hl.reads t hwalk)

theorem reads_tagKey (hne : t ≠ []) (hwalk : tagKey.walk false t = some false) :
    Reads h (.inMetric .tagComma token key s) t (.inMetric .tagKey t key s) := by
  refine tagKey_laws.reads_from (p := .tagkeyStart) (fun {b} hb _ => ?_) rfl rfl (by decide)
    (by decide) (by decide) hne hwalk
  simp [plain_iff, tagKey] at hb
  simp [delta, on, isKeyChar, isNameChar, isEscapable, hb, tagKey]

theorem reads_tagValue (hne : t ≠ []) (hwalk : tagValue.walk false t = some false) :
    Reads h (.inMetric .tagEq token key s) t (.inMetric .tagValue t key s) := by
  refine tagValue_laws.reads_from (p := .tagvalueStart) (fun {b} hb _ => ?_) rfl rfl (by decide)
    (by decide) (by decide) hne hwalk
  simp [plain_iff, tagValue] at hb
  simp [delta, on, isKeyChar, isNameChar, isEscapable, hb, tagValue]

/-- The position before a field. -/
def beforeField : FieldNo → Pos
  | .first => .fieldWs
  | .later => .fieldComma

/-- A field key. Before the first one a vertical tab would be a blank as well. -/
theorem reads_fieldKey (n : FieldNo) (hne : t ≠ []) (hhead : t.head? ≠ some 11)
    (hwalk : (fieldKey n).walk false t = some false) :
    Reads h (.inMetric (beforeField n) token key s) t (.inMetric (.fieldKey n) t key s) := by
  refine (fieldKey_laws n).reads_from (p := .field n .keyStart) (fun {b} hb hhead' => ?_)
    (by cases n <;> rfl) (by cases n <;> rfl) (fun esc => by cases esc <;> rfl)
    (fun esc => by cases esc <;> cases n <;> rfl) (fun esc => by cases esc <;> exact (nomatch ·))
    hne hwalk
  have hb11 : b ≠ 11 := by
    rintro rfl
    exact hhead hhead'
  simp [plain_iff, fieldKey] at hb
  cases n <;>
    simp [beforeField, delta, on, isKeyChar, isNameChar, isEscapable, isWs, hb, hb11, fieldKey]

theorem react_align (hd : delta .align b = [([.metricStart, .nameStart], q)])
    (hin : inside q = true) (hheld : held [q] = false) (heol : q ≠ .eol) :
    react h (.init s) b = .go (.inMetric q [b] [] s) := by
  have hcs : (registers h).cs (.init s) = [.align] := rfl
  have hactions : actions [.metricStart, .nameStart] = [.beginMetric, .begin] := rfl
  have honce : (registers h).readOnce (.init s) b = .go (.inMetric q [] [] s) := by
    rw [Registers.readOnce, hcs, move_of_delta hd, hactions]
    simp only [Registers.performAll, registers, perform, mem_singleton,
      heol.symm, if_false]
    simp [setCs, init, inMetric]
  exact react_of_readOnce hin hheld honce

/-- A name at the beginning of a line. A number sign would begin a comment. -/
theorem reads_name (hne : t ≠ []) (hwalk : name.walk false t = some false)
    (hhash : t.head? ≠ some 35) : Reads h (.init s) t (.inMetric .name t [] s) := by
  obtain ⟨b, t, rfl⟩ := exists_cons_of_ne_nil hne
  have hb35 : b ≠ 35 := by simpa using hhash
  rw [walk] at hwalk
  split_ifs at hwalk with hb hb'
  · subst hb
    exact Reads.cons (react_align rfl rfl rfl (by simp)) (name_laws.reads t hwalk)
  · have hd : delta .align b = [([.metricStart, .nameStart], .name)] := by
      have hb := plain_iff.1 hb'
      simp [name] at hb
      simp [delta, on, isNameChar, isEscapable, isWs, hb, hb35]
    exact Reads.cons (react_align hd rfl rfl (by simp)) (name_laws.reads t hwalk)

end Element

/-! ## Numbers -/

theorem mem_digits (hb : isDigit b = true) : b ∈ [48, 49, 50, 51, 52, 53, 54, 55, 56, 57] := by
  simp only [isDigit, Bool.and_eq_true, decide_eq_true_eq, UInt8.le_iff_toNat_le,
    UInt8.toNat_ofNat] at hb
  simp only [mem_cons, not_mem_nil, ← UInt8.toNat_inj, UInt8.toNat_ofNat]
  omega

variable {n : FieldNo} {y : NumPos}

/-- Positions of a number that digits do not leave. -/
theorem delta_digit (hb : isDigit b = true)
    (hy : y = .nonZero ∨ y = .minusNonZero ∨ y = .wide ∨ y = .frac) :
    delta (.number n y) b = [([], .number n y)] := by
  have hb := mem_digits hb
  rcases hy with rfl | rfl | rfl | rfl <;> fin_cases hb <;> rfl

theorem reads_digits
    (hy : y = .nonZero ∨ y = .minusNonZero ∨ y = .wide ∨ y = .frac) : ∀ (ds : GoString)
    {token : GoString}, (∀ b ∈ ds, isDigit b = true) →
    Reads h (.inMetric (.number n y) token key s) ds (.inMetric (.number n y) (token ++ ds) key s)
  | [], token, _ => by
    rw [append_nil]
    exact Reads.nil _
  | b :: ds, token, hds => by
    rw [← singleton_append, ← append_assoc]
    exact Reads.cons (react_quiet (delta_digit (hds b mem_cons_self) hy) rfl rfl (nomatch ·))
      (reads_digits hy ds fun b hb => hds b (mem_cons_of_mem _ hb))

theorem isDigit_add {d : ℕ} (hd : d < 10) : isDigit (48 + d.toUInt8) = true := by
  interval_cases d <;> rfl

/-- A number without a sign is a zero, or begins with another digit. -/
theorem appendUint_cases (n : ℕ) : (n = 0 ∧ appendUint n = [48]) ∨
    ∃ d ds, n ≠ 0 ∧ appendUint n = d :: ds ∧ isDigit d = true ∧ d ≠ 48 ∧
      ∀ b ∈ ds, isDigit b = true := by
  by_cases hn : n = 0
  · exact .inl ⟨hn, by simp [appendUint, hn]⟩
  · refine .inr ?_
    have hne : (Nat.digits 10 n).reverse ≠ [] := by simp [Nat.digits_ne_nil_iff_ne_zero, hn]
    obtain ⟨d, ds, hds⟩ := exists_cons_of_ne_nil hne
    have hlt : ∀ e ∈ d :: ds, e < 10 := by
      intro e he
      rw [← hds, mem_reverse] at he
      exact Nat.digits_lt_base (by norm_num) he
    have hd : d ≠ 0 := by
      have hlast := Nat.getLast_digit_ne_zero 10 hn
      rw [← head_reverse hne] at hlast
      simpa [hds] using hlast
    refine ⟨48 + d.toUInt8, ds.map fun e => 48 + e.toUInt8, hn, ?_, isDigit_add (hlt d (by simp)),
      ?_, ?_⟩
    · rw [appendUint, if_neg hn, hds, map_cons]
    · have hd10 := hlt d (by simp)
      clear hds hlt
      interval_cases d
      · exact absurd rfl hd
      all_goals decide
    · intro b hb
      obtain ⟨e, he, rfl⟩ := mem_map.1 hb
      exact isDigit_add (hlt e (by simp [he]))

theorem parseDigits_map : ∀ (ds : List ℕ) (n : ℕ), (∀ d ∈ ds, d < 10) →
    ds.foldl (fun a d => a * 10 + d) n < 2 ^ 64 →
    parseDigits n (ds.map fun d => 48 + d.toUInt8) = .ok (ds.foldl (fun a d => a * 10 + d) n)
  | [], n, _, _ => rfl
  | d :: ds, n, hds, hlt => by
    have hd := hds d mem_cons_self
    have hmono : ∀ (ds : List ℕ) (n : ℕ), n ≤ ds.foldl (fun a d => a * 10 + d) n := by
      intro ds
      induction ds with
      | nil => exact fun n => le_rfl
      | cons e ds ih => exact fun n => le_trans (by omega : n ≤ n * 10 + e) (ih (n * 10 + e))
    have hnat : (48 + d.toUInt8).toNat - 48 = d := by interval_cases d <;> rfl
    have hdigit : ¬(48 + d.toUInt8 < 48 ∨ 57 < 48 + d.toUInt8) := by
      interval_cases d <;> decide
    have hstep : n * 10 + d < 2 ^ 64 := lt_of_le_of_lt (hmono ds _) hlt
    rw [map_cons, parseDigits, if_neg hdigit, hnat, if_neg (not_le.2 hstep)]
    exact parseDigits_map ds _ (fun e he => hds e (mem_cons_of_mem _ he)) hlt

/-- `strconv.ParseUint` of `strconv.AppendUint`. -/
theorem parseUint_appendUint {n : ℕ} (hn : n < 2 ^ 64) : parseUint (appendUint n) = .ok n := by
  by_cases hzero : n = 0
  · subst hzero
    rfl
  · have hne : appendUint n ≠ [] := by
      simp [appendUint, hzero, Nat.digits_ne_nil_iff_ne_zero]
    have hfold : (Nat.digits 10 n).reverse.foldl (fun a d => a * 10 + d) 0 = n := by
      rw [foldl_reverse]
      conv_rhs => rw [← Nat.ofDigits_digits 10 n, Nat.ofDigits_eq_foldr]
      congr 1
      funext d a
      simp only [Nat.cast_id]
      omega
    rw [parseUint, if_neg hne, appendUint, if_neg hzero, parseDigits_map, hfold]
    · intro d hd
      exact Nat.digits_lt_base (by norm_num) (mem_reverse.1 hd)
    · rwa [hfold]

theorem parseInt_of_isDigit (hb : isDigit b = true) : parseInt (b :: t) =
    parseMagnitude false (b :: t) := by
  have hb := mem_digits hb
  fin_cases hb <;> rfl

/-- `strconv.ParseInt` of `strconv.AppendInt`. -/
theorem parseInt_appendInt (v : Int64) : parseInt (appendInt v.toInt) = .ok v.toInt := by
  have hlo : -2 ^ 63 ≤ v.toInt := Int64.le_toInt v
  have hhi : v.toInt < 2 ^ 63 := Int64.toInt_lt v
  have hparse : parseUint (appendUint v.toInt.natAbs) = .ok v.toInt.natAbs :=
    parseUint_appendUint (by omega)
  unfold appendInt
  split
  · next hneg =>
    rw [parseInt, parseMagnitude, hparse]
    simp only [if_true]
    rw [if_neg (by omega)]
    congr 1
    omega
  · next hneg =>
    have hfirst : parseInt (appendUint v.toInt.natAbs) =
        parseMagnitude false (appendUint v.toInt.natAbs) := by
      rcases appendUint_cases v.toInt.natAbs with ⟨-, h⟩ | ⟨d, _, -, h, hd, -⟩
      · rw [h]
        rfl
      · rw [h]
        exact parseInt_of_isDigit hd
    rw [hfirst, parseMagnitude, hparse]
    simp only [Bool.false_eq_true, if_false]
    rw [if_neg (by omega)]
    congr 1
    omega

theorem min_maxInt64 (v : UInt64) :
    min (v.toNat : ℤ) maxInt64 = (Int64.ofInt (min v.toNat maxInt64)).toInt := by
  have hnonneg : (0 : ℤ) ≤ v.toNat := Int.natCast_nonneg _
  rw [Int64.toInt_ofInt_of_le] <;> simp only [maxInt64] <;> omega

/-- A magnitude behind the equals sign, or behind a minus sign. -/
theorem reads_appendUint (n : FieldNo) (k : ℕ) :
    ∃ y, (y = .zero ∨ y = .nonZero) ∧ Reads h (.inMetric (.fieldEq n) token key s) (appendUint k)
      (.inMetric (.number n y) (appendUint k) key s) := by
  rcases appendUint_cases k with ⟨-, ht⟩ | ⟨d, ds, -, ht, hd, hd48, hds⟩
  · rw [ht]
    exact ⟨.zero, .inl rfl, Reads.single
      (react_begin (p := .field n .valueStart) rfl (by cases n <;> rfl) rfl rfl (nomatch ·))⟩
  · rw [ht]
    have hdelta : delta (.fieldEq n) d = [([.field n .valueStart], .number n .nonZero)] := by
      have hd := mem_digits hd
      fin_cases hd
      · exact absurd rfl hd48
      all_goals rfl
    exact ⟨.nonZero, .inr rfl, Reads.cons (react_begin hdelta (by cases n <;> rfl) rfl rfl
      (nomatch ·)) (reads_digits (.inl rfl) ds hds)⟩

variable {k : ℕ}

theorem reads_minus (n : FieldNo) (hk : k ≠ 0) :
    Reads h (.inMetric (.fieldEq n) token key s) (45 :: appendUint k)
      (.inMetric (.number n .minusNonZero) (45 :: appendUint k) key s) := by
  rcases appendUint_cases k with ⟨hzero, -⟩ | ⟨d, ds, -, ht, hd, hd48, hds⟩
  · exact absurd hzero hk
  · rw [ht]
    have hdelta : delta (.number n .minus) d = [([], .number n .minusNonZero)] := by
      have hd := mem_digits hd
      fin_cases hd
      · exact absurd rfl hd48
      all_goals rfl
    exact Reads.cons (react_begin (p := .field n .valueStart) rfl (by cases n <;> rfl) rfl rfl
      (nomatch ·)) (Reads.cons (react_quiet hdelta rfl rfl (nomatch ·))
        (reads_digits (.inr (.inl rfl)) ds hds))

/-- Positions in the digits before the point. -/
def NumPos.isWhole : NumPos → Bool
  | .zero | .minusZero | .nonZero | .minusNonZero | .wide => true
  | _ => false

theorem reads_wholeDigits (h : Handler H E) (n : FieldNo) (key : GoString) (s : H) :
    ∀ (ds token : GoString) {y : NumPos}, y.isWhole = true → (∀ b ∈ ds, isDigit b = true) →
    ∃ y', y'.isWhole = true ∧ Reads h (.inMetric (.number n y) token key s) ds
      (.inMetric (.number n y') (token ++ ds) key s)
  | [], token, y, hy, _ => by
    rw [append_nil]
    exact ⟨y, hy, Reads.nil _⟩
  | b :: ds, token, y, hy, hds => by
    rw [← singleton_append, ← append_assoc]
    obtain ⟨y₁, hy₁, hd⟩ : ∃ y₁, NumPos.isWhole y₁ = true ∧
        delta (.number n y) b = [([], .number n y₁)] := by
      have hb := mem_digits (hds b mem_cons_self)
      fin_cases hb <;> cases y <;> first | exact ⟨_, rfl, rfl⟩ | cases hy
    obtain ⟨y₂, hy₂, hrest⟩ := reads_wholeDigits h n key s ds (token ++ [b]) hy₁
      fun b hb => hds b (mem_cons_of_mem _ hb)
    exact ⟨y₂, hy₂, Reads.cons (react_quiet hd rfl rfl (nomatch ·)) hrest⟩

/-- The texts of a float in the format `'f'`. -/
def IsFixedFloat (t : GoString) : Prop :=
  ∃ sign whole frac, t = sign ++ whole ++ frac ∧ (sign = [] ∨ sign = [45]) ∧ whole ≠ [] ∧
    (∀ b ∈ whole, isDigit b = true) ∧
    (frac = [] ∨ ∃ ds, frac = 46 :: ds ∧ ∀ b ∈ ds, isDigit b = true)

theorem reads_whole (h : Handler H E) (n : FieldNo) (token key : GoString) (s : H)
    (hne : t ≠ []) (ht : ∀ b ∈ t, isDigit b = true) :
    (∃ y, y.isWhole = true ∧ Reads h (.inMetric (.fieldEq n) token key s) t
      (.inMetric (.number n y) t key s)) ∧
    ∃ y, y.isWhole = true ∧ Reads h (.inMetric (.number n .minus) token key s) t
      (.inMetric (.number n y) (token ++ t) key s) := by
  obtain ⟨d, ds, rfl⟩ := exists_cons_of_ne_nil hne
  have hds : ∀ b ∈ ds, isDigit b = true := fun b hb => ht b (mem_cons_of_mem _ hb)
  obtain ⟨⟨y, hy, hd⟩, _, hy', hd'⟩ : (∃ y, NumPos.isWhole y = true ∧
      delta (.fieldEq n) d = [([.field n .valueStart], .number n y)]) ∧
      ∃ y, NumPos.isWhole y = true ∧ delta (.number n .minus) d = [([], .number n y)] := by
    have hd := mem_digits (ht d mem_cons_self)
    fin_cases hd <;> exact ⟨⟨_, rfl, rfl⟩, _, rfl, rfl⟩
  constructor
  · obtain ⟨y₁, hy₁, hrest⟩ := reads_wholeDigits h n key s ds [d] hy hds
    exact ⟨y₁, hy₁, Reads.cons (react_begin hd (by cases n <;> rfl) rfl rfl (nomatch ·)) hrest⟩
  · obtain ⟨y₁, hy₁, hrest⟩ := reads_wholeDigits h n key s ds (token ++ [d]) hy' hds
    rw [append_assoc, singleton_append] at hrest
    exact ⟨y₁, hy₁, Reads.cons (react_quiet hd' rfl rfl (nomatch ·)) hrest⟩

theorem reads_fixedFloat (ht : IsFixedFloat t) :
    ∃ y, y.final = true ∧ Reads h (.inMetric (.fieldEq n) token key s) t
      (.inMetric (.number n y) t key s) := by
  have hfinal : ∀ {y : NumPos}, y.isWhole = true → y.final = true := by
    intro y hy
    cases y <;> first | rfl | cases hy
  have hdot : ∀ {y : NumPos}, y.isWhole = true →
      delta (.number n y) 46 = [([], .number n .frac)] := by
    intro y hy
    cases y <;> first | rfl | cases hy
  obtain ⟨sign, whole, frac, rfl, hsign, hne, hwhole, hfrac⟩ := ht
  have hintegral : ∃ y, NumPos.isWhole y = true ∧ Reads h (.inMetric (.fieldEq n) token key s)
      (sign ++ whole) (.inMetric (.number n y) (sign ++ whole) key s) := by
    rcases hsign with rfl | rfl
    · exact (reads_whole h n token key s hne hwhole).1
    · obtain ⟨y, hy, hreads⟩ := (reads_whole h n [45] key s hne hwhole).2
      exact ⟨y, hy, Reads.cons (react_begin (p := .field n .valueStart) rfl (by cases n <;> rfl)
        rfl rfl (nomatch ·)) hreads⟩
  obtain ⟨y, hy, hreads⟩ := hintegral
  rcases hfrac with rfl | ⟨ds, rfl, hds⟩
  · rw [append_nil]
    exact ⟨y, hfinal hy, hreads⟩
  · refine ⟨.frac, rfl, hreads.append (Reads.cons (react_quiet (hdot hy) rfl rfl (nomatch ·)) ?_)⟩
    have htoken : sign ++ whole ++ 46 :: ds = sign ++ whole ++ [46] ++ ds := by simp
    rw [htoken]
    exact reads_digits (.inr (.inr (.inr rfl))) ds hds

theorem reads_suffix {n : FieldNo} {y : NumPos} {q : Pos} {b : UInt8}
    (hd : delta (.number n y) b = [([], q)]) (hq : q = .integerEnd n ∨ q = .unsignedEnd n)
    (t : GoString) :
    Reads h (.inMetric (.number n y) t key s) [b] (.inMetric q (t ++ [b]) key s) := by
  rcases hq with rfl | rfl
  all_goals exact Reads.single (react_quiet hd rfl rfl (nomatch ·))

theorem reads_appendIntField (n : FieldNo) (v : ℤ) :
    Reads h (.inMetric (.fieldEq n) token key s) (appendIntField v)
      (.inMetric (.integerEnd n) (appendIntField v) key s) := by
  unfold appendIntField appendInt
  split
  · next _ => exact (reads_minus n (by omega)).append (reads_suffix rfl (.inl rfl) _)
  · obtain ⟨y, rfl | rfl, hreads⟩ := reads_appendUint (h := h) (s := s) n v.natAbs
    all_goals exact hreads.append (reads_suffix rfl (.inl rfl) _)

theorem reads_appendUintField (n : FieldNo) (k : ℕ) :
    Reads h (.inMetric (.fieldEq n) token key s) (appendUintField k)
      (.inMetric (.unsignedEnd n) (appendUintField k) key s) := by
  obtain ⟨y, rfl | rfl, hreads⟩ := reads_appendUint (h := h) (s := s) n k
  all_goals exact hreads.append (reads_suffix rfl (.inr rfl) _)

/-! ## Strings and Booleans -/

/-- Follow the backslashes of a string. -/
def stringWalk : Bool → GoString → Option Bool
  | esc, [] => some esc
  | false, b :: t =>
    if b = 92 then stringWalk true t else if b = 34 then none else stringWalk false t
  | true, b :: t => if b = 34 ∨ b = 92 then stringWalk false t else none

def stringPos (n : FieldNo) (esc : Bool) : Pos :=
  if esc then .stringEsc n else .stringChar n

variable {esc esc' : Bool}

theorem delta_stringPos (hwalk : stringWalk esc [b] = some esc') :
    delta (stringPos n esc) b = [([], stringPos n esc')] ∧
      (esc = false → delta (.stringOpen n) b = [([.field n .stringStart], stringPos n esc')]) := by
  cases esc with
  | false =>
    rw [stringWalk] at hwalk
    split_ifs at hwalk with h92 h34 <;> cases hwalk
    · simp [h92, delta, on, stringPos]
    · simp [h92, h34, delta, on, stringPos]
  | true =>
    rw [stringWalk] at hwalk
    split_ifs at hwalk with hb
    cases hwalk
    simp [delta, on, stringPos, hb]

theorem stringWalk_cons (hwalk : stringWalk esc (b :: t) = some esc') :
    ∃ esc₁, stringWalk esc [b] = some esc₁ ∧ stringWalk esc₁ t = some esc' := by
  cases esc with
  | false =>
    rw [stringWalk] at hwalk
    split_ifs at hwalk with h92 h34
    · exact ⟨true, by simp [stringWalk, h92], hwalk⟩
    · exact ⟨false, by simp [stringWalk, h92, h34], hwalk⟩
  | true =>
    rw [stringWalk] at hwalk
    split_ifs at hwalk with hb
    exact ⟨false, by simp [stringWalk, hb], hwalk⟩

theorem inside_stringPos (n : FieldNo) (esc : Bool) : inside (stringPos n esc) = true ∧
    held [stringPos n esc] = false ∧ stringPos n esc ≠ .eol := by
  cases esc <;> cases n <;> exact ⟨rfl, rfl, (nomatch ·)⟩

theorem reads_stringChars : ∀ (t : GoString) {esc esc' : Bool} {token : GoString},
    stringWalk esc t = some esc' → Reads h (.inMetric (stringPos n esc) token key s) t
      (.inMetric (stringPos n esc') (token ++ t) key s)
  | [], esc, esc', token, hwalk => by
    obtain rfl : esc = esc' := by simpa [stringWalk] using hwalk
    rw [append_nil]
    exact Reads.nil _
  | b :: t, esc, esc', token, hwalk => by
    obtain ⟨esc₁, hb, hrest⟩ := stringWalk_cons hwalk
    obtain ⟨hin, hheld, heol⟩ := inside_stringPos n esc₁
    rw [← singleton_append, ← append_assoc]
    exact Reads.cons (react_quiet (delta_stringPos hb).1 hin hheld heol) (reads_stringChars t hrest)

variable {a : Action}

/-- The effect of an action on the handler. -/
theorem performAll_call (ha : a ∉ [Action.beginMetric, .begin, .tagkey, .fieldkey])
    (hcall : h.call key token s a = (s', none)) :
    (registers h).performAll [a] (.inMetric x token key s) = (.inMetric x token key s', none) := by
  have hperform : perform h a (.inMetric x token key s) =
      ({ inMetric x token key s with handler := (h.call key token s a).1 },
        (h.call key token s a).2) := by
    cases a <;> first | rfl | exact absurd (by decide) ha
  rw [hcall] at hperform
  rw [Registers.performAll]
  simp only [registers, hperform]
  rfl

/-- A string is handed on at the quote behind it. -/
theorem reads_string (hwalk : stringWalk false t = some false)
    (hadd : h.addString key t s = (s', none)) :
    ∃ token', Reads h (.inMetric (.fieldEq n) token key s) (34 :: (t ++ [34]))
      (.inMetric .fieldEnd token' key s') := by
  have hopen : react h (.inMetric (.fieldEq n) token key s) 34 =
      .go (.inMetric (.stringOpen n) (token ++ [34]) key s) :=
    react_quiet rfl rfl rfl (nomatch ·)
  have hclose : ∀ {x : Pos} (ps : List Place) (token : GoString), delta x 34 = [(ps, .fieldEnd)] →
      (registers h).performAll (actions ps) (.inMetric x token key s) =
        (.inMetric x t key s', none) →
      react h (.inMetric x token key s) 34 =
        .go (.inMetric .fieldEnd (t ++ [34]) key s') :=
    fun ps _ hd hperform => react_go ps hd rfl rfl (nomatch ·) hperform
  cases t with
  | nil =>
    refine ⟨[34], Reads.cons hopen (Reads.single (hclose [.field n .stringStart,
      .field n .stringEnd] _ rfl ?_))⟩
    have hactions : actions [.field n .stringStart, .field n .stringEnd] = [.begin, .string] := by
      cases n <;> rfl
    rw [hactions]
    exact performAll_call (by decide) hadd
  | cons b t =>
    obtain ⟨esc, hb, hrest⟩ := stringWalk_cons hwalk
    obtain ⟨hin, hheld, heol⟩ := inside_stringPos n esc
    have hfirst : react h (.inMetric (.stringOpen n) (token ++ [34]) key s) b =
        .go (.inMetric (stringPos n esc) [b] key s) :=
      react_begin ((delta_stringPos hb).2 rfl) (by cases n <;> rfl) hin hheld heol
    refine ⟨b :: t ++ [34], Reads.cons hopen (Reads.cons hfirst
      ((reads_stringChars t hrest).append (Reads.single (hclose [.field n .stringEnd] _
        rfl ?_))))⟩
    have hactions : actions [.field n .stringEnd] = [.string] := by
      cases n <;> rfl
    rw [hactions]
    exact performAll_call (by decide) hadd

theorem reads_bool (v : Bool) :
    Reads h (.inMetric (.fieldEq n) token key s) (appendBoolField v)
      (.inMetric (.boolean n (appendBoolField v)) (appendBoolField v) key s) := by
  have hfirst : ∀ b, delta (.fieldEq n) b = [([.field n .valueStart], .boolean n [b])] →
      react h (.inMetric (.fieldEq n) token key s) b =
        .go (.inMetric (.boolean n [b]) [b] key s) :=
    fun b hd => react_begin hd (by cases n <;> rfl) rfl rfl (nomatch ·)
  have hnext : ∀ t b, delta (.boolean n t) b = [([], .boolean n (t ++ [b]))] →
      react h (.inMetric (.boolean n t) t key s) b =
        .go (.inMetric (.boolean n (t ++ [b])) (t ++ [b]) key s) :=
    fun t b hd => react_quiet hd rfl rfl (nomatch ·)
  cases v with
  | false =>
    exact Reads.cons (hfirst 102 rfl) (Reads.cons (hnext _ 97 rfl)
      (Reads.cons (hnext _ 108 rfl) (Reads.cons (hnext _ 115 rfl)
        (Reads.single (hnext _ 101 rfl)))))
  | true =>
    exact Reads.cons (hfirst 116 rfl) (Reads.cons (hnext _ 114 rfl)
      (Reads.cons (hnext _ 117 rfl) (Reads.single (hnext _ 101 rfl))))

/-! ## Separators -/

/-- A comma and a blank end what was read, and the handler is `s` then. -/
structure Ends (h : Handler H E) (c : Config H) (onComma onBlank : Pos) (s : H) : Prop where
  comma : ∃ token key, react h c 44 = .go (.inMetric onComma token key s)
  blank : ∃ token key, react h c 32 = .go (.inMetric onBlank token key s)

/-- An element is ended, with the action for it. -/
theorem ends_call {q q' : Pos} (h44 : delta x 44 = [([p], q)]) (h32 : delta x 32 = [([p], q')])
    (hq : q = .tagComma ∧ q' = .fieldWs ∨ q = .fieldComma ∧ q' = .timestampWs)
    (hp : actions [p] = [a]) (ha : a ∉ [Action.beginMetric, .begin, .tagkey, .fieldkey])
    (hcall : h.call key token s a = (s', none)) : Ends h (.inMetric x token key s) q q' s' := by
  have hperform := performAll_call (x := x) ha hcall
  rw [← hp] at hperform
  rcases hq with ⟨rfl, rfl⟩ | ⟨rfl, rfl⟩
  all_goals exact ⟨⟨_, _, react_go [p] h44 rfl rfl (nomatch ·) hperform⟩,
    ⟨_, _, react_go [p] h32 rfl rfl (nomatch ·) hperform⟩⟩

theorem ends_name (hcall : h.setMeasurement token s = (s', none)) :
    Ends h (.inMetric .name token key s) .tagComma .fieldWs s' :=
  ends_call (p := .nameEnd) (a := .name) rfl rfl (.inl ⟨rfl, rfl⟩) rfl (by decide) hcall

theorem ends_tagValue (hcall : h.addTag key token s = (s', none)) :
    Ends h (.inMetric .tagValue token key s) .tagComma .fieldWs s' :=
  ends_call (p := .tagvalueEnd) (a := .tagvalue) rfl rfl (.inl ⟨rfl, rfl⟩) rfl (by decide) hcall

theorem ends_fieldEnd : Ends h (.inMetric .fieldEnd token key s) .fieldComma .timestampWs s where
  comma := ⟨_, _, react_quiet rfl rfl rfl (nomatch ·)⟩
  blank := ⟨_, _, react_quiet rfl rfl rfl (nomatch ·)⟩

theorem react_tagEq : react h (.inMetric .tagKey token key s) 61 =
    .go (.inMetric .tagEq (token ++ [61]) token s) :=
  react_go [.tagkeyEnd] rfl rfl rfl (nomatch ·) rfl

theorem react_fieldEq (n : FieldNo) : react h (.inMetric (.fieldKey n) token key s) 61 =
    .go (.inMetric (.fieldEq n) (token ++ [61]) token s) :=
  react_go [.field n .keyEnd] rfl rfl rfl (nomatch ·) (by cases n <;> rfl)

/-! ## Timestamps -/

theorem reads_timestampDigits : ∀ (ds : GoString) {k : ℕ} {token : GoString},
    (∀ b ∈ ds, isDigit b = true) → k + ds.length ≤ 19 →
    Reads h (.inMetric (.timestamp k) token key s) ds
      (.inMetric (.timestamp (k + ds.length)) (token ++ ds) key s)
  | [], k, token, _, _ => by
    rw [append_nil]
    exact Reads.nil _
  | b :: ds, k, token, hds, hlen => by
    rw [length_cons] at hlen ⊢
    have hk : k < 19 := by omega
    have hd : delta (.timestamp k) b = [([], .timestamp (k + 1))] := by
      have hb := mem_digits (hds b mem_cons_self)
      fin_cases hb <;> simp [delta, on, isDigit, isWs, newline, hk]
    rw [← singleton_append, ← append_assoc, Nat.add_comm ds.length, ← Nat.add_assoc]
    exact Reads.cons (react_quiet hd rfl rfl (by simp)) (reads_timestampDigits ds
      (fun b hb => hds b (mem_cons_of_mem _ hb)) (by omega))

/-- The end of a line performs the last action and stops the scan. -/
theorem react_newline (k : ℕ) (hcall : h.setTimestamp token s = (s', none)) :
    react h (.inMetric (.timestamp k) token key s) 10 =
      .after ⟨[.align], [], key, true, s'⟩ none := by
  have hd : delta (.timestamp k) 10 = [([.timestampEnd], .eol)] := by
    simp [delta, on, isDigit, isWs, newline]
  have hperform : (registers h).performAll (actions [.timestampEnd])
      (.inMetric (.timestamp k) token key s) = (.inMetric (.timestamp k) token key s', none) :=
    performAll_call (a := .timestamp) (by decide) hcall
  have hcs : (registers h).cs (.inMetric (.timestamp k) token key s) = [.timestamp k] := rfl
  have honce : (registers h).readOnce (.inMetric (.timestamp k) token key s) 10 =
      .after ⟨[.align], [], key, true, s'⟩ none := by
    rw [Registers.readOnce, hcs, move_of_delta hd]
    simp only [hperform, mem_singleton, if_true]
    rfl
  rw [react, Registers.read, honce]

theorem length_appendUint (hk : k < 10 ^ 19) : (appendUint k).length ≤ 19 := by
  unfold appendUint
  split
  · decide
  · rw [length_map, length_reverse]
    exact (Nat.digits_length_le_iff (by norm_num) k).2 hk

theorem isDigit_of_mem_appendUint (hb : b ∈ appendUint k) : isDigit b = true := by
  rcases appendUint_cases k with ⟨-, ht⟩ | ⟨d, _, -, ht, hd, -, hds⟩
  · rw [ht, mem_singleton] at hb
    rw [hb]
    rfl
  · rw [ht] at hb
    rcases mem_cons.1 hb with rfl | hb
    exacts [hd, hds b hb]

theorem reads_timestamp (v : Int64) : ∃ k,
    Reads h (.inMetric .timestampWs token key s) (appendInt v.toInt)
      (.inMetric (.timestamp k) (appendInt v.toInt) key s) := by
  have hlo : -2 ^ 63 ≤ v.toInt := Int64.le_toInt v
  have hhi : v.toInt < 2 ^ 63 := Int64.toInt_lt v
  have hlen : (appendUint v.toInt.natAbs).length ≤ 19 := length_appendUint (by omega)
  have hne : appendUint v.toInt.natAbs ≠ [] := by
    rcases appendUint_cases v.toInt.natAbs with ⟨-, ht⟩ | ⟨d, ds, -, ht, -⟩ <;> simp [ht]
  obtain ⟨d, ds, ht⟩ := exists_cons_of_ne_nil hne
  have hd : isDigit d = true := isDigit_of_mem_appendUint (ht ▸ mem_cons_self)
  have hds : ∀ b ∈ ds, isDigit b = true := fun b hb =>
    isDigit_of_mem_appendUint (ht ▸ mem_cons_of_mem d hb)
  rw [ht, length_cons, Nat.add_comm] at hlen
  unfold appendInt
  rw [ht]
  refine ⟨1 + ds.length, ?_⟩
  split
  · have hfirst : delta .timestampMinus d = [([], .timestamp 1)] := by
      simp [delta, on, hd]
    exact Reads.cons (react_begin (p := .timestampStart) rfl rfl rfl rfl (by simp))
      (Reads.cons (react_quiet hfirst rfl rfl (by simp)) (reads_timestampDigits ds hds hlen))
  · have hfirst : delta .timestampWs d = [([.timestampStart], .timestamp 1)] := by
      have hd := mem_digits hd
      fin_cases hd <;> rfl
    exact Reads.cons (react_begin hfirst rfl rfl rfl (by simp))
      (reads_timestampDigits ds hds hlen)

end Telegraf.Influx
