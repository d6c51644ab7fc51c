import Telegraf.Metric

/-!
# The line protocol grammar

The automaton of `machine.go.rl` (`plugins/parsers/influx`). A state is a set of positions in the
grammar, and a byte moves all of them (`move`). There is more than one only because a vertical tab
is both a blank and a character of a name, a tag or a key.

A transition performs the actions that the grammar embeds at the positions that move, in the order
of the grammar. If no position can move, the state's error action says which error it is. At the
end of the input there are the actions for leaving a name, a tag value, a number, a Boolean or a
timestamp, and then the end of the metric or an error (`atEof`).
-/

open List

namespace Telegraf.Influx

/-! ## Positions -/

/-- The grammar has two copies of `field`, one for the first field and one for the others. -/
inductive FieldNo where
  | first
  | later
deriving Repr, DecidableEq

/-- Positions in a number. `zero` and `nonZero` are the ones that can be an integer with an `i` or
a `u` behind them, after a sign only with an `i`. -/
inductive NumPos where
  | minus
  | dot
  | frac
  | zero
  | minusZero
  | nonZero
  | minusNonZero
  | wide
  | exp
  | expSign
  | expDigits
deriving Repr, DecidableEq

/-- Positions in the grammar. -/
inductive Pos where
  | align
  | alignCr
  | comment
  | discardLine
  | name
  | nameEsc
  | tagComma
  | tagKey
  | tagKeyEsc
  | tagKeyHold
  | tagEq
  | tagValue
  | tagValueEsc
  | tagValueHold
  | fieldWs
  | fieldComma
  | fieldKey (n : FieldNo)
  | fieldKeyEsc (n : FieldNo)
  | fieldEq (n : FieldNo)
  | stringOpen (n : FieldNo)
  | stringChar (n : FieldNo)
  | stringEsc (n : FieldNo)
  | number (n : FieldNo) (s : NumPos)
  | integerEnd (n : FieldNo)
  | unsignedEnd (n : FieldNo)
  | boolean (n : FieldNo) (text : GoString)
  | fieldEnd
  | timestampWs
  | timestampMinus
  | timestamp (digits : ℕ)
  | endWs
  | cr
  | eol
deriving Repr, DecidableEq

/-! ## Actions -/

/-- Actions of the grammar. -/
inductive Action where
  | beginMetric
  | begin
  | name
  | tagkey
  | tagvalue
  | fieldkey
  | integer
  | unsigned
  | float
  | bool
  | string
  | timestamp
deriving Repr, DecidableEq

/-- The places of `field` with an action. -/
inductive FieldPlace where
  | keyStart
  | keyEnd
  | valueStart
  | integerEnd
  | unsignedEnd
  | floatEnd
  | stringStart
  | stringEnd
  | boolEnd
deriving Repr, DecidableEq

/-- The places of the grammar with an action. -/
inductive Place where
  | metricStart
  | nameStart
  | nameEnd
  | tagkeyStart
  | tagkeyEnd
  | tagvalueStart
  | tagvalueEnd
  | field (n : FieldNo) (p : FieldPlace)
  | timestampStart
  | timestampEnd
deriving Repr, DecidableEq

def FieldPlace.action : FieldPlace → Action
  | .keyStart | .valueStart | .stringStart => .begin
  | .keyEnd => .fieldkey
  | .integerEnd => .integer
  | .unsignedEnd => .unsigned
  | .floatEnd => .float
  | .stringEnd => .string
  | .boolEnd => .bool

/-- The action that is embedded at a place. -/
def Place.action : Place → Action
  | .metricStart => .beginMetric
  | .nameStart | .tagkeyStart | .tagvalueStart | .timestampStart => .begin
  | .nameEnd => .name
  | .tagkeyEnd => .tagkey
  | .tagvalueEnd => .tagvalue
  | .field _ p => p.action
  | .timestampEnd => .timestamp

def fieldPlaces : List FieldPlace :=
  [.keyStart, .keyEnd, .valueStart, .integerEnd, .unsignedEnd, .floatEnd, .stringStart, .stringEnd,
    .boolEnd]

/-- The places in the order of the grammar. -/
def places : List Place :=
  [.metricStart, .nameStart, .nameEnd, .tagkeyStart, .tagkeyEnd, .tagvalueStart, .tagvalueEnd] ++
    fieldPlaces.map (.field .first) ++ fieldPlaces.map (.field .later) ++
    [.timestampStart, .timestampEnd]

/-- The actions of some places, in the order in which they are performed. -/
def actions (ps : List Place) : List Action :=
  (places.filter (· ∈ ps)).map Place.action

/-! ## Transitions -/

/-- `ws`. -/
def isWs (b : UInt8) : Bool :=
  b = 9 || b = 11 || b = 12 || b = 32

/-- `digit`. -/
def isDigit (b : UInt8) : Bool :=
  48 ≤ b && b ≤ 57

/-- What may stand behind a backslash in a name or a field key. -/
def isEscapable (b : UInt8) : Bool :=
  !(b = 9 || b = 10 || b = 12 || b = 13)

/-- A character of a name, other than a backslash. -/
def isNameChar (b : UInt8) : Bool :=
  isEscapable b && !(b = 32 || b = 44 || b = 92)

/-- A character of a tag or of a field key, other than a backslash. -/
def isKeyChar (b : UInt8) : Bool :=
  isNameChar b && !(b = 61)

/-- `true` and `false`. -/
def boolLiterals : List GoString :=
  [str "false", str "FALSE", str "False", str "F", str "f", str "true", str "TRUE", str "True",
    str "T", str "t"]

/-- A beginning of a Boolean. -/
def isBoolStart (text : GoString) : Bool :=
  boolLiterals.any text.isPrefixOf

/-- A transition for the bytes that meet a condition. -/
def on (c : Bool) (ps : List Place) (q : Pos) : List (List Place × Pos) :=
  if c then [(ps, q)] else []

/-- `newline` at the end of a line. -/
def newline (ps : List Place) (b : UInt8) : List (List Place × Pos) :=
  on (b = 10) ps .eol ++ on (b = 13) ps .cr

/-- What may follow a field. -/
def afterField (ps : List Place) (b : UInt8) : List (List Place × Pos) :=
  on (b = 44) ps .fieldComma ++ on (isWs b) ps .timestampWs ++ newline ps b

/-- Can a float end here? -/
def NumPos.final : NumPos → Bool
  | .minus | .dot | .exp | .expSign => false
  | _ => true

/-- The transitions inside a number. -/
def numberDelta (n : FieldNo) (b : UInt8) : NumPos → List (List Place × Pos)
  | .minus =>
    on (b = 46) [] (.number n .dot) ++ on (b = 48) [] (.number n .minusZero) ++
      on (isDigit b && !(b = 48)) [] (.number n .minusNonZero)
  | .dot => on (isDigit b) [] (.number n .frac)
  | .frac => on (isDigit b) [] (.number n .frac) ++ on (b = 101 || b = 69) [] (.number n .exp)
  | .zero =>
    on (isDigit b) [] (.number n .wide) ++ on (b = 46) [] (.number n .frac) ++
      on (b = 101 || b = 69) [] (.number n .exp) ++ on (b = 105) [] (.integerEnd n) ++
      on (b = 117) [] (.unsignedEnd n)
  | .minusZero =>
    on (isDigit b) [] (.number n .wide) ++ on (b = 46) [] (.number n .frac) ++
      on (b = 101 || b = 69) [] (.number n .exp) ++ on (b = 105) [] (.integerEnd n)
  | .nonZero =>
    on (isDigit b) [] (.number n .nonZero) ++ on (b = 46) [] (.number n .frac) ++
      on (b = 101 || b = 69) [] (.number n .exp) ++ on (b = 105) [] (.integerEnd n) ++
      on (b = 117) [] (.unsignedEnd n)
  | .minusNonZero =>
    on (isDigit b) [] (.number n .minusNonZero) ++ on (b = 46) [] (.number n .frac) ++
      on (b = 101 || b = 69) [] (.number n .exp) ++ on (b = 105) [] (.integerEnd n)
  | .wide =>
    on (isDigit b) [] (.number n .wide) ++ on (b = 46) [] (.number n .frac) ++
      on (b = 101 || b = 69) [] (.number n .exp)
  | .exp =>
    on (b = 34 || b = 45 || b = 43) [] (.number n .expSign) ++
      on (isDigit b) [] (.number n .expDigits)
  | .expSign => on (isDigit b) [] (.number n .expDigits)
  | .expDigits => on (isDigit b) [] (.number n .expDigits)

/-- Where a position moves on a byte, with the places that are passed. `align` hands on to `main` at
the first byte that is not its own, and `main` reads the byte again. -/
def delta : Pos → UInt8 → List (List Place × Pos)
  | .align, b =>
    on (isWs b || b = 10) [] .align ++ on (b = 13) [] .alignCr ++ on (b = 35) [] .comment ++
      on (isNameChar b && !(b = 11) && !(b = 35)) [.metricStart, .nameStart] .name ++
      on (b = 92) [.metricStart, .nameStart] .nameEsc
  | .alignCr, b => on (b = 10) [] .align
  | .comment, b => on (b = 10) [] .align ++ on (!(b = 10)) [] .comment
  | .discardLine, b => on (b = 10) [] .align ++ on (!(b = 10)) [] .discardLine
  | .name, b =>
    on (isNameChar b) [] .name ++ on (b = 92) [] .nameEsc ++ on (b = 44) [.nameEnd] .tagComma ++
      on (isWs b) [.nameEnd] .fieldWs
  | .nameEsc, b => on (isEscapable b) [] .name
  | .tagComma, b =>
    on (isKeyChar b) [.tagkeyStart] .tagKey ++ on (b = 92) [.tagkeyStart] .tagKeyEsc
  | .tagKey, b | .tagKeyHold, b =>
    on (isKeyChar b) [] .tagKey ++ on (b = 92) [] .tagKeyEsc ++ on (b = 61) [.tagkeyEnd] .tagEq
  | .tagKeyEsc, b =>
    on (isEscapable b && !(b = 92)) [] .tagKey ++ on (b = 92) [] .tagKeyHold
  | .tagEq, b =>
    on (isKeyChar b) [.tagvalueStart] .tagValue ++ on (b = 92) [.tagvalueStart] .tagValueEsc
  | .tagValue, b | .tagValueHold, b =>
    on (isKeyChar b) [] .tagValue ++ on (b = 92) [] .tagValueEsc ++
      on (b = 44) [.tagvalueEnd] .tagComma ++ on (isWs b) [.tagvalueEnd] .fieldWs
  | .tagValueEsc, b =>
    on (isEscapable b && !(b = 92)) [] .tagValue ++ on (b = 92) [] .tagValueHold
  | .fieldWs, b =>
    on (isWs b) [] .fieldWs ++ on (isKeyChar b) [.field .first .keyStart] (.fieldKey .first) ++
      on (b = 92) [.field .first .keyStart] (.fieldKeyEsc .first)
  | .fieldComma, b =>
    on (isKeyChar b) [.field .later .keyStart] (.fieldKey .later) ++
      on (b = 92) [.field .later .keyStart] (.fieldKeyEsc .later)
  | .fieldKey n, b =>
    on (isKeyChar b) [] (.fieldKey n) ++ on (b = 92) [] (.fieldKeyEsc n) ++
      on (b = 61) [.field n .keyEnd] (.fieldEq n)
  | .fieldKeyEsc n, b => on (isEscapable b) [] (.fieldKey n)
  | .fieldEq n, b =>
    on (b = 34) [] (.stringOpen n) ++
      on (b = 45) [.field n .valueStart] (.number n .minus) ++
      on (b = 46) [.field n .valueStart] (.number n .dot) ++
      on (b = 48) [.field n .valueStart] (.number n .zero) ++
      on (isDigit b && !(b = 48)) [.field n .valueStart] (.number n .nonZero) ++
      on (isBoolStart [b]) [.field n .valueStart] (.boolean n [b])
  | .stringOpen n, b =>
    on (b = 34) [.field n .stringStart, .field n .stringEnd] .fieldEnd ++
      on (b = 92) [.field n .stringStart] (.stringEsc n) ++
      on (!(b = 34) && !(b = 92)) [.field n .stringStart] (.stringChar n)
  | .stringChar n, b =>
    on (b = 34) [.field n .stringEnd] .fieldEnd ++ on (b = 92) [] (.stringEsc n) ++
      on (!(b = 34) && !(b = 92)) [] (.stringChar n)
  | .stringEsc n, b => on (b = 34 || b = 92) [] (.stringChar n)
  | .number n s, b =>
    numberDelta n b s ++ if s.final then afterField [.field n .floatEnd] b else []
  | .integerEnd n, b => afterField [.field n .integerEnd] b
  | .unsignedEnd n, b => afterField [.field n .unsignedEnd] b
  | .boolean n text, b =>
    on (isBoolStart (text ++ [b])) [] (.boolean n (text ++ [b])) ++
      if text ∈ boolLiterals then afterField [.field n .boolEnd] b else []
  | .fieldEnd, b => afterField [] b
  | .timestampWs, b =>
    on (isWs b) [] .timestampWs ++ on (b = 45) [.timestampStart] .timestampMinus ++
      on (isDigit b) [.timestampStart] (.timestamp 1) ++ newline [] b
  | .timestampMinus, b => on (isDigit b) [] (.timestamp 1)
  | .timestamp k, b =>
    on (isDigit b && k < 19) [] (.timestamp (k + 1)) ++ on (isWs b) [.timestampEnd] .endWs ++
      newline [.timestampEnd] b
  | .endWs, b => on (isWs b) [] .endWs ++ newline [] b
  | .cr, b => on (b = 10) [] .eol
  | .eol, _ => []

/-! ## Errors -/

/-- The errors of the machine, the last for an error of its handler. -/
inductive ParseErr (E : Type*) where
  | errNameParse
  | errTagParse
  | errFieldParse
  | errTimestampParse
  | errParse
  | handler (e : E)
deriving Repr, DecidableEq

/-- Error actions of the grammar. -/
inductive ErrorAction where
  | nameError
  | tagsetError
  | fieldError
  | timestampError
deriving Repr, DecidableEq

variable {E : Type*}

def ErrorAction.err : ErrorAction → ParseErr E
  | .nameError => .errNameParse
  | .tagsetError => .errTagParse
  | .fieldError => .errFieldParse
  | .timestampError => .errTimestampParse

/-- The error actions at a position. -/
def errorActions : Pos → List ErrorAction
  | .align => [.nameError]
  | .name | .tagComma | .tagKey | .tagKeyEsc | .tagKeyHold | .tagEq | .tagValue | .tagValueEsc
  | .tagValueHold => [.tagsetError]
  | .fieldWs | .fieldComma | .fieldKey _ | .fieldKeyEsc _ | .fieldEq _ | .stringOpen _
  | .stringChar _ | .stringEsc _ => [.fieldError]
  | .number _ s => if s.final then [.fieldError, .timestampError] else [.fieldError]
  | .boolean _ text =>
    if text ∈ boolLiterals then [.fieldError, .timestampError] else [.fieldError]
  | .integerEnd _ | .unsignedEnd _ | .fieldEnd => [.fieldError, .timestampError]
  | .timestampWs | .timestampMinus | .timestamp _ => [.timestampError]
  | .alignCr | .comment | .discardLine | .nameEsc | .endWs | .cr | .eol => []

/-- The error of some error actions : the first in the order of the grammar breaks. -/
def firstError (as : List ErrorAction) : Option (ParseErr E) :=
  ([.nameError, .tagsetError, .fieldError, .timestampError].find? (· ∈ as)).map ErrorAction.err

/-! ## The automaton -/

/-- The transitions of a state on a byte. -/
def moves (cs : List Pos) (b : UInt8) : List (List Place × Pos) :=
  cs.flatMap (delta · b)

/-- A byte moves all positions. Without an error action the error is found after the loop of
`exec`. -/
def move (cs : List Pos) (b : UInt8) : Except (ParseErr E) (List Action × List Pos) :=
  if moves cs b = [] then .error ((firstError (cs.flatMap errorActions)).getD .errParse)
  else .ok (actions ((moves cs b).flatMap Prod.fst), ((moves cs b).map Prod.snd).dedup)

/-- The state's action steps back, so that the byte is read again. -/
def held (cs : List Pos) : Bool :=
  .tagKeyHold ∈ cs || .tagValueHold ∈ cs

/-- Can the input end here? -/
def final : Pos → Bool
  | .number _ s => s.final
  | .boolean _ text => text ∈ boolLiterals
  | .integerEnd _ | .unsignedEnd _ | .fieldEnd | .timestampWs | .timestamp _ | .endWs | .eol => true
  | _ => false

/-- The places that are passed at the end of the input. -/
def leaving : Pos → List Place
  | .name => [.nameEnd]
  | .tagValue | .tagValueHold => [.tagvalueEnd]
  | .number n s => if s.final then [.field n .floatEnd] else []
  | .integerEnd n => [.field n .integerEnd]
  | .unsignedEnd n => [.field n .unsignedEnd]
  | .boolean n text => if text ∈ boolLiterals then [.field n .boolEnd] else []
  | .timestamp _ => [.timestampEnd]
  | _ => []

/-- The error actions at the end of the input. `align` has not handed on to `main`. -/
def errorActionsAtEof : Pos → List ErrorAction
  | .align => []
  | x => errorActions x

/-- What is done at the end of the input after the actions. -/
inductive AtEof (E : Type*) where
  | finishMetric
  | error (e : ParseErr E)
  | nothing
deriving Repr, DecidableEq

def atEof (cs : List Pos) : AtEof E :=
  if cs.any final then .finishMetric
  else
    match firstError (cs.flatMap errorActionsAtEof) with
    | some e => .error e
    | none => .nothing

/-- The actions at the end of the input. -/
def actionsAtEof (cs : List Pos) : List Action :=
  actions (cs.flatMap leaving)

/-! ## Inside and outside of a metric -/

/-- Positions of `main`, where a token has begun. -/
def inside : Pos → Bool
  | .align | .alignCr | .comment | .discardLine => false
  | _ => true

def begun (cs : List Pos) : Bool :=
  cs.any inside

theorem actions_congr {ps qs : List Place} (h : ∀ p, p ∈ ps ↔ p ∈ qs) :
    actions ps = actions qs := by
  simp [actions, h]

variable {e : List Place × Pos}

theorem mem_on {c : Bool} {ps : List Place} {q : Pos} : e ∈ on c ps q ↔ c = true ∧ e = (ps, q) := by
  cases c <;> simp [on]

variable {x : Pos}

/-- Outside there is one position, and a metric begins or there is nothing to do. -/
theorem delta_outside (hx : inside x = false) (b : UInt8) :
    delta x b = [] ∨ (∃ q, delta x b = [([.metricStart, .nameStart], q)] ∧ inside q = true) ∨
      ∃ q, delta x b = [([], q)] ∧ inside q = false := by
  cases x with
  | align =>
    by_cases hname : (isNameChar b && !(b = 11) && !(b = 35)) = true
    · refine .inr (.inl ⟨.name, ?_, rfl⟩)
      simp only [isNameChar, isEscapable, Bool.and_eq_true, Bool.not_eq_true', Bool.or_eq_false_iff,
        decide_eq_false_iff_not] at hname
      simp [delta, on, isWs, isNameChar, isEscapable, hname]
    · have hb : b = 9 ∨ b = 10 ∨ b = 11 ∨ b = 12 ∨ b = 13 ∨ b = 32 ∨ b = 35 ∨ b = 44 ∨ b = 92 := by
        grind [isNameChar, isEscapable]
      rcases hb with rfl | rfl | rfl | rfl | rfl | rfl | rfl | rfl | rfl
      iterate 7 exact .inr (.inr ⟨_, rfl, rfl⟩)
      · exact .inl rfl
      · exact .inr (.inl ⟨_, rfl, rfl⟩)
  | alignCr =>
    by_cases hb : b = 10
    · exact .inr (.inr ⟨.align, by simp [delta, on, hb], rfl⟩)
    · exact .inl (by simp [delta, on, hb])
  | comment | discardLine =>
    by_cases hb : b = 10
    · exact .inr (.inr ⟨.align, by simp [delta, on, hb], rfl⟩)
    · exact .inr (.inr ⟨_, by simp [delta, on, hb]; rfl, rfl⟩)
  | _ => cases hx

variable {b : UInt8}

theorem mem_delta_of_outside (hx : inside x = false) (he : e ∈ delta x b) :
    e.1 = [.metricStart, .nameStart] ∨ e.1 = [] ∧ inside e.2 = false := by
  rcases delta_outside hx b with h | ⟨q, h, -⟩ | ⟨q, h, hq⟩
  · simp [h] at he
  · rw [h, mem_singleton] at he
    exact .inl (by rw [he])
  · rw [h, mem_singleton] at he
    exact .inr (by rw [he]; exact ⟨rfl, hq⟩)

section

variable {ps : List Place} {b : UInt8} {e : List Place × Pos}

theorem mem_newline (h : e ∈ newline ps b) :
    inside e.2 = true ∧ (e.2 = .nameEsc → b = 92) ∧ (e.2 = .cr → b = 13) := by
  simp only [newline, mem_append, mem_on, decide_eq_true_eq] at h
  rcases h with ⟨rfl, rfl⟩ | ⟨rfl, rfl⟩ <;> simp [inside]

theorem mem_afterField (h : e ∈ afterField ps b) :
    inside e.2 = true ∧ (e.2 = .nameEsc → b = 92) ∧ (e.2 = .cr → b = 13) := by
  simp only [afterField, mem_append, mem_on, decide_eq_true_eq] at h
  rcases h with (⟨-, rfl⟩ | ⟨-, rfl⟩) | h
  · exact ⟨rfl, nofun, nofun⟩
  · exact ⟨rfl, nofun, nofun⟩
  · exact mem_newline h

end

/-- A metric does not end without an action. The byte before an escape in a name is a backslash,
and the one before the line feed of a line with two characters at its end a carriage return. -/
theorem mem_delta (he : e ∈ delta x b) : (inside x = true → inside e.2 = true) ∧
    (e.2 = .nameEsc → b = 92) ∧ (e.2 = .cr → b = 13) := by
  cases x with
  | number n s =>
    simp only [delta, mem_append] at he
    rcases he with he | he
    · cases s <;> simp only [numberDelta, mem_append, mem_on] at he <;> aesop
    · split at he
      · exact (mem_afterField he).imp_left fun h _ => h
      · cases he
  | boolean =>
    simp only [delta, mem_append, mem_on] at he
    rcases he with ⟨-, rfl⟩ | he
    · exact ⟨fun _ => rfl, nofun, nofun⟩
    · split at he
      · exact (mem_afterField he).imp_left fun h _ => h
      · cases he
  | integerEnd n | unsignedEnd n | fieldEnd => exact (mem_afterField he).imp_left fun h _ => h
  | timestampWs | timestamp k | endWs =>
    simp only [delta, mem_append, mem_on] at he
    rcases he with he | he
    · aesop
    · exact (mem_newline he).imp_left fun h _ => h
  | _ =>
    simp only [delta, mem_append, mem_on, decide_eq_true_eq] at he
    aesop

variable {as : List Action} {cs cs' : List Pos}

theorem move_eq_ok (h : (move cs b : Except (ParseErr E) _) = .ok (as, cs')) :
    moves cs b ≠ [] ∧ as = actions ((moves cs b).flatMap Prod.fst) ∧
      cs' = ((moves cs b).map Prod.snd).dedup := by
  unfold move at h
  split at h
  · cases h
  · next hne =>
    injection h with h
    exact ⟨hne, (Prod.ext_iff.1 h).1.symm, (Prod.ext_iff.1 h).2.symm⟩

/-- From outside, a metric and its name begin before anything else, or nothing is done. -/
theorem move_of_not_begun (hcs : begun cs = false)
    (h : (move cs b : Except (ParseErr E) _) = .ok (as, cs')) :
    as = [.beginMetric, .begin] ∨ as = [] ∧ begun cs' = false := by
  obtain ⟨-, rfl, rfl⟩ := move_eq_ok h
  have hmoves : ∀ e ∈ moves cs b,
      e.1 = [.metricStart, .nameStart] ∨ e.1 = [] ∧ inside e.2 = false := by
    intro e he
    obtain ⟨x, hx, he⟩ := mem_flatMap.1 he
    exact mem_delta_of_outside (by simpa using any_eq_false.1 hcs x hx) he
  by_cases hbegin : ∃ e ∈ moves cs b, e.1 = [.metricStart, .nameStart]
  · obtain ⟨e, he, hfst⟩ := hbegin
    have hstart : actions ((moves cs b).flatMap Prod.fst) = actions [.metricStart, .nameStart] := by
      refine actions_congr fun p => ?_
      rw [mem_flatMap]
      refine ⟨fun ⟨e', he', hp⟩ => ?_, fun hp => ⟨e, he, hfst ▸ hp⟩⟩
      rcases hmoves e' he' with h' | ⟨h', -⟩
      · exact h' ▸ hp
      · simp [h'] at hp
    exact .inl hstart
  · have hnone : ∀ e ∈ moves cs b, e.1 = [] ∧ inside e.2 = false := fun e he =>
      (hmoves e he).resolve_left fun hfst => hbegin ⟨e, he, hfst⟩
    refine .inr ⟨?_, ?_⟩
    · have hempty : (moves cs b).flatMap Prod.fst = [] :=
        flatMap_eq_nil_iff.2 fun e he => (hnone e he).1
      rw [hempty]
      rfl
    · rw [begun, any_eq_false]
      intro x hx
      obtain ⟨e, he, rfl⟩ := mem_map.1 (mem_dedup.1 hx)
      simp [(hnone e he).2]

theorem inside_of_final (hx : final x = true) : inside x = true := by
  cases x <;> first | rfl | cases hx

variable {cs : List Pos}

theorem exists_final (h : (atEof cs : AtEof E) = .finishMetric) : ∃ x ∈ cs, final x = true := by
  unfold atEof at h
  split at h
  · next hfinal => exact any_eq_true.1 hfinal
  · split at h <;> cases h

theorem leaving_of_outside (hx : inside x = false) : leaving x = [] := by
  cases x <;> simp [inside] at hx <;> rfl

theorem actionsAtEof_of_not_begun (hcs : begun cs = false) : actionsAtEof cs = [] := by
  have hempty : cs.flatMap leaving = [] := by
    rw [flatMap_eq_nil_iff]
    exact fun x hx => leaving_of_outside (by simpa using any_eq_false.1 hcs x hx)
  rw [actionsAtEof, hempty]
  rfl

/-! ## Ends without an action -/

theorem firstError_eq_none {as : List ErrorAction} :
    (firstError as : Option (ParseErr E)) = none ↔ as = [] := by
  rw [firstError, Option.map_eq_none_iff, find?_eq_none]
  refine ⟨fun h => eq_nil_iff_forall_not_mem.2 fun a ha => ?_, fun h => by simp [h]⟩
  cases a <;> simp_all

/-- Inside a metric, the end of the input means nothing only in an escape of the name and between
a carriage return and the line feed. -/
theorem atEof_eq_nothing (hcs : ∀ x ∈ cs, inside x = true) :
    (atEof cs : AtEof E) = .nothing ↔ ∀ x ∈ cs, x = .nameEsc ∨ x = .cr := by
  have hpos : ∀ x ∈ cs, (final x = false ∧ errorActionsAtEof x = [] ↔ x = .nameEsc ∨ x = .cr) := by
    intro x hx
    have hin := hcs x hx
    cases x <;> simp [inside] at hin <;> simp [final, errorActionsAtEof, errorActions]
    all_goals split <;> simp
  have hnothing : (atEof cs : AtEof E) = .nothing ↔
      ∀ x ∈ cs, final x = false ∧ errorActionsAtEof x = [] := by
    unfold atEof
    by_cases hfinal : cs.any final = true
    · rw [if_pos hfinal]
      obtain ⟨x, hx, hfx⟩ := any_eq_true.1 hfinal
      exact ⟨fun h => (by cases h), fun h => absurd (h x hx).1 (by simp [hfx])⟩
    · have hnone : ∀ x ∈ cs, final x = false := by
        simpa using hfinal
      rw [if_neg hfinal]
      cases herr : (firstError (cs.flatMap errorActionsAtEof) : Option (ParseErr E)) with
      | none =>
        rw [firstError_eq_none, flatMap_eq_nil_iff] at herr
        exact ⟨fun _ x hx => ⟨hnone x hx, herr x hx⟩, fun _ => rfl⟩
      | some =>
        refine ⟨fun h => (by cases h), fun h => ?_⟩
        have hnil := firstError_eq_none (E := E).2 (flatMap_eq_nil_iff.2 fun x hx => (h x hx).2)
        rw [hnil] at herr
        cases herr
  rw [hnothing]
  exact forall₂_congr hpos

theorem leaving_of_nameEsc_or_cr (hx : x = .nameEsc ∨ x = .cr) : leaving x = [] := by
  rcases hx with rfl | rfl <;> rfl

end Telegraf.Influx
