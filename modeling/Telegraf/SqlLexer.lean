import Telegraf.SqlText

/-!
# Reading SQL texts into lexemes

A text is read into lexemes from left to right : texts in quotes, with doubled quotes for the quote
itself, words, which are numbers and names, and marks, which are single bytes. Blanks only end a
word.

`Reads t ls` : `t` is read to `ls` wherever a lexeme can begin, if what follows does not continue
its last lexeme. A quoted text is one lexeme, whatever the text is (`reads_quote`), and texts with
separators between them are read one after the other (`reads_intercalate`).

Rows of values are lists in parentheses, a value is a scalar or an object with named scalars, and
`parse_rowsLexemes` : the parser of rows inverts writing them.
-/

open List

namespace SqlLexer

open SqlText

/-! ## Lexemes -/

/-- The bytes of numbers and names. -/
def isWord (b : UInt8) : Bool :=
  (48 ≤ b && b ≤ 57) || (65 ≤ b && b ≤ 90) || (97 ≤ b && b ≤ 122) ||
    b == 95 || b == 43 || b == 45 || b == 46

def isBlank (b : UInt8) : Bool :=
  b == 32 || b == 10 || b == 9 || b == 13

inductive Lexeme where
  | quoted (k : Kind) (s : List UInt8)
  | word (s : List UInt8)
  | mark (b : UInt8)
deriving Repr, DecidableEq

/-- Where the reader is, with what it has of the current lexeme. -/
inductive State where
  | ground
  | word (acc : List UInt8)
  | inside (k : Kind) (acc : List UInt8)
  | behind (k : Kind) (acc : List UInt8)
deriving Repr, DecidableEq

/-- A byte where a lexeme can begin. -/
def enter (b : UInt8) : List Lexeme × State :=
  if b = Kind.ident.byte then ([], .inside .ident [])
  else if b = Kind.literal.byte then ([], .inside .literal [])
  else if isBlank b then ([], .ground)
  else if isWord b then ([], .word [b])
  else ([.mark b], .ground)

def State.step : State → UInt8 → List Lexeme × State
  | .ground, b => enter b
  | .word acc, b =>
    if isWord b then ([], .word (acc ++ [b])) else (.word acc :: (enter b).1, (enter b).2)
  | .inside k acc, b => ([], if b = k.byte then .behind k acc else .inside k (acc ++ [b]))
  | .behind k acc, b =>
    if b = k.byte then ([], .inside k (acc ++ [b]))
    else (.quoted k acc :: (enter b).1, (enter b).2)

/-- The end of the text, which is an error inside quotes. -/
def State.finish : State → Option (List Lexeme)
  | .ground => some []
  | .word acc => some [.word acc]
  | .inside _ _ => none
  | .behind k acc => some [.quoted k acc]

def lex : State → List UInt8 → Option (List Lexeme)
  | st, [] => st.finish
  | st, b :: s => (lex (st.step b).2 s).map fun ls => (st.step b).1 ++ ls

variable {ls : List Lexeme} {b : UInt8} {st st' : State}

open State

theorem lex_cons (h : st.step b = (ls, st'))
    (s : List UInt8) : lex st (b :: s) = (lex st' s).map fun ls' => ls ++ ls' := by
  rw [lex, h]

/-- A byte that completes no lexeme. -/
theorem lex_cons_nil (h : st.step b = ([], st')) (s : List UInt8) :
    lex st (b :: s) = lex st' s := by
  rw [lex_cons h]
  simp

/-! ## Texts that are read on their own -/

/-- Nothing that continues a word or a text in quotes. -/
def Stops (s : List UInt8) : Prop :=
  ∀ b ∈ s.head?, isWord b = false ∧ ∀ k : Kind, b ≠ k.byte

/-- The text is read to the lexemes if something follows that stops its last lexeme. -/
def Reads (t : List UInt8) (ls : List Lexeme) : Prop :=
  ∀ rest, Stops rest → lex .ground (t ++ rest) = (lex .ground rest).map fun ls' => ls ++ ls'

/-- The text is read to the lexemes whatever follows, and stops what is before it. -/
structure Separator (t : List UInt8) (ls : List Lexeme) : Prop where
  stops : Stops t
  ne_nil : t ≠ []
  reads : ∀ rest, lex .ground (t ++ rest) = (lex .ground rest).map fun ls' => ls ++ ls'

variable {t : List UInt8}

theorem stops_nil : Stops [] := by
  simp [Stops]

theorem Separator.stops_append (h : Separator t ls) (rest : List UInt8) : Stops (t ++ rest) := by
  intro b hb
  rw [head?_append_of_ne_nil _ h.ne_nil] at hb
  exact h.stops b hb

theorem Reads.lex_eq (h : Reads t ls) : lex .ground t = some ls := by
  simpa [lex, finish] using h [] stops_nil

theorem reads_nil : Reads [] [] := by
  intro _ _
  simp

section Append

variable {t u : List UInt8} {ls ms : List Lexeme}

theorem map_append_append (x : Option (List Lexeme)) :
    (x.map fun l => ms ++ l).map (fun l => ls ++ l) = x.map fun l => (ls ++ ms) ++ l := by
  simp [Option.map_map, Function.comp_def]

theorem Separator.append_reads (ht : Separator t ls) (hu : Reads u ms) :
    Reads (t ++ u) (ls ++ ms) := by
  intro rest hrest
  rw [append_assoc, ht.reads, hu rest hrest, map_append_append]

theorem Reads.append_separator (ht : Reads t ls) (hu : Separator u ms) :
    Reads (t ++ u) (ls ++ ms) := by
  intro rest _
  rw [append_assoc, ht _ (hu.stops_append rest), hu.reads, map_append_append]

theorem Separator.append (ht : Separator t ls) (hu : Separator u ms) :
    Separator (t ++ u) (ls ++ ms) where
  stops := ht.stops_append u
  ne_nil := append_ne_nil_of_left_ne_nil ht.ne_nil u
  reads rest := by rw [append_assoc, ht.reads, hu.reads, map_append_append]

variable {sepLs : List Lexeme} {sep : List UInt8}

theorem Reads.append (ht : Reads t ls) (hsep : Separator sep sepLs) (hu : Reads u ms) :
    Reads (t ++ sep ++ u) (ls ++ sepLs ++ ms) := by
  intro rest hrest
  rw [append_assoc, append_assoc, ht _ (hsep.stops_append _), hsep.reads, hu rest hrest,
    map_append_append, map_append_append]

/-- Texts with a separator between them. -/
theorem reads_intercalate (hsep : Separator sep sepLs)
    {ts : List (List UInt8)} {lss : List (List Lexeme)} (h : List.Forall₂ Reads ts lss) :
    Reads (sep.intercalate ts) (sepLs.intercalate lss) := by
  induction h with
  | nil => exact reads_nil
  | @cons t ls ts lss ht hrest ih =>
    cases hrest with
    | nil => simpa using ht
    | cons =>
      rw [intercalate_cons_cons, intercalate_cons_cons]
      exact ht.append hsep ih

end Append

/-! ## Marks, words and quoted texts -/

theorem isWord_byte (k : Kind) : isWord k.byte = false := by
  cases k <;> rfl

theorem isBlank_cases (hb : isBlank b = true) : b = 32 ∨ b = 10 ∨ b = 9 ∨ b = 13 := by
  simpa [isBlank, or_assoc] using hb

theorem separator_blank (hb : isBlank b = true) : Separator [b] [] := by
  have hstop : isWord b = false ∧ ∀ k : Kind, b ≠ k.byte := by
    rcases isBlank_cases hb with rfl | rfl | rfl | rfl <;>
      exact ⟨rfl, fun k => by cases k <;> decide⟩
  have henter : ground.step b = ([], .ground) := by
    rw [step, enter, if_neg (hstop.2 _), if_neg (hstop.2 _), if_pos hb]
  refine ⟨?_, cons_ne_nil _ _, fun rest => ?_⟩
  · simpa [Stops] using hstop
  · exact lex_cons henter rest

theorem separator_mark (hblank : isBlank b = false) (hword : isWord b = false)
    (hquote : ∀ k : Kind, b ≠ k.byte) : Separator [b] [.mark b] := by
  have henter : ground.step b = ([.mark b], .ground) := by
    simp [step, enter, hblank, hword, hquote]
  refine ⟨?_, cons_ne_nil _ _, fun rest => ?_⟩
  · simpa [Stops] using ⟨hword, hquote⟩
  · exact lex_cons henter rest

theorem lex_word (acc w rest : List UInt8) (hw : ∀ b ∈ w, isWord b = true) :
    lex (.word acc) (w ++ rest) = lex (.word (acc ++ w)) rest := by
  induction w generalizing acc with
  | nil => simp
  | cons b w ih =>
    obtain ⟨hb, hw⟩ := forall_mem_cons.1 hw
    have hstep : (word acc).step b = ([], .word (acc ++ [b])) := by simp [step, hb]
    rw [cons_append, lex_cons_nil hstep, ih _ hw, append_assoc, singleton_append]

variable {acc rest : List UInt8}

/-- A lexeme that ends where the text ends, or before a byte that begins anew. -/
theorem lex_stop {l : Lexeme} (hfinish : st.finish = some [l])
    (hstep : ∀ b ∈ rest.head?, st.step b = (l :: (enter b).1, (enter b).2)) :
    lex st rest = (lex .ground rest).map fun ls => l :: ls := by
  cases rest with
  | nil => exact hfinish
  | cons b =>
    rw [lex_cons (hstep b rfl), lex_cons (show ground.step b = ((enter b).1, (enter b).2) from rfl),
      Option.map_map]
    rfl

theorem lex_word_stop (hstop : Stops rest) :
    lex (.word acc) rest = (lex .ground rest).map fun ls => .word acc :: ls :=
  lex_stop rfl fun b hb => by simp [step, (hstop b hb).1]

/-- A word is one lexeme. -/
theorem reads_word {w : List UInt8} (hne : w ≠ []) (hw : ∀ b ∈ w, isWord b = true) :
    Reads w [.word w] := by
  obtain ⟨b, w, rfl⟩ := exists_cons_of_ne_nil hne
  obtain ⟨hb, hw⟩ := forall_mem_cons.1 hw
  have hquote : ∀ k : Kind, b ≠ k.byte := by
    rintro k rfl
    rw [isWord_byte] at hb
    cases hb
  have hblank : isBlank b = false := by
    rw [Bool.eq_false_iff]
    intro hblank
    rcases isBlank_cases hblank with rfl | rfl | rfl | rfl <;> cases hb
  have henter : ground.step b = ([], .word [b]) := by
    simp [step, enter, hquote, hblank, hb]
  intro _ hstop
  rw [cons_append, lex_cons_nil henter, lex_word _ _ _ hw, lex_word_stop hstop]
  rfl

/-- Doubled quotes do not end a text in quotes. -/
theorem lex_double (k : Kind) (acc s rest : List UInt8) :
    lex (.inside k acc) (double k s ++ rest) = lex (.inside k (acc ++ s)) rest := by
  induction s generalizing acc with
  | nil => simp [double]
  | cons b s ih =>
    have hcons : double k (b :: s) = (if b = k.byte then [b, b] else [b]) ++ double k s := by
      rw [double, flatMap_cons, ← double]
    have hacc : acc ++ b :: s = acc ++ [b] ++ s := by simp
    rw [hcons, hacc, ← ih]
    split_ifs with hb
    · simp [lex, step, hb]
    · simp [lex, step, hb]

theorem lex_behind_stop {k : Kind} (hstop : Stops rest) :
    lex (.behind k acc) rest = (lex .ground rest).map fun ls => .quoted k acc :: ls :=
  lex_stop rfl fun b hb => by simp [step, (hstop b hb).2 k]

theorem step_byte (k : Kind) : ground.step k.byte = ([], .inside k []) := by
  cases k <;> rfl

/-- A quoted text is one lexeme with the text. -/
theorem reads_quote (k : Kind) (s : List UInt8) : Reads (quote k s) [.quoted k s] := by
  intro _ hstop
  have hclose : (inside k ([] ++ s)).step k.byte = ([], .behind k s) := by
    simp [step]
  rw [quote, cons_append, lex_cons_nil (step_byte k), append_assoc, lex_double,
    singleton_append, lex_cons_nil hclose, lex_behind_stop hstop]
  rfl

/-! ## Rows -/

/-- A scalar. Numbers are kept as texts. -/
inductive SqlScalar where
  | string (s : List UInt8)
  | number (t : List UInt8)
  | bool (b : Bool)
deriving Repr, DecidableEq

/-- A value of a row. -/
inductive Value where
  | scalar (v : SqlScalar)
  | object (ps : List (List UInt8 × SqlScalar))
deriving Repr, DecidableEq

/-- The word of a Boolean. -/
def boolWord : Bool → List UInt8
  | true => [116, 114, 117, 101]
  | false => [102, 97, 108, 115, 101]

/-- A number begins with a digit or a minus sign. -/
def isNumber (t : List UInt8) : Bool :=
  (t.head?.any fun b => b == 45 || (48 ≤ b && b ≤ 57)) && t.all isWord

def parseScalar : Lexeme → Option SqlScalar
  | .quoted .literal s => some (.string s)
  | .word t =>
    if t = boolWord true then some (.bool true)
    else if t = boolWord false then some (.bool false)
    else if isNumber t then some (.number t)
    else none
  | _ => none

/-- The pairs of an object, behind its brace. -/
def parsePairs : List Lexeme → Option (List (List UInt8 × SqlScalar) × List Lexeme)
  | .quoted .ident key :: .mark 61 :: x :: .mark b :: rest =>
    match parseScalar x with
    | none => none
    | some v =>
      if b = 125 then some ([(key, v)], rest)
      else if b = 44 then (parsePairs rest).map fun r => ((key, v) :: r.1, r.2)
      else none
  | _ => none

def parseValue : List Lexeme → Option (Value × List Lexeme)
  | .mark 123 :: .mark 125 :: rest => some (.object [], rest)
  | .mark 123 :: rest => (parsePairs rest).map fun r => (.object r.1, r.2)
  | x :: rest => (parseScalar x).map fun v => (.scalar v, rest)
  | [] => none

/-- The values of a row, behind its parenthesis. -/
def parseValues : ℕ → List Lexeme → Option (List Value × List Lexeme)
  | 0, _ => none
  | n + 1, ls =>
    match parseValue ls with
    | some (v, .mark 41 :: rest) => some ([v], rest)
    | some (v, .mark 44 :: rest) => (parseValues n rest).map fun r => (v :: r.1, r.2)
    | _ => none

/-- Rows, up to the semicolon at the end. -/
def parseRows : ℕ → List Lexeme → Option (List (List Value))
  | n + 1, .mark 40 :: ls =>
    match parseValues ls.length ls with
    | some (vs, [.mark 59]) => some [vs]
    | some (vs, .mark 44 :: rest) => (parseRows n rest).map fun rows => vs :: rows
    | _ => none
  | _, _ => none

/-- The rows of a text. -/
def parse (ls : List Lexeme) : Option (List (List Value)) :=
  parseRows ls.length ls

/-- The lexeme of a scalar. -/
def SqlScalar.lexeme : SqlScalar → Lexeme
  | .string s => .quoted .literal s
  | .number t => .word t
  | .bool b => .word (boolWord b)

def pairLexemes (p : List UInt8 × SqlScalar) : List Lexeme :=
  [.quoted .ident p.1, .mark 61, p.2.lexeme]

def Value.lexemes : Value → List Lexeme
  | .scalar v => [v.lexeme]
  | .object ps => .mark 123 :: ([Lexeme.mark 44].intercalate (ps.map pairLexemes) ++ [.mark 125])

def rowLexemes (vs : List Value) : List Lexeme :=
  .mark 40 :: ([Lexeme.mark 44].intercalate (vs.map Value.lexemes) ++ [.mark 41])

def rowsLexemes (rows : List (List Value)) : List Lexeme :=
  [Lexeme.mark 44].intercalate (rows.map rowLexemes) ++ [.mark 59]

/-! ## Parsing what was written -/

/-- The text of a number is one. -/
def SqlScalar.Ok : SqlScalar → Prop
  | .number t => isNumber t = true
  | _ => True

def Value.Ok : Value → Prop
  | .scalar v => v.Ok
  | .object ps => ∀ p ∈ ps, p.2.Ok

theorem parseScalar_lexeme {v : SqlScalar} (hv : v.Ok) : parseScalar v.lexeme = some v := by
  cases v with
  | string => rfl
  | bool b => cases b <;> rfl
  | number t =>
    have hne : ∀ b, t ≠ boolWord b := by
      rintro b rfl
      cases b <;> cases hv
    have hnumber : isNumber t = true := hv
    rw [SqlScalar.lexeme, parseScalar, if_neg (hne true), if_neg (hne false), if_pos hnumber]

section Parse

variable (rest : List Lexeme)

theorem parsePairs_intercalate : ∀ {ps : List (List UInt8 × SqlScalar)}, ps ≠ [] →
    (∀ p ∈ ps, p.2.Ok) →
    parsePairs ([Lexeme.mark 44].intercalate (ps.map pairLexemes) ++ .mark 125 :: rest) =
      some (ps, rest)
  | [p], _, hps => by
    simp [pairLexemes, parsePairs, parseScalar_lexeme (hps p mem_cons_self)]
  | p :: q :: ps, _, hps => by
    obtain ⟨hp, hrest⟩ := forall_mem_cons.1 hps
    rw [map_cons, map_cons, intercalate_cons_cons, ← map_cons, pairLexemes]
    simp only [cons_append, nil_append]
    rw [parsePairs, parseScalar_lexeme hp]
    simp only [parsePairs_intercalate (cons_ne_nil q ps) hrest]
    rfl

theorem parseValue_lexemes {v : Value} (hv : v.Ok) :
    parseValue (v.lexemes ++ rest) = some (v, rest) := by
  cases v with
  | scalar v =>
    have hparse := parseScalar_lexeme hv
    cases v <;> simp only [Value.lexemes, SqlScalar.lexeme, singleton_append] at hparse ⊢ <;>
      rw [parseValue, hparse] <;> first | rfl | simp
  | object ps =>
    cases ps with
    | nil => rfl
    | cons p ps =>
      have hpairs := parsePairs_intercalate rest (cons_ne_nil p ps) hv
      obtain ⟨t, ht⟩ : ∃ t, [Lexeme.mark 44].intercalate ((p :: ps).map pairLexemes) ++
          .mark 125 :: rest = .quoted .ident p.1 :: t := by
        cases ps <;> simp [pairLexemes]
      rw [Value.lexemes, cons_append, append_assoc, singleton_append, ht]
      rw [ht] at hpairs
      rw [parseValue, hpairs]
      · rfl
      · exact fun _ h => nomatch h

theorem parseValues_intercalate : ∀ {vs : List Value} {n : ℕ}, vs ≠ [] → vs.length ≤ n →
    (∀ v ∈ vs, v.Ok) →
    parseValues n ([Lexeme.mark 44].intercalate (vs.map Value.lexemes) ++ .mark 41 :: rest) =
      some (vs, rest)
  | [v], n + 1, _, _, hvs => by
    rw [parseValues, map_singleton, intercalate_singleton,
      parseValue_lexemes _ (hvs v mem_cons_self)]
    rfl
  | v :: w :: vs, n + 1, _, hn, hvs => by
    obtain ⟨hv, hrest⟩ := forall_mem_cons.1 hvs
    have hlength : (w :: vs).length ≤ n := Nat.le_of_succ_le_succ hn
    rw [parseValues, map_cons, map_cons, intercalate_cons_cons, ← map_cons,
      append_assoc, append_assoc, parseValue_lexemes _ hv, singleton_append]
    simp only [parseValues_intercalate (cons_ne_nil w vs) hlength hrest]
    rfl

theorem length_le_length_intercalate {α : Type*} (sep : List α) {ls : List (List α)}
    (h : ∀ l ∈ ls, l ≠ []) : ls.length ≤ (sep.intercalate ls).length := by
  match ls, h with
  | [], _ => exact Nat.le_refl 0
  | [l], h =>
    rw [intercalate_singleton]
    exact length_pos_iff.2 (h l mem_cons_self)
  | l :: m :: ls, h =>
    obtain ⟨hl, hrest⟩ := forall_mem_cons.1 h
    have hlength := length_le_length_intercalate sep hrest
    have hpos := length_pos_iff.2 hl
    rw [intercalate_cons_cons, length_cons, length_append, length_append]
    omega

theorem lexemes_ne_nil (v : Value) : v.lexemes ≠ [] := by
  cases v <;> exact cons_ne_nil _ _

theorem rowLexemes_ne_nil (vs : List Value) : rowLexemes vs ≠ [] :=
  cons_ne_nil _ _

theorem parseValues_rowLexemes {vs : List Value} (hne : vs ≠ []) (hvs : ∀ v ∈ vs, v.Ok)
    {n : ℕ} (hn : (rowLexemes vs).length ≤ n + 1) :
    parseValues n ([Lexeme.mark 44].intercalate (vs.map Value.lexemes) ++ .mark 41 :: rest) =
      some (vs, rest) := by
  refine parseValues_intercalate rest hne ?_ hvs
  have hlength := length_le_length_intercalate [Lexeme.mark 44]
    (forall_mem_map.2 fun v (_ : v ∈ vs) => lexemes_ne_nil v)
  rw [length_map] at hlength
  simp only [rowLexemes, length_cons, length_append, length_nil] at hn
  omega

theorem parseRows_intercalate : ∀ {rows : List (List Value)} {n : ℕ}, rows ≠ [] →
    rows.length ≤ n → (∀ vs ∈ rows, vs ≠ [] ∧ ∀ v ∈ vs, v.Ok) →
    parseRows n (rowsLexemes rows) = some rows
  | [vs], n + 1, _, _, hrows => by
    obtain ⟨hne, hvs⟩ := hrows vs mem_cons_self
    have htext : rowsLexemes [vs] =
        .mark 40 :: ([Lexeme.mark 44].intercalate (vs.map Value.lexemes) ++
          .mark 41 :: [.mark 59]) := by
      simp [rowsLexemes, rowLexemes]
    rw [htext, parseRows, parseValues_rowLexemes _ hne hvs (by simp [rowLexemes])]
    rfl
  | vs :: ws :: rows, n + 1, _, hn, hrows => by
    obtain ⟨⟨hne, hvs⟩, hrest⟩ := forall_mem_cons.1 hrows
    have hlength : (ws :: rows).length ≤ n := Nat.le_of_succ_le_succ hn
    have htext : rowsLexemes (vs :: ws :: rows) =
        .mark 40 :: ([Lexeme.mark 44].intercalate (vs.map Value.lexemes) ++
          .mark 41 :: .mark 44 :: rowsLexemes (ws :: rows)) := by
      simp [rowsLexemes, rowLexemes]
    rw [htext, parseRows, parseValues_rowLexemes _ hne hvs (by simp [rowLexemes])]
    simp only [parseRows_intercalate (cons_ne_nil ws rows) hlength hrest]
    rfl

/-- Rows are parsed from the lexemes they are written with. -/
theorem parse_rowsLexemes {rows : List (List Value)} (hne : rows ≠ [])
    (h : ∀ vs ∈ rows, vs ≠ [] ∧ ∀ v ∈ vs, v.Ok) : parse (rowsLexemes rows) = some rows := by
  refine parseRows_intercalate hne ?_ h
  have hlength := length_le_length_intercalate [Lexeme.mark 44]
    (forall_mem_map.2 fun vs (_ : vs ∈ rows) => rowLexemes_ne_nil vs)
  rw [length_map] at hlength
  rw [rowsLexemes, length_append]
  exact Nat.le_add_right_of_le hlength

end Parse

end SqlLexer
