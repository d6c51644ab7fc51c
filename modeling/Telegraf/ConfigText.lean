import Telegraf.Metric
import Telegraf.Replacer

/-!
# Environment variables in the configuration

`parseConfig` finds the matches of `$NAME` and `${NAME}` once, and then replaces for each match
the first occurrence of its text in what the earlier replacements left. An occurrence that stands
before the match, in a match that was left or in the value of a variable, is replaced in its place.
Every match is replaced where it stands if and only if there is no such occurrence, and then the
substitution is the simultaneous one (`substitution_iff_no_earlier`).
-/

open List

namespace Telegraf.Config

/-! ## Matches -/

/-- The class `\w`. -/
def isWord (b : UInt8) : Bool :=
  (48 ≤ b && b ≤ 57) || (65 ≤ b && b ≤ 90) || b == 95 || (97 ≤ b && b ≤ 122)

/-- A match of `envVarRe`. -/
structure Parameter where
  braced : Bool
  name : GoString
  word : name.all isWord = true

def Parameter.text (p : Parameter) : GoString :=
  if p.braced then str "$\x7b" ++ p.name ++ str "\x7d" else str "$" ++ p.name

/-- The match at the beginning of a text. The first alternative comes first. -/
def matchAt : GoString → Option Parameter
  | 36 :: s =>
    if s.head? = some 123 ∧ s.tail.takeWhile isWord ≠ [] ∧
        (s.tail.dropWhile isWord).head? = some 125 then
      some ⟨true, s.tail.takeWhile isWord, List.all_takeWhile⟩
    else if s.takeWhile isWord ≠ [] then some ⟨false, s.takeWhile isWord, List.all_takeWhile⟩
    else none
  | _ => none

/-- A byte that is in no match, or a match. -/
inductive Piece where
  | byte (b : UInt8)
  | parameter (p : Parameter)

namespace Piece

def text : Piece → GoString
  | byte b => [b]
  | parameter p => p.text

def parameter? : Piece → Option Parameter
  | byte _ => none
  | parameter p => some p

end Piece

/-- The pieces of a text whose first `n` bytes belong to a match. -/
def piecesFrom : ℕ → GoString → List Piece
  | _, [] => []
  | n + 1, _ :: s => piecesFrom n s
  | 0, b :: s =>
    match matchAt (b :: s) with
    | some p => .parameter p :: piecesFrom (p.text.length - 1) s
    | none => .byte b :: piecesFrom 0 s

def pieces (s : GoString) : List Piece :=
  piecesFrom 0 s

/-- `envVarRe.FindAllSubmatch`. -/
def findAllSubmatch (s : GoString) : List Parameter :=
  (pieces s).filterMap Piece.parameter?

/-! ## The substitution -/

/-- `bytes.TrimPrefix`. -/
def trimPrefix (start s : GoString) : GoString :=
  if start.isPrefixOf s then s.drop start.length else s

def trimBOM (s : GoString) : GoString :=
  trimPrefix [0xef, 0xbb, 0xbf] s

/-- `envVarEscaper`. -/
def escapeEnv (value : GoString) : GoString :=
  Replacer.replace [(str "\"", str "\\\""), (str "\\", str "\\\\")] value

/-- `bytes.Index` of a pattern that is not empty. -/
def index (old : GoString) : GoString → Option ℕ
  | [] => none
  | b :: s => if old.isPrefixOf (b :: s) then some 0 else (index old s).map (· + 1)

/-- `bytes.Replace` of the first occurrence. -/
def replaceFirst (s old new : GoString) : GoString :=
  match index old s with
  | some i => s.take i ++ new ++ s.drop (i + old.length)
  | none => s

variable (env : GoString → Option GoString)

/-- The loop body of `parseConfig`. -/
def substitute (contents : GoString) (p : Parameter) : GoString :=
  match env (trimPrefix (str "$") p.name) with
  | some value => replaceFirst contents p.text (escapeEnv value)
  | none => contents

/-- The text that `parseConfig` gives to the parser. -/
def parseConfig (contents : GoString) : GoString :=
  let contents := trimBOM contents
  (findAllSubmatch contents).foldl (substitute env) contents

/-! ## What it is for -/

/-- The match with its variable replaced, if it is set. -/
def Piece.substituted : Piece → GoString
  | byte b => [b]
  | parameter p => ((env p.name).map escapeEnv).getD p.text

/-- All matches replaced at once. -/
def simultaneous (contents : GoString) : GoString :=
  (pieces (trimBOM contents)).flatMap (Piece.substituted env)

/-- Every match of a variable that is set is replaced at the position it has after the replacements
before it. -/
def AtOwnPositions (contents : GoString) : Prop :=
  ∀ before p after, pieces (trimBOM contents) = before ++ .parameter p :: after →
    (env p.name).isSome → index p.text
      ((before.filterMap Piece.parameter?).foldl (substitute env) (trimBOM contents)) =
        some (before.flatMap (Piece.substituted env)).length

/-- A text does not begin earlier where it follows another. -/
def NotEarlier (before text : GoString) : Prop :=
  ∀ i < before.length, ¬text <+: (before ++ text).drop i

/-- No match of a variable that is set has its text begin before it, in what the replacements
before it make. -/
def NoEarlier (contents : GoString) : Prop :=
  ∀ before p after, pieces (trimBOM contents) = before ++ .parameter p :: after →
    (env p.name).isSome → NotEarlier (before.flatMap (Piece.substituted env)) p.text

/-! ## Pieces make up the text -/

open Piece

theorem Parameter.text_ne_nil (p : Parameter) : p.text ≠ [] := by
  rw [text]
  split_ifs <;> exact cons_ne_nil _ _

theorem Parameter.trimPrefix_name (p : Parameter) : trimPrefix (str "$") p.name = p.name := by
  obtain ⟨_, name, hword⟩ := p
  rw [trimPrefix, if_neg]
  intro h
  obtain ⟨_, rfl⟩ := isPrefixOf_iff_prefix.1 h
  exact absurd (all_eq_true.1 hword 36 mem_cons_self) (by decide)

variable {p : Parameter}

theorem matchAt_text {s : GoString} (h : matchAt s = some p) : p.text <+: s := by
  unfold matchAt at h
  split at h
  · next s =>
    split_ifs at h with hbraced hplain
    · cases h
      obtain ⟨hopen, -, hclose⟩ := hbraced
      obtain ⟨rest, rfl⟩ := head?_eq_some_iff.1 hopen
      obtain ⟨last, hlast⟩ := head?_eq_some_iff.1 hclose
      have hsplit := takeWhile_append_dropWhile (p := isWord) (l := rest)
      have hname : rest.takeWhile isWord ++ 125 :: last = rest := by rwa [← hlast]
      refine ⟨last, congrArg (36 :: 123 :: ·) ?_⟩
      exact (append_assoc _ _ _).trans hname
    · cases h
      have hname := takeWhile_prefix (l := s) isWord
      exact (prefix_cons_inj 36).2 hname
  · cases h

theorem flatMap_text_piecesFrom : ∀ (n : ℕ) (s : GoString),
    (piecesFrom n s).flatMap text = s.drop n
  | n, [] => by cases n <;> rfl
  | n + 1, _ :: s => flatMap_text_piecesFrom n s
  | 0, b :: s => by
    rw [piecesFrom]
    split
    · next p hp =>
      obtain ⟨_, hrest⟩ := matchAt_text hp
      obtain ⟨c, t, ht⟩ := exists_cons_of_ne_nil p.text_ne_nil
      rw [flatMap_cons, flatMap_text_piecesFrom, text, ht]
      rw [ht] at hrest
      cases hrest
      simp
    · rw [flatMap_cons, flatMap_text_piecesFrom]
      rfl

/-! ## Replacing a match -/

/-- The first occurrence is the one behind `before`. -/
theorem index_eq_length_iff {text : GoString} (hne : text ≠ []) (after : GoString) :
    ∀ before : GoString,
      index text (before ++ (text ++ after)) = some before.length ↔ NotEarlier before text
  | [] => by
    obtain ⟨c, t, rfl⟩ := exists_cons_of_ne_nil hne
    refine iff_of_true ?_ fun i hi => absurd hi (Nat.not_lt_zero i)
    rw [nil_append, cons_append, index, if_pos]
    · rfl
    · exact isPrefixOf_iff_prefix.2 (prefix_append (c :: t) after)
  | b :: before => by
    have hstart : text <+: b :: (before ++ (text ++ after)) ↔ text <+: b :: before ++ text := by
      have hle : text.length ≤ (b :: before ++ text).length := by
        rw [length_append]
        exact Nat.le_add_left _ _
      have heq : b :: (before ++ (text ++ after)) = b :: before ++ text ++ after := by simp
      rw [heq]
      refine ⟨fun h => prefix_of_prefix_length_le h (prefix_append _ after) hle, ?_⟩
      exact fun h => h.trans (prefix_append _ after)
    rw [← isPrefixOf_iff_prefix] at hstart
    rw [cons_append, index]
    split_ifs with hfirst
    · refine iff_of_false (by simp) fun h => ?_
      exact h 0 (Nat.zero_lt_succ _) (hstart.1 hfirst)
    · rw [length_cons, Option.map_eq_some_iff]
      simp only [Nat.add_right_cancel_iff, exists_eq_right, index_eq_length_iff hne after before]
      constructor
      · rintro h (_ | i) hi
        · exact fun hbegin => hfirst (hstart.2 hbegin)
        · exact h i (Nat.lt_of_succ_lt_succ hi)
      · exact fun h i hi => h (i + 1) (Nat.succ_lt_succ hi)

theorem substitute_of_notEarlier {before : GoString}
    (h : (env p.name).isSome → NotEarlier before p.text) (after : GoString) :
    substitute env (before ++ (p.text ++ after)) p =
      before ++ (substituted env (.parameter p) ++ after) := by
  rw [substitute, p.trimPrefix_name, substituted]
  cases hvalue : env p.name with
  | none => rfl
  | some =>
    have hindex := (index_eq_length_iff p.text_ne_nil after before).2 (h (by simp [hvalue]))
    simp [replaceFirst, hindex]

/-- As long as no text occurs earlier, what was replaced is followed by the rest of the text. -/
theorem foldl_substitute_eq (before rest : List Piece)
    (h : ∀ init p tail, before = init ++ .parameter p :: tail → (env p.name).isSome →
      NotEarlier (init.flatMap (substituted env)) p.text) :
    (before.filterMap parameter?).foldl (substitute env)
      ((before ++ rest).flatMap text) =
        before.flatMap (substituted env) ++ rest.flatMap text := by
  induction before using reverseRecOn generalizing rest with
  | nil => rfl
  | append_singleton before piece ih =>
    have ih := ih (piece :: rest) fun init p tail heq =>
      h init p (tail ++ [piece]) (by rw [heq, append_assoc, cons_append])
    rw [filterMap_append, foldl_append, append_assoc, singleton_append, ih,
      flatMap_append, append_assoc]
    cases piece with
    | byte => rfl
    | parameter p =>
      have hstep := substitute_of_notEarlier env (h before p [] rfl) (rest.flatMap text)
      simpa [parameter?, text] using hstep

variable {env} in
/-- Where the matches before are replaced at their own positions, the next one is too if and only
if its text does not occur earlier. -/
theorem index_foldl_iff {contents : GoString} {before after : List Piece}
    (hpieces : pieces contents = before ++ .parameter p :: after)
    (h : ∀ init q tail, before = init ++ .parameter q :: tail → (env q.name).isSome →
      NotEarlier (init.flatMap (substituted env)) q.text) :
    index p.text ((before.filterMap parameter?).foldl (substitute env) contents) =
        some (before.flatMap (substituted env)).length ↔
      NotEarlier (before.flatMap (substituted env)) p.text := by
  have htext : (before ++ .parameter p :: after).flatMap text = contents := by
    rw [← hpieces]
    exact flatMap_text_piecesFrom 0 contents
  rw [← index_eq_length_iff p.text_ne_nil (after.flatMap text), ← htext,
    foldl_substitute_eq env before (.parameter p :: after) h]
  rfl

/-- Every match is replaced where it stands if and only if the text of none occurs earlier, and
then all are replaced at once. -/
theorem substitution_iff_no_earlier (contents : GoString) :
    (AtOwnPositions env contents ↔ NoEarlier env contents) ∧
      (NoEarlier env contents → parseConfig env contents = simultaneous env contents) := by
  refine ⟨⟨fun hown before => ?_, fun hno before p after hpieces hset => ?_⟩, fun hno => ?_⟩
  · -- by induction on the number of pieces before the match
    induction hn : before.length using Nat.strong_induction_on generalizing before with
    | _ n ih =>
      intro p after hpieces hset
      refine (index_foldl_iff hpieces fun init q tail hinit => ?_).1
        (hown before p after hpieces hset)
      refine ih init.length ?_ init rfl q (tail ++ .parameter p :: after) ?_
      · rw [← hn, hinit, length_append, length_cons]
        omega
      · rw [hpieces, hinit, append_assoc, cons_append]
  · refine (index_foldl_iff hpieces fun init q tail hinit hq => ?_).2
      (hno before p after hpieces hset)
    refine hno init q (tail ++ .parameter p :: after) ?_ hq
    rw [hpieces, hinit, append_assoc, cons_append]
  · have heq := foldl_substitute_eq env (pieces (trimBOM contents)) [] hno
    rw [append_nil, pieces, flatMap_text_piecesFrom] at heq
    rw [parseConfig, simultaneous]
    simpa [findAllSubmatch, pieces] using heq

/-- The match `$A` is replaced in `$AB`, which is not set. -/
theorem replaced_in_longer_name :
    let env : GoString → Option GoString :=
      fun name => if name = str "A" then some (str "x") else none
    parseConfig env (str "$AB $A") = str "xB $A" ∧
      simultaneous env (str "$AB $A") = str "$AB x" := by
  decide

end Telegraf.Config
