import Telegraf.Replacer

/-!
# Quoting in SQL texts

A text is read from left to right into tokens. Of a quoted token, an identifier in double
quotes or a literal in single quotes, only the kind is kept, every other byte is a token of its
own. Inside quotes a doubled quote stands for the quote itself.

Two texts are `Alike` if they read to the same tokens wherever a token can begin : quoted names
are alike whatever the names are (`alike_quote`), and templates whose holes are outside quotes
stay alike when they are filled with alike texts (`tokens_fill`).
-/

open List

namespace SqlText

/-- The two kinds of quotes. -/
inductive Kind where
  | ident
  | literal
deriving Repr, DecidableEq

/-- The byte that opens and closes a quoted token. -/
def Kind.byte : Kind → UInt8
  | .ident => 34
  | .literal => 39

/-- A text in quotes, with the quotes inside it doubled. -/
def double (k : Kind) (s : List UInt8) : List UInt8 :=
  s.flatMap fun b => if b = k.byte then [b, b] else [b]

def quote (k : Kind) (s : List UInt8) : List UInt8 :=
  k.byte :: (double k s ++ [k.byte])

/-- Doubling quotes as a replacement. -/
theorem replace_byte (k : Kind) (s : List UInt8) :
    Replacer.replace [([k.byte], [k.byte, k.byte])] s = double k s := by
  have hone : ∀ e ∈ [([k.byte], [k.byte, k.byte])], e.1.length = 1 := by
    intro e he
    obtain rfl := mem_singleton.1 he
    rfl
  rw [Replacer.replace_eq_flatMap_of_length_eq_one hone, double]
  refine flatMap_congr fun b _ => ?_
  by_cases hb : b = k.byte
  · simp [Replacer.matchAt, hb]
  · have hb' : ¬k.byte = b := fun h => hb h.symm
    simp [Replacer.matchAt, hb, hb']

/-- Where the reader is : outside quotes, inside, or behind a quote that may close them. -/
inductive Mode where
  | ground
  | inside (k : Kind)
  | behind (k : Kind)
deriving Repr, DecidableEq

/-- A token without the contents of quotes. -/
inductive Token where
  | quoted (k : Kind)
  | byte (b : UInt8)
deriving Repr, DecidableEq

/-- A byte outside quotes. -/
def groundStep (b : UInt8) : List Token × Mode :=
  if b = Kind.ident.byte then ([.quoted .ident], .inside .ident)
  else if b = Kind.literal.byte then ([.quoted .literal], .inside .literal)
  else ([.byte b], .ground)

def Mode.step : Mode → UInt8 → List Token × Mode
  | .ground, b => groundStep b
  | .inside k, b => ([], if b = k.byte then .behind k else .inside k)
  | .behind k, b => if b = k.byte then ([], .inside k) else groundStep b

def tokens : Mode → List UInt8 → List Token
  | _, [] => []
  | m, b :: s => (m.step b).1 ++ tokens (m.step b).2 s

def modeAfter : Mode → List UInt8 → Mode
  | m, [] => m
  | m, b :: s => modeAfter (m.step b).2 s

/-- A token can begin here. -/
def Mode.Outside (m : Mode) : Prop :=
  ∀ k, m ≠ .inside k

theorem tokens_append (m : Mode) (s t : List UInt8) :
    tokens m (s ++ t) = tokens m s ++ tokens (modeAfter m s) t := by
  induction s generalizing m with
  | nil => rfl
  | cons b s ih => simp [tokens, modeAfter, ih]

theorem modeAfter_append (m : Mode) (s t : List UInt8) :
    modeAfter m (s ++ t) = modeAfter (modeAfter m s) t := by
  induction s generalizing m with
  | nil => rfl
  | cons b s ih => simp [modeAfter, ih]

/-- Doubled quotes do not end a quoted token. -/
theorem inside_double (k : Kind) (s : List UInt8) :
    tokens (.inside k) (double k s) = [] ∧ modeAfter (.inside k) (double k s) = .inside k := by
  induction s with
  | nil => exact ⟨rfl, rfl⟩
  | cons b s ih =>
    rw [double, flatMap_cons, ← double, tokens_append, modeAfter_append]
    split_ifs with hb
    · simp [hb, tokens, modeAfter, Mode.step, ih]
    · simp [hb, tokens, modeAfter, Mode.step, ih]

theorem groundStep_byte (k : Kind) : groundStep k.byte = ([.quoted k], .inside k) := by
  cases k <;> rfl

variable {m : Mode}

/-- The opening quote, read where a token can begin. -/
theorem Mode.Outside.step_byte (hm : m.Outside) (k : Kind) :
    m.step k.byte = (if m = .behind k then [] else [.quoted k], .inside k) := by
  cases m with
  | ground => simp [Mode.step, groundStep_byte]
  | inside k' => exact absurd rfl (hm k')
  | behind k' =>
    by_cases hk : k = k'
    · simp [Mode.step, hk]
    · have hbyte : k.byte ≠ k'.byte := by
        cases k <;> cases k' <;> simp_all [Kind.byte]
      have hkk : k' ≠ k := fun h => hk h.symm
      simp [Mode.step, hbyte, groundStep_byte, hkk]

/-- How a quoted text is read does not depend on the text. -/
theorem tokens_quote (hm : m.Outside) (k : Kind) (s : List UInt8) :
    tokens m (quote k s) = (if m = .behind k then [] else [.quoted k]) ∧
      modeAfter m (quote k s) = .behind k := by
  rw [quote, tokens, modeAfter, hm.step_byte k, tokens_append, modeAfter_append,
    (inside_double k s).1, (inside_double k s).2]
  simp [tokens, modeAfter, Mode.step]

/-! ## Texts inside quoted texts -/

section Infix

variable {p : List UInt8} {k : Kind} {q : UInt8}

theorem eq_nil_of_prefix_cons (hq : q ∉ p) {t : List UInt8} (h : p <+: q :: t) : p = [] := by
  cases p with
  | nil => rfl
  | cons =>
    rw [cons_prefix_cons] at h
    exact absurd (h.1 ▸ mem_cons_self) hq

/-- A text without quotes at the beginning of a doubled one stands in the original too. -/
theorem prefix_of_prefix_double (hp : k.byte ∉ p) :
    ∀ {s : List UInt8}, p <+: double k s → p <+: s := by
  induction p with
  | nil => exact fun _ => nil_prefix
  | cons c p ih =>
    intro s h
    cases s with
    | nil => simp [double] at h
    | cons =>
      rw [double, flatMap_cons, ← double] at h
      split_ifs at h with hb
      · cases eq_nil_of_prefix_cons (hb ▸ hp) h
      · rw [singleton_append, cons_prefix_cons] at h
        exact cons_prefix_cons.2 ⟨h.1, ih (fun hmem => hp (mem_cons_of_mem _ hmem)) h.2⟩

variable {s : List UInt8}

theorem infix_of_infix_double (hp : k.byte ∉ p) (h : p <:+: double k s) : p <:+: s := by
  induction s with
  | nil => exact h
  | cons b s ih =>
    rw [double, flatMap_cons, ← double] at h
    split_ifs at h with hb
    · rw [cons_append, singleton_append, infix_cons_iff, infix_cons_iff] at h
      -- the pattern cannot begin at one of the two quotes
      rcases h with hpre | hpre | hinf
      · simp [eq_nil_of_prefix_cons (hb ▸ hp) hpre]
      · simp [eq_nil_of_prefix_cons (hb ▸ hp) hpre]
      · exact (ih hinf).trans (suffix_cons b s).isInfix
    · rw [singleton_append, infix_cons_iff] at h
      rcases h with hpre | hinf
      · refine infix_cons_iff.2 (.inl (prefix_of_prefix_double hp ?_))
        rwa [double, flatMap_cons, if_neg hb]
      · exact (ih hinf).trans (suffix_cons b s).isInfix

/-- A text without `q` that stands in one with a `q` in it stands on one side of it. -/
theorem infix_append_cons (hq : q ∉ p) {s t : List UInt8} (h : p <:+: s ++ q :: t) :
    p <:+: s ∨ p <:+: t := by
  rcases infix_append_iff.1 h with h | h | ⟨_, p₂, rfl, hsuff, hpre⟩
  · exact .inl h
  · rcases infix_cons_iff.1 h with hpre | h
    · exact .inl (by simp [eq_nil_of_prefix_cons hq hpre])
    · exact .inr h
  · have hp₂ : p₂ = [] := eq_nil_of_prefix_cons (fun hmem => hq (mem_append_right _ hmem)) hpre
    exact .inl (by simpa [hp₂] using hsuff.isInfix)

theorem not_infix_append_quote (hk : k.byte ∉ p) {x s t : List UInt8} (hx : ¬p <:+: x)
    (hs : ¬p <:+: s) (ht : ¬p <:+: t) : ¬p <:+: x ++ quote k s ++ t := by
  intro h
  rw [quote, append_assoc, cons_append, append_assoc, singleton_append] at h
  rcases infix_append_cons hk h with h | h
  · exact hx h
  · rcases infix_append_cons hk h with h | h
    · exact hs (infix_of_infix_double hk h)
    · exact ht h

/-- A text in quotes is inert for a pattern without quotes that the text does not contain. -/
theorem inert_quote (hk : k.byte ∉ p) (hs : ¬p <:+: s) : Replacer.Inert p (quote k s) where
  notContained := by
    have hnil : ¬p <:+: [] := fun h => hs (h.trans nil_infix)
    simpa using not_infix_append_quote hk hnil hs hnil
  head := ⟨_, _, rfl, hk⟩
  last := ⟨k.byte, k.byte :: double k s, rfl, fun h => hk (mem_of_mem_dropLast h)⟩

end Infix

theorem length_lt_length_quote (k : Kind) (s : List UInt8) : s.length < (quote k s).length := by
  have hdouble : s.length ≤ (double k s).length := by
    induction s with
    | nil => exact Nat.le_refl 0
    | cons =>
      rw [double, flatMap_cons, ← double, length_append, length_cons]
      split_ifs <;> simp <;> omega
  simp only [quote, length_cons, length_append, length_nil]
  omega

/-! ## Texts that read alike -/

/-- The texts read to the same tokens wherever a token can begin, and end where one can. -/
def Alike (s t : List UInt8) : Prop :=
  ∀ m : Mode, m.Outside → tokens m s = tokens m t ∧ modeAfter m s = modeAfter m t ∧
    (modeAfter m s).Outside

/-- No quoted token is open at the end of the text. -/
def Closed (s : List UInt8) : Prop :=
  ∀ m : Mode, m.Outside → (modeAfter m s).Outside

theorem Closed.alike {s : List UInt8} (h : Closed s) : Alike s s :=
  fun m hm => ⟨rfl, rfl, h m hm⟩

theorem closed_of_all {s : List UInt8} (h : (s.all fun b => b != 34 && b != 39) = true) :
    Closed s := by
  intro m hm
  induction s generalizing m with
  | nil => exact hm
  | cons b s ih =>
    simp only [all_cons, Bool.and_eq_true, bne_iff_ne] at h
    obtain ⟨⟨hident, hliteral⟩, hs⟩ := h
    refine ih hs _ ?_
    have hground : groundStep b = ([.byte b], .ground) := by
      simp [groundStep, Kind.byte, hident, hliteral]
    cases m with
    | ground => simp [Mode.step, hground, Mode.Outside]
    | inside k => exact absurd rfl (hm k)
    | behind k =>
      have hbyte : b ≠ k.byte := by cases k <;> assumption
      simp [Mode.step, hbyte, hground, Mode.Outside]

theorem alike_quote (k : Kind) (s t : List UInt8) : Alike (quote k s) (quote k t) := by
  intro m hm
  obtain ⟨hs, hs'⟩ := tokens_quote hm k s
  obtain ⟨ht, ht'⟩ := tokens_quote hm k t
  exact ⟨hs.trans ht.symm, hs'.trans ht'.symm, by simp [hs', Mode.Outside]⟩

theorem Alike.append {s s' t t' : List UInt8} (hs : Alike s s') (ht : Alike t t') :
    Alike (s ++ t) (s' ++ t') := by
  intro m hm
  obtain ⟨htok, hmode, hout⟩ := hs m hm
  obtain ⟨htok', hmode', _⟩ := ht _ hout
  refine ⟨?_, ?_, by rwa [modeAfter_append]⟩
  · rw [tokens_append, tokens_append, htok, htok', hmode]
  · rw [modeAfter_append, modeAfter_append, hmode', hmode]

theorem alike_nil : Alike [] [] :=
  fun _ hm => ⟨rfl, rfl, hm⟩

theorem alike_intercalate {sep : List UInt8} (hsep : Closed sep) {ss ts : List (List UInt8)}
    (h : List.Forall₂ Alike ss ts) : Alike (sep.intercalate ss) (sep.intercalate ts) := by
  induction h with
  | nil => exact alike_nil
  | @cons s t ss ts hst hrest ih =>
    cases hrest with
    | nil => simpa using hst
    | cons =>
      rw [intercalate_cons_cons, intercalate_cons_cons]
      exact (hst.append hsep.alike).append ih

/-! ## Templates -/

open Replacer

/-- The holes of a template are where a token can begin, however the earlier ones are filled. -/
def HolesOutside : Mode → List (Piece UInt8) → Prop
  | _, [] => True
  | m, .text b :: ps => HolesOutside (m.step b).2 ps
  | m, .hole _ :: ps => m.Outside ∧ ∀ m' : Mode, m'.Outside → HolesOutside m' ps

/-- A template filled with alike texts reads to the same tokens. -/
theorem tokens_fill {vs ws : List (List UInt8)} (h : ∀ i, Alike (vs.getD i []) (ws.getD i [])) :
    ∀ {ps : List (Piece UInt8)} {m : Mode}, HolesOutside m ps →
      tokens m (ps.flatMap (Piece.fill vs)) = tokens m (ps.flatMap (Piece.fill ws))
  | [], _, _ => rfl
  | .text b :: ps, m, hps => by
    rw [HolesOutside] at hps
    rw [flatMap_cons, flatMap_cons, Piece.fill, Piece.fill, singleton_append,
      singleton_append, tokens, tokens, tokens_fill h hps]
  | .hole i :: ps, m, hps => by
    rw [HolesOutside] at hps
    obtain ⟨htok, hmode, hout⟩ := h i m hps.1
    rw [flatMap_cons, flatMap_cons, Piece.fill, Piece.fill, tokens_append,
      tokens_append, htok, ← hmode, tokens_fill h (hps.2 _ hout)]

end SqlText
