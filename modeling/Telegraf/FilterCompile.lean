import Telegraf.Delimited
import Telegraf.Filter

/-!
# Compiling filters

`Compile` of `filter/filter.go`, which makes one filter of a list of strings. The glob library
is a parameter : its `Compile` gives the match function of a pattern.

Two or more strings with a glob character among them are joined into one brace pattern, where
a comma, a brace or a backslash in one of them is read differently than alone. So the filter
of a list is the disjunction of its elements for the lists that are `BraceSafe`.
-/

open List

namespace Telegraf

/-- `glob.Compile`. -/
abbrev GlobCompile := GoString → Except GoString (GoString → Bool)

namespace FilterList

/-- `strings.IndexAny` finds one of the characters. -/
def containsAny (chars : String) (s : GoString) : Bool :=
  s.any fun c => (str chars).contains c

/-- `hasMeta`. -/
def hasMeta (s : GoString) : Bool :=
  containsAny "*?[" s

/-- `compileFilterNoGlob`, for a list that is not empty. -/
def compileFilterNoGlob : List GoString → GoString → Bool
  | [f], s => f == s
  | filters, s => filters.contains s

/-- The pattern of several filters. -/
def braces (filters : List GoString) : GoString :=
  str "\x7b" ++ (str ",").intercalate filters ++ str "\x7d"

/-- `filter.Compile`. -/
def compile (glob : GlobCompile) (filters : List GoString) :
    Except GoString (Option (GoString → Bool)) :=
  if filters.length = 0 then .ok none
  else if !filters.any hasMeta then .ok (some (compileFilterNoGlob filters))
  else
    match filters with
    | [f] => (glob f).map some
    | _ => (glob (braces filters)).map some

/-- The filter of the list matches the string. -/
def Matches (glob : GlobCompile) (filters : List GoString) (s : GoString) : Prop :=
  ∃ p, compile glob filters = .ok (some p) ∧ p s = true

variable {glob : GlobCompile}

instance (filters : List GoString) (s : GoString) : Decidable (Matches glob filters s) :=
  match h : compile glob filters with
  | .ok (some p) => decidable_of_iff (p s = true) (by simp [Matches, h])
  | .ok none => isFalse (by simp [Matches, h])
  | .error _ => isFalse (by simp [Matches, h])

variable {filters : List GoString}

/-- Only the empty list has no filter. -/
theorem compile_eq_none (h : compile glob filters = .ok none) : filters = [] := by
  unfold compile at h
  split_ifs at h with hlen
  · exact length_eq_zero_iff.1 hlen
  · cases h
  · have hmap : ∀ p, (glob p).map some ≠ .ok none := by
      intro p
      cases glob p <;> simp [Except.map]
    split at h <;> exact absurd h (hmap _)

theorem matches_of_compile {p : GoString → Bool} (h : compile glob filters = .ok (some p))
    (s : GoString) : Matches glob filters s ↔ p s = true := by
  simp [Matches, h]

variable {s : GoString}

theorem containsAny_eq_false {chars : String} :
    containsAny chars s = false ↔ ∀ c ∈ str chars, c ∉ s := by
  simp only [containsAny, any_eq_false, contains_iff_mem]
  exact ⟨fun h c hc hs => h c hs hc, fun h c hs hc => h c hc hs⟩

/-- A text without the characters of two lists has none of a list that they cover. -/
theorem containsAny_eq_false_of_cover {chars chars₁ chars₂ : String}
    (h₁ : containsAny chars₁ s = false) (h₂ : containsAny chars₂ s = false)
    (hcover : (str chars).all (str chars₁ ++ str chars₂).contains = true) :
    containsAny chars s = false := by
  refine containsAny_eq_false.2 fun c hc => ?_
  have hmem : c ∈ str chars₁ ++ str chars₂ := contains_iff_mem.1 (all_eq_true.1 hcover c hc)
  rcases mem_append.1 hmem with hc | hc
  · exact containsAny_eq_false.1 h₁ c hc
  · exact containsAny_eq_false.1 h₂ c hc

variable {f : GoString}

theorem matches_singleton_of_not_hasMeta (h : hasMeta f = false) (s : GoString) :
    Matches glob [f] s ↔ f = s := by
  have hcompile : compile glob [f] = .ok (some (compileFilterNoGlob [f])) := by
    simp [compile, h]
  simp [Matches, hcompile, compileFilterNoGlob]

theorem matches_singleton_of_hasMeta (h : hasMeta f = true) (s : GoString) :
    Matches glob [f] s ↔ ∃ p, glob f = .ok p ∧ p s = true := by
  have hcompile : compile glob [f] = (glob f).map some := by
    simp [compile, h]
  rw [Matches, hcompile]
  cases glob f <;> simp [Except.map]

/-! ## The joined pattern -/

/-- The documented syntax of the glob library, as far as it is used here. -/
structure GlobSyntax (glob : GlobCompile) : Prop where
  /-- Characters and wildcards are a pattern. -/
  compiles : ∀ p, containsAny "\x7b\x7d[\\" p = false → ∃ m, glob p = .ok m
  /-- A character matches itself. -/
  literal : ∀ p m, containsAny "*?\x7b\x7d[\\" p = false → glob p = .ok m →
    ∀ s, m s = true ↔ p = s
  /-- Braces match what one of the patterns between the commas matches. -/
  alternatives : ∀ ps, ps ≠ [] →
    (∀ p ∈ ps, containsAny ",\x7b\x7d\\" p = false ∧ ∃ m, glob p = .ok m) →
    ∃ m, glob (braces ps) = .ok m ∧
      ∀ s, m s = true ↔ ∃ p ∈ ps, ∃ n, glob p = .ok n ∧ n s = true

/-- What stands between the commas of the joined list. -/
def alternatives (filters : List GoString) : List GoString :=
  filters.flatMap (List.splitOn 44)

/-- Cutting the strings at their commas does not change the joined pattern. -/
theorem braces_alternatives (h : filters ≠ []) :
    braces (alternatives filters) = braces filters := by
  rw [braces, show str "," = [44] by decide, alternatives, Delimited.intercalate_flatMap_splitOn h,
    braces, show str "," = [44] by decide]

theorem compile_of_joined (hlen : 1 < filters.length) (hmeta : ∃ f ∈ filters, hasMeta f = true) :
    compile glob filters = (glob (braces filters)).map some := by
  have hany : filters.any hasMeta = true := any_eq_true.2 hmeta
  match filters, hlen with
  | f :: g :: filters, _ => simp [compile, hany]

/-- Alone, a string without braces and backslashes is its own pattern also where `Compile` does
not ask the library. -/
theorem matches_singleton (hglob : GlobSyntax glob) (hf : containsAny "\x7b\x7d\\" f = false)
    (s : GoString) : Matches glob [f] s ↔ ∃ p, glob f = .ok p ∧ p s = true := by
  cases hmeta : hasMeta f with
  | true => exact matches_singleton_of_hasMeta hmeta s
  | false =>
    have hlit : containsAny "*?\x7b\x7d[\\" f = false :=
      containsAny_eq_false_of_cover hmeta hf (by decide)
    obtain ⟨p, hp⟩ := hglob.compiles f (containsAny_eq_false_of_cover hlit hlit (by decide))
    rw [matches_singleton_of_not_hasMeta hmeta, ← hglob.literal f p hlit hp]
    simp [hp]

/-- The joined list is the disjunction of what stands between its commas. -/
theorem matches_joined (hglob : GlobSyntax glob)
    (hlen : 1 < filters.length) (hmeta : ∃ f ∈ filters, hasMeta f = true)
    (halone : ∀ p ∈ alternatives filters,
      containsAny ",\x7b\x7d\\" p = false ∧ ∃ m, glob p = .ok m) :
    (∃ p, compile glob filters = .ok (some p)) ∧
      ∀ s, Matches glob filters s ↔ ∃ p ∈ alternatives filters, Matches glob [p] s := by
  have hne : filters ≠ [] := ne_nil_of_length_pos (Nat.zero_lt_of_lt hlen)
  have halt : alternatives filters ≠ [] := by
    obtain ⟨f, hf, -⟩ := hmeta
    simp only [alternatives, ne_eq, flatMap_eq_nil_iff, not_forall]
    exact ⟨f, hf, splitOn_ne_nil 44 f⟩
  obtain ⟨m, hm, hmatch⟩ := hglob.alternatives (alternatives filters) halt halone
  have hcompile : compile glob filters = .ok (some m) := by
    rw [compile_of_joined hlen hmeta, ← braces_alternatives hne, hm]
    rfl
  refine ⟨⟨m, hcompile⟩, fun s => ?_⟩
  have hiff : Matches glob filters s ↔ m s = true := by
    simp [Matches, hcompile]
  rw [hiff, hmatch]
  refine exists_congr fun p => and_congr_right fun hp => ?_
  have hfree : containsAny "\x7b\x7d\\" p = false :=
    containsAny_eq_false_of_cover (halone p hp).1 (halone p hp).1 (by decide)
  exact (matches_singleton hglob hfree s).symm

/-! ## The disjunction of the elements -/

/-- The list compiles, and matches what one of its elements matches alone. -/
def Disjunctive (glob : GlobCompile) (filters : List GoString) : Prop :=
  (∃ p, compile glob filters = .ok (some p)) ∧
    ∀ s, Matches glob filters s ↔ ∃ f ∈ filters, Matches glob [f] s

/-- The list is not joined, or its elements have nothing that is read differently when joined,
or they have only commas and the parts between the commas match the same strings. -/
def BraceSafe (glob : GlobCompile) (filters : List GoString) : Prop :=
  filters.length = 1 ∨ (∀ f ∈ filters, hasMeta f = false) ∨
    (∀ f ∈ filters, containsAny ",\x7b\x7d\\" f = false) ∨
      (∀ f ∈ filters, containsAny "\x7b\x7d[\\" f = false) ∧
        ∀ s, (∃ p ∈ alternatives filters, Matches glob [p] s) ↔ ∃ f ∈ filters, Matches glob [f] s

theorem disjunctive_singleton (h : ∃ p, compile glob [f] = .ok (some p)) : Disjunctive glob [f] :=
  ⟨h, fun s => by simp⟩

theorem disjunctive_of_not_hasMeta (hne : filters ≠ [])
    (h : ∀ f ∈ filters, hasMeta f = false) : Disjunctive glob filters := by
  have hcompile : compile glob filters = .ok (some (compileFilterNoGlob filters)) := by
    have hany : filters.any hasMeta = false := by simpa using h
    simp [compile, hne, hany]
  refine ⟨⟨_, hcompile⟩, fun s => ?_⟩
  have hmem : Matches glob filters s ↔ s ∈ filters := by
    rw [Matches, hcompile]
    match filters, hne with
    | [f], _ => simpa [compileFilterNoGlob] using eq_comm
    | f :: g :: filters, _ => simp [compileFilterNoGlob]
  rw [hmem]
  constructor
  · intro hs
    exact ⟨s, hs, (matches_singleton_of_not_hasMeta (h s hs) s).2 rfl⟩
  · rintro ⟨f, hf, hmatch⟩
    rwa [← (matches_singleton_of_not_hasMeta (h f hf) s).1 hmatch]

/-- An element that compiles alone is a pattern of the library. -/
theorem glob_of_compile (hglob : GlobSyntax glob) (hf : containsAny ",\x7b\x7d\\" f = false)
    (h : ∃ p, compile glob [f] = .ok (some p)) : ∃ m, glob f = .ok m := by
  cases hmeta : hasMeta f with
  | true =>
    obtain ⟨p, hp⟩ := h
    have hcompile : compile glob [f] = (glob f).map some := by
      simp [compile, hmeta]
    rw [hcompile] at hp
    cases hok : glob f with
    | ok m => exact ⟨m, rfl⟩
    | error => simp [hok, Except.map] at hp
  | false => exact hglob.compiles f (containsAny_eq_false_of_cover hmeta hf (by decide))

variable {p : GoString}

/-- The parts between the commas are patterns if the elements have no braces, brackets and
backslashes. -/
theorem glob_of_mem_alternatives (hglob : GlobSyntax glob)
    (h : ∀ f ∈ filters, containsAny "\x7b\x7d[\\" f = false)
    (hp : p ∈ alternatives filters) :
    containsAny ",\x7b\x7d\\" p = false ∧ ∃ m, glob p = .ok m := by
  obtain ⟨f, hf, hpf⟩ := mem_flatMap.1 hp
  obtain ⟨hcomma, hsub⟩ := Delimited.mem_splitOn hpf
  have hplain : containsAny "\x7b\x7d[\\" p = false :=
    containsAny_eq_false.2 fun c hc hmem => containsAny_eq_false.1 (h f hf) c hc (hsub c hmem)
  have hno : containsAny "," p = false := by
    rw [containsAny_eq_false, show str "," = [44] by decide, forall_mem_singleton]
    exact hcomma
  exact ⟨containsAny_eq_false_of_cover hno hplain (by decide), hglob.compiles p hplain⟩

theorem alone_or_joined (hne : filters ≠ []) :
    filters.length = 1 ∨ (∀ f ∈ filters, hasMeta f = false) ∨
      1 < filters.length ∧ ∃ f ∈ filters, hasMeta f = true := by
  by_cases hmeta : ∀ f ∈ filters, hasMeta f = false
  · exact .inr (.inl hmeta)
  · rcases Nat.eq_or_lt_of_le (Nat.succ_le_of_lt (length_pos_iff.2 hne)) with hlen | hlen
    · exact .inl hlen.symm
    · exact .inr (.inr ⟨hlen, by simpa using hmeta⟩)

/-- A list of strings that compile alone compiles to their disjunction if it is `BraceSafe`,
and without braces, brackets and backslashes only then. -/
theorem compile_disjunctive (hglob : GlobSyntax glob) {filters : List GoString}
    (hne : filters ≠ []) (halone : ∀ f ∈ filters, ∃ p, compile glob [f] = .ok (some p)) :
    (BraceSafe glob filters → Disjunctive glob filters) ∧
      ((∀ f ∈ filters, containsAny "\x7b\x7d[\\" f = false) →
        (Disjunctive glob filters ↔ BraceSafe glob filters)) := by
  have hsafe : BraceSafe glob filters → Disjunctive glob filters := by
    intro hsafe
    rcases alone_or_joined hne with hlen | hmeta | ⟨hlen, hmeta⟩
    · obtain ⟨f, rfl⟩ := length_eq_one_iff.1 hlen
      exact disjunctive_singleton (halone f (mem_singleton_self f))
    · exact disjunctive_of_not_hasMeta hne hmeta
    · rcases hsafe with _ | hno | hfree | ⟨hplain, hsame⟩
      · omega
      · exact disjunctive_of_not_hasMeta hne hno
      · have hself : alternatives filters = filters := Delimited.flatMap_splitOn_eq_self fun f hf =>
          containsAny_eq_false.1 (hfree f hf) 44 (by decide)
        have hjoined := matches_joined hglob hlen hmeta (by
          rw [hself]
          exact fun f hf => ⟨hfree f hf, glob_of_compile hglob (hfree f hf) (halone f hf)⟩)
        rwa [hself] at hjoined
      · obtain ⟨hok, hmatch⟩ := matches_joined hglob hlen hmeta fun p hp =>
          glob_of_mem_alternatives hglob hplain hp
        exact ⟨hok, fun s => (hmatch s).trans (hsame s)⟩
  refine ⟨hsafe, fun hplain => ⟨fun hdisj => ?_, hsafe⟩⟩
  rcases alone_or_joined hne with hlen | hmeta | ⟨hlen, hmeta⟩
  · exact .inl hlen
  · exact .inr (.inl hmeta)
  · have hmatch := (matches_joined hglob hlen hmeta fun p hp =>
      glob_of_mem_alternatives hglob hplain hp).2
    exact .inr (.inr (.inr ⟨hplain, fun s => (hmatch s).symm.trans (hdisj.2 s)⟩))

/-! ## A mixed list -/

/-- Matching of characters, `?` and `*`. -/
def wildcardMatch : GoString → GoString → Bool
  | [], s => s.isEmpty
  | c :: p, s =>
    if c = 42 then s.tails.any (wildcardMatch p)
    else match s with
      | [] => false
      | d :: s => (c == 63 || c == d) && wildcardMatch p s

/-- The part of the library without brackets, escapes and nested braces. -/
def wildcards : GlobCompile := fun p =>
  if containsAny "\x7b\x7d[\\" p = false then .ok (wildcardMatch p)
  else
    let inner := p.tail.dropLast
    if p = str "\x7b" ++ inner ++ str "\x7d" ∧ containsAny "\x7b\x7d[\\" inner = false then
      .ok fun s => (inner.splitOn 44).any fun q => wildcardMatch q s
    else .error (str "unsupported pattern")

theorem wildcardMatch_literal : ∀ {p : GoString}, containsAny "*?\x7b\x7d[\\" p = false →
    ∀ s, wildcardMatch p s = true ↔ p = s
  | [], _, s => by simp [wildcardMatch]
  | c :: p, h, s => by
    rw [containsAny_eq_false] at h
    have hp : containsAny "*?\x7b\x7d[\\" p = false :=
      containsAny_eq_false.2 fun d hd hmem => h d hd (mem_cons_of_mem c hmem)
    have hstar : c ≠ 42 := fun hc => h c (hc ▸ by decide) mem_cons_self
    have hquest : c ≠ 63 := fun hc => h c (hc ▸ by decide) mem_cons_self
    cases s with
    | nil => simp [wildcardMatch, hstar]
    | cons d s => simp [wildcardMatch, hstar, hquest, wildcardMatch_literal hp s]

theorem wildcards_of_plain (h : containsAny "\x7b\x7d[\\" p = false) :
    wildcards p = .ok (wildcardMatch p) := by
  rw [wildcards, if_pos h]

theorem wildcards_braces {ps : List GoString} (h : ∀ p ∈ ps, containsAny "\x7b\x7d[\\" p = false) :
    wildcards (braces ps) =
      .ok fun s => (((str ",").intercalate ps).splitOn 44).any fun q => wildcardMatch q s := by
  have hinner : (braces ps).tail.dropLast = (str ",").intercalate ps := by
    rw [braces, show str "\x7b" = [123] by decide, show str "\x7d" = [125] by decide]
    simp
  have hopen : ¬containsAny "\x7b\x7d[\\" (braces ps) = false := by
    rw [containsAny_eq_false]
    refine fun hno => hno 123 (by decide) ?_
    rw [braces, show str "\x7b" = [123] by decide]
    simp
  have hplain : containsAny "\x7b\x7d[\\" ((str ",").intercalate ps) = false := by
    rw [containsAny_eq_false]
    intro c hc hmem
    rw [show str "," = [44] by decide] at hmem
    rcases Delimited.mem_intercalate hmem with rfl | ⟨p, hp, hcp⟩
    · revert hc
      decide
    · exact containsAny_eq_false.1 (h p hp) c hc hcp
  rw [wildcards, if_neg hopen]
  simp only [hinner]
  rw [if_pos ⟨rfl, hplain⟩]

theorem globSyntax_wildcards : GlobSyntax wildcards where
  compiles p hp := ⟨_, wildcards_of_plain hp⟩
  literal p m hp hm s := by
    have hplain : containsAny "\x7b\x7d[\\" p = false :=
      containsAny_eq_false_of_cover hp hp (by decide)
    rw [wildcards_of_plain hplain, Except.ok.injEq] at hm
    rw [← hm]
    exact wildcardMatch_literal hp s
  alternatives ps hne hps := by
    have hplain : ∀ p ∈ ps, containsAny "\x7b\x7d[\\" p = false := by
      intro p hp
      obtain ⟨hfree, m, hm⟩ := hps p hp
      by_contra hspecial
      rw [wildcards, if_neg hspecial] at hm
      have hbrace : p ≠ str "\x7b" ++ p.tail.dropLast ++ str "\x7d" := by
        intro heq
        refine containsAny_eq_false.1 hfree 123 (by decide) ?_
        rw [heq, show str "\x7b" = [123] by decide]
        simp
      simp only [hbrace, false_and, if_false] at hm
      cases hm
    have hcomma : ∀ p ∈ ps, 44 ∉ p := fun p hp =>
      containsAny_eq_false.1 (hps p hp).1 44 (by decide)
    refine ⟨_, wildcards_braces hplain, fun s => ?_⟩
    rw [show str "," = [44] by decide, splitOn_intercalate 44 hcomma hne, any_eq_true]
    refine exists_congr fun p => and_congr_right fun hp => ?_
    simp [wildcards_of_plain (hplain p hp)]

/-- The list of a string with a comma and a glob matches a part of the string. -/
theorem compile_comma_and_glob :
    GlobSyntax wildcards ∧
      (∀ f ∈ [str "a,b", str "c*"], ∃ p, compile wildcards [f] = .ok (some p)) ∧
      Matches wildcards [str "a,b", str "c*"] (str "a") ∧
      ¬(∃ f ∈ [str "a,b", str "c*"], Matches wildcards [f] (str "a")) ∧
      ¬Disjunctive wildcards [str "a,b", str "c*"] := by
  refine ⟨globSyntax_wildcards, ?_, by decide, by decide, fun h =>
    absurd ((h.2 (str "a")).1 (by decide)) (by decide)⟩
  intro f hf
  rcases mem_cons.1 hf with rfl | hf
  · exact ⟨_, rfl⟩
  · rw [mem_singleton.1 hf]
    exact ⟨_, rfl⟩

/-- The list of the documentation of `Compile`. -/
theorem compile_disjunctive_documented :
    BraceSafe wildcards [str "cpu", str "mem", str "net*"] ∧
      Disjunctive wildcards [str "cpu", str "mem", str "net*"] := by
  refine (and_iff_left_of_imp (compile_disjunctive globSyntax_wildcards (by decide) ?_).1).2
    (.inr (.inr (.inl (by decide))))
  intro f hf
  rcases mem_cons.1 hf with rfl | hf
  · exact ⟨_, rfl⟩
  · rcases mem_cons.1 hf with rfl | hf
    · exact ⟨_, rfl⟩
    · rw [mem_singleton.1 hf]
      exact ⟨_, rfl⟩

end FilterList

end Telegraf
