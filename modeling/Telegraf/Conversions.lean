import Telegraf.Decimals
import Telegraf.InfluxHandler

/-!
# Conversions of values

`toInteger`, `toUnsigned` and `toBool` of the converter. Finite floats are the rationals they are,
and a conversion of a float outside the range of the integers may give any of them. The guards
compare with `2 ^ 63` and `2 ^ 64`, to which the largest integers are rounded, so these are
converted as well. A string of digits that begins with zero is read as octal, other strings are
read as the nearest `float64`, and no number is equal to the untyped constant zero.
`conversions_exact_iff` says for which inputs the results are the rounded and clamped numbers.
-/

namespace Telegraf.Converter

open Decimals Influx

/-! ## Floats -/

/-- `math.Round` : half is rounded away from zero. -/
def round (q : ℚ) : ℤ :=
  if q < 0 then -⌊-q + 1 / 2⌋ else ⌊q + 1 / 2⌋

/-- The conversion of floats without fraction to integers of a type, which are those between `lo`
and `hi`. It is not specified for the others. -/
structure FloatConv (lo hi : ℤ) where
  conv : ℚ → ℤ
  mem : ∀ q, lo ≤ conv q ∧ conv q ≤ hi
  eq : ∀ z : ℤ, lo ≤ z → z ≤ hi → conv z = z

def minInt64 : ℤ := -2 ^ 63

def maxInt64 : ℤ := 2 ^ 63 - 1

def maxUint64 : ℤ := 2 ^ 64 - 1

/-- `strconv.ParseInt` and `strconv.ParseUint` with base 0, and `strconv.ParseFloat`, where they
return no error. -/
structure Strconv where
  parseInt : GoString → Option ℤ
  parseUint : GoString → Option ℤ
  parseFloat : GoString → Option ℚ

/-! ## Conversions -/

section

variable {lo hi : ℤ} (fc : FloatConv lo hi)

/-- The case of floats in `toInteger` and `toUnsigned`. As a float, `hi` is `hi + 1`. -/
def ofFloat (q : ℚ) : ℤ :=
  if q < lo then lo else if q > hi + 1 then hi else fc.conv (round q)

/-- The case of strings. -/
def ofString (parsed : Option ℤ) (float : Option ℚ) : Option ℤ :=
  match parsed with
  | some z => some z
  | none => float.map (ofFloat fc)

end

variable (sc : Strconv)

def toInteger (fc : FloatConv minInt64 maxInt64) : FieldValue ℚ → Option ℤ
  | .int v => some v.toInt
  | .uint v => if v.toNat ≤ maxInt64 then some v.toNat else some maxInt64
  | .float q => some (ofFloat fc q)
  | .bool b => some (if b then 1 else 0)
  | .string s => ofString fc (sc.parseInt s) (sc.parseFloat s)
  | .nil => none

def toUnsigned (fc : FloatConv 0 maxUint64) : FieldValue ℚ → Option ℤ
  | .int v => if v.toInt < 0 then some 0 else some v.toInt
  | .uint v => some v.toNat
  | .float q => some (ofFloat fc q)
  | .bool b => some (if b then 1 else 0)
  | .string s => ofString fc (sc.parseUint s) (sc.parseFloat s)
  | .nil => none

/-- `value != 0` for an interface that holds an `int64`, a `uint64` or a `float64` : the constant is
an `int`, and values of different types are not equal. -/
def neZero (_ : FieldValue ℚ) : Bool :=
  true

def toBool : FieldValue ℚ → Option Bool
  | .bool b => some b
  | .string s => parseBool s
  | .nil => none
  | v => if neZero v then some true else none

/-! ## Decimal strings -/

/-- The number that a numeral denotes. -/
def numberOf (n : Numeral) : ℚ :=
  n.sign.apply (natOf (n.whole ++ n.places)) / 10 ^ n.places.length

/-- Digits with base 0 : those that begin with zero are octal. -/
def base0 (digits : GoString) : Option ℕ :=
  if 1 < digits.length ∧ digits.head? = some 48 then
    if digits.all (· < 56) then some (digits.foldl (fun n b => n * 8 + digitOf b) 0) else none
  else some (natOf digits)

/-- What `ParseInt` reads. -/
def readInt (n : Numeral) : Option ℤ :=
  if n.frac = none then
    ((base0 n.whole).map n.sign.apply).filter fun z => minInt64 ≤ z ∧ z ≤ maxInt64
  else none

/-- What `ParseUint` reads. -/
def readUint (n : Numeral) : Option ℤ :=
  if n.frac = none ∧ n.sign = .none then
    ((base0 n.whole).map Int.ofNat).filter fun z => z ≤ maxUint64
  else none

/-- The nearest integer, the even one of two. -/
def roundEven (q : ℚ) : ℤ :=
  if q - ⌊q⌋ < 1 / 2 ∨ q - ⌊q⌋ = 1 / 2 ∧ ⌊q⌋ % 2 = 0 then ⌊q⌋ else ⌊q⌋ + 1

/-- The last place of a `float64` of that size, which has 53 binary digits unless it is
subnormal. -/
def ulp (q : ℚ) : ℚ :=
  2 ^ max (Int.log 2 |q| - 52) (-1074)

/-- The nearest `float64`, none beyond the largest one. -/
def nearest (q : ℚ) : Option ℚ :=
  some (roundEven (q / ulp q) * ulp q) |>.filter fun f => |f| < 2 ^ 1024

/-- What is documented of `strconv` for a numeral. -/
structure Strconv.Documented (n : Numeral) : Prop where
  parseInt : sc.parseInt n.text = readInt n
  parseUint : sc.parseUint n.text = readUint n
  parseFloat : sc.parseFloat n.text = nearest (numberOf n)

/-- A number, or a decimal string. -/
inductive Input where
  | int (v : Int64)
  | uint (v : UInt64)
  | bool (b : Bool)
  | float (q : ℚ)
  | decimal (n : Numeral) (point : ∀ f, n.frac = some f → f.1 = 46)

namespace Input

def value : Input → FieldValue ℚ
  | int v => .int v
  | uint v => .uint v
  | bool b => .bool b
  | float q => .float q
  | decimal n _ => .string n.text

def number : Input → ℚ
  | int v => v.toInt
  | uint v => (v.toNat : ℤ)
  | bool b => (if b then 1 else 0 : ℤ)
  | float q => q
  | decimal n _ => numberOf n

end Input

/-- The number rounded, and clamped to the range. -/
def clamped (lo hi : ℤ) (q : ℚ) : ℤ :=
  max lo (min (round q) hi)

/-- The float is not converted although it is rounded above the range. -/
def Specified (hi : ℤ) (q : ℚ) : Prop :=
  ¬(q ≤ hi + 1 ∧ round q = hi + 1)

/-- What is read as an integer is the number, and otherwise the nearest float is rounded and
clamped to what the number is. -/
def ReadExactly (lo hi : ℤ) (read : Option ℤ) (q : ℚ) : Prop :=
  match read with
  | some z => z = clamped lo hi q
  | none => ∃ f, nearest q = some f ∧ Specified hi f ∧ clamped lo hi f = clamped lo hi q

namespace Input

def IntegerExact : Input → Prop
  | float q => Specified maxInt64 q
  | decimal n _ => ReadExactly minInt64 maxInt64 (readInt n) (numberOf n)
  | _ => True

def UnsignedExact : Input → Prop
  | float q => Specified maxUint64 q
  | decimal n _ => ReadExactly 0 maxUint64 (readUint n) (numberOf n)
  | _ => True

def BoolExact : Input → Prop
  | bool _ => True
  | decimal n _ => n.text = str "0" ∨ n.text = str "1"
  | x => x.number ≠ 0

end Input

/-! ## Rounding -/

open Input

theorem round_intCast (z : ℤ) : round z = z := by
  have hhalf : ⌊(1 / 2 : ℚ)⌋ = 0 := by norm_num
  rw [round]
  split_ifs
  · rw [← Int.cast_neg, Int.floor_intCast_add, hhalf]
    omega
  · rw [Int.floor_intCast_add, hhalf, Int.add_zero]

theorem round_mono {q r : ℚ} (h : q ≤ r) : round q ≤ round r := by
  have hfloor : ∀ {s : ℚ}, 0 ≤ s → 0 ≤ ⌊s + 1 / 2⌋ := fun hs =>
    Int.floor_nonneg.2 (by linarith)
  rw [round, round]
  split_ifs with hq hr hr
  · have hle := Int.floor_mono (show -r + 1 / 2 ≤ -q + 1 / 2 by linarith)
    omega
  · have hq' := hfloor (s := -q) (by linarith)
    have hr' := hfloor (s := r) (by linarith)
    omega
  · linarith
  · exact Int.floor_mono (by linarith)

theorem round_le {q : ℚ} {z : ℤ} (h : q ≤ z) : round q ≤ z := by
  rw [← round_intCast z]
  exact round_mono h

theorem le_round {q : ℚ} {z : ℤ} (h : (z : ℚ) ≤ q) : z ≤ round q := by
  rw [← round_intCast z]
  exact round_mono h

theorem clamped_intCast (lo hi z : ℤ) : clamped lo hi z = max lo (min z hi) := by
  rw [clamped, round_intCast]

/-! ## Floats that are converted -/

section

variable {lo hi : ℤ}

/-- A conversion that gives `x` outside of the range. -/
def FloatConv.elsewhere {x : ℤ} (hlo : lo ≤ x) (hhi : x ≤ hi) : FloatConv lo hi where
  conv q := if lo ≤ ⌊q⌋ ∧ ⌊q⌋ ≤ hi then ⌊q⌋ else x
  mem q := by
    split_ifs with hq
    · exact hq
    · exact ⟨hlo, hhi⟩
  eq z hlo hhi := by rw [Int.floor_intCast, if_pos ⟨hlo, hhi⟩]

/-- All conversions of a float give the same if and only if it is converted within the range, and
then it is clamped. -/
theorem ofFloat_eq_iff (h : lo < hi) (q : ℚ) (c : ℤ) :
    (∀ fc : FloatConv lo hi, ofFloat fc q = c) ↔ Specified hi q ∧ clamped lo hi q = c := by
  have hcast : ((hi + 1 : ℤ) : ℚ) = hi + 1 := by push_cast; ring
  have hiff : (∀ fc : FloatConv lo hi, ofFloat fc q = clamped lo hi q) → Specified hi q →
      ((∀ fc : FloatConv lo hi, ofFloat fc q = c) ↔ Specified hi q ∧ clamped lo hi q = c) := by
    refine fun hof hspec => ⟨fun hall => ⟨hspec, ?_⟩, fun hc fc => (hof fc).trans hc.2⟩
    rw [← hof (.elsewhere le_rfl h.le), hall]
  rcases lt_or_ge q lo with hlow | hlow
  · -- below the range
    have hround := round_le hlow.le
    refine hiff (fun fc => ?_) fun hbad => by omega
    rw [ofFloat, if_pos hlow, clamped]
    omega
  rcases lt_or_ge ((hi : ℚ) + 1) q with hhigh | hhigh
  · -- above the range
    have hround : hi + 1 ≤ round q := le_round (by rw [hcast]; exact hhigh.le)
    refine hiff (fun fc => ?_) fun hbad => absurd hbad.1 (not_le.2 hhigh)
    rw [ofFloat, if_neg (not_lt.2 hlow), if_pos hhigh, clamped]
    omega
  have hlo := le_round hlow
  have hhi : round q ≤ hi + 1 := round_le (by rw [hcast]; exact hhigh)
  have hof : ∀ fc : FloatConv lo hi, ofFloat fc q = fc.conv (round q) := fun fc => by
    rw [ofFloat, if_neg (not_lt.2 hlow), if_neg (not_lt.2 hhigh)]
  by_cases hround : round q = hi + 1
  · -- the conversions differ
    refine iff_of_false (fun hall => ?_) fun hbad => hbad.1 ⟨hhigh, hround⟩
    have helse : ∀ {x : ℤ} (hlo : lo ≤ x) (hhi : x ≤ hi), x = c := fun hlo hhi => by
      rw [← hall (.elsewhere hlo hhi), hof, hround, FloatConv.elsewhere]
      simp only [Int.floor_intCast]
      rw [if_neg (by omega)]
    have hne := (helse le_rfl h.le).trans (helse h.le le_rfl).symm
    omega
  · refine hiff (fun fc => ?_) fun hbad => hround hbad.2
    rw [hof, fc.eq _ hlo (by omega), clamped]
    omega

theorem some_ofFloat_eq_iff (h : lo < hi) (q : ℚ) :
    (∀ fc : FloatConv lo hi, some (ofFloat fc q) = some (clamped lo hi q)) ↔ Specified hi q := by
  simp only [Option.some.injEq, ofFloat_eq_iff h, and_true]

theorem ofString_eq_iff (h : lo < hi) (read : Option ℤ) (q : ℚ) :
    (∀ fc : FloatConv lo hi, ofString fc read (nearest q) = some (clamped lo hi q)) ↔
      ReadExactly lo hi read q := by
  have fc : FloatConv lo hi := .elsewhere le_rfl h.le
  cases read with
  | some => exact ⟨fun hall => Option.some.inj (hall fc), fun hz fc => congrArg some hz⟩
  | none =>
    simp only [ofString, ReadExactly]
    cases nearest q with
    | none => exact iff_of_false (fun hall => nomatch hall fc) fun ⟨_, hf, _⟩ => nomatch hf
    | some f =>
      simp only [Option.map_some, Option.some.injEq, exists_eq_left']
      exact ofFloat_eq_iff h f _

end

/-! ## Exact results -/

section

variable (x : Input) (hsc : ∀ n point, x = .decimal n point → sc.Documented n)

include hsc

theorem toInteger_eq_iff :
    (∀ fc, toInteger sc fc x.value = some (clamped minInt64 maxInt64 x.number)) ↔
      x.IntegerExact := by
  cases x with
  | int v =>
    have hlo := Int64.le_toInt v
    have hhi := Int64.toInt_lt v
    refine iff_of_true (fun fc => ?_) trivial
    simp only [value, toInteger, number, clamped_intCast, minInt64, maxInt64]
    exact congrArg some (by omega)
  | uint =>
    refine iff_of_true (fun fc => ?_) trivial
    simp only [value, toInteger, number, clamped_intCast]
    split_ifs with h <;> simp only [minInt64, maxInt64] at h ⊢ <;> exact congrArg some (by omega)
  | bool b =>
    refine iff_of_true (fun fc => ?_) trivial
    rw [number, clamped_intCast]
    cases b <;> rfl
  | float q => exact some_ofFloat_eq_iff (by decide) q
  | decimal n point =>
    obtain ⟨hint, -, hfloat⟩ := hsc n point rfl
    simp only [value, toInteger, hint, hfloat]
    exact ofString_eq_iff (by decide) (readInt n) (numberOf n)

theorem toUnsigned_eq_iff :
    (∀ fc, toUnsigned sc fc x.value = some (clamped 0 maxUint64 x.number)) ↔
      x.UnsignedExact := by
  cases x with
  | int v =>
    have hhi := Int64.toInt_lt v
    refine iff_of_true (fun fc => ?_) trivial
    simp only [value, toUnsigned, number, clamped_intCast, maxUint64]
    split_ifs <;> exact congrArg some (by omega)
  | uint v =>
    have hhi := UInt64.toNat_lt v
    refine iff_of_true (fun fc => ?_) trivial
    simp only [value, toUnsigned, number, clamped_intCast, maxUint64]
    exact congrArg some (by omega)
  | bool b =>
    refine iff_of_true (fun fc => ?_) trivial
    rw [number, clamped_intCast]
    cases b <;> rfl
  | float q => exact some_ofFloat_eq_iff (by decide) q
  | decimal n point =>
    obtain ⟨-, huint, hfloat⟩ := hsc n point rfl
    simp only [value, toUnsigned, huint, hfloat]
    exact ofString_eq_iff (by decide) (readUint n) (numberOf n)

end

/-- A numeral begins with a sign or a digit. -/
theorem exists_text_eq_cons (n : Numeral) :
    ∃ b t, n.text = b :: t ∧ (b = 43 ∨ b = 45 ∨ IsDigit b) := by
  obtain ⟨sign, _, frac, hwhole, _⟩ := n
  obtain ⟨d, _, rfl⟩ := List.exists_cons_of_ne_nil hwhole.1
  have hd := hwhole.2 d List.mem_cons_self
  cases sign <;> cases frac <;>
    simp [Numeral.text, Numeral.wholeText, Sign.text, hd]

/-- A numeral of one byte is a digit. -/
theorem numberOf_of_text_eq {n : Numeral} {b : UInt8} (h : n.text = [b]) :
    numberOf n = digitOf b := by
  obtain ⟨sign, _, frac, hwhole, _⟩ := n
  obtain ⟨d, _, rfl⟩ := List.exists_cons_of_ne_nil hwhole.1
  cases sign <;> cases frac <;>
    simp [Numeral.text, Numeral.wholeText, Sign.text] at h
  obtain ⟨rfl, rfl⟩ := h
  simp [numberOf, Numeral.places, Sign.apply, natOf, natFrom]

theorem toBool_eq_iff (x : Input) :
    toBool x.value = some (decide (x.number ≠ 0)) ↔ x.BoolExact := by
  cases x with
  | bool b => cases b <;> exact iff_of_true (by simp [toBool, value, number]) trivial
  | decimal n =>
    constructor
    · intro h
      obtain ⟨b, t, htext, hb⟩ := exists_text_eq_cons n
      -- the other strings that are read begin with letters
      have hmem : n.text ∈ [str "1", str "t", str "T", str "true", str "TRUE", str "True"] ∨
          n.text ∈ [str "0", str "f", str "F", str "false", str "FALSE", str "False"] := by
        by_contra hnot
        rw [not_or] at hnot
        rw [value, toBool, parseBool, if_neg hnot.1, if_neg hnot.2] at h
        cases h
      rw [BoolExact, htext]
      rw [htext] at hmem
      simp only [List.mem_cons, List.not_mem_nil, or_false] at hmem
      rcases hmem with (h | h | h | h | h | h) | (h | h | h | h | h | h)
      · exact .inr h
      all_goals first | exact .inl h | (cases h; exact absurd hb (by decide))
    · rintro (h | h)
      · rw [value, toBool, number, numberOf_of_text_eq h, h]
        decide
      · rw [value, toBool, number, numberOf_of_text_eq h, h]
        decide
  | _ => simp [toBool, neZero, value, BoolExact]

/-- Which conversions of a number or a decimal string give the number, rounded and clamped for
integers and compared with zero for booleans. -/
theorem conversions_exact_iff (x : Input)
    (hsc : ∀ n point, x = .decimal n point → sc.Documented n) :
    ((∀ fc, toInteger sc fc x.value = some (clamped minInt64 maxInt64 x.number)) ↔
        x.IntegerExact) ∧
      ((∀ fc, toUnsigned sc fc x.value = some (clamped 0 maxUint64 x.number)) ↔
        x.UnsignedExact) ∧
      (toBool x.value = some (decide (x.number ≠ 0)) ↔ x.BoolExact) :=
  ⟨toInteger_eq_iff sc x hsc, toUnsigned_eq_iff sc x hsc, toBool_eq_iff x⟩

/-- The string `2.5`. -/
def twoPointFive : Numeral :=
  ⟨.none, [50], some (46, [53]), ⟨by decide, List.forall_mem_singleton.2 (by decide)⟩, fun _ h => by
    cases h
    exact ⟨by decide, List.forall_mem_singleton.2 (by decide)⟩⟩

/-- No integer is read from `2.5`, and the float is rounded. -/
theorem conversions_exact_of_decimal :
    ∃ sc : Strconv, sc.Documented twoPointFive ∧ sc.parseFloat (str "2.5") = some (5 / 2) ∧
      ∀ fc, toInteger sc fc (.string (str "2.5")) = some 3 := by
  have hnearest : nearest (5 / 2) = some (5 / 2) := by decide +kernel
  have hnumber : numberOf twoPointFive = 5 / 2 := by decide +kernel
  have hdoc : (Strconv.mk (fun _ => none) (fun _ => none) fun _ => some (5 / 2)).Documented
      twoPointFive := ⟨rfl, rfl, by rw [hnumber, hnearest]⟩
  have hpoint : ∀ f, twoPointFive.frac = some f → f.1 = 46 := fun _ h => by cases h; rfl
  have hclamped : clamped minInt64 maxInt64 (5 / 2) = 3 := by decide +kernel
  have hround : round (5 / 2) ≠ maxInt64 + 1 := by decide +kernel
  refine ⟨_, hdoc, rfl, fun fc => ?_⟩
  have hexact := (conversions_exact_iff _ (.decimal twoPointFive hpoint) fun n point h => by
    cases h
    exact hdoc).1.2 ⟨5 / 2, by rw [hnumber, hnearest], fun h => absurd h.2 hround,
      by rw [hnumber]⟩ fc
  rw [number, hnumber, hclamped] at hexact
  exact hexact

/-- Zero is converted to true, and the least float above the range to any integer. -/
theorem zero_converted_to_true :
    toBool (.int 0) = some true ∧ toBool (.float 0) = some true ∧ ∃ sc fc,
      toInteger sc fc (.float (2 ^ 63)) = some minInt64 :=
  ⟨rfl, rfl, ⟨fun _ => none, fun _ => none, fun _ => none⟩,
    .elsewhere le_rfl (by decide), by decide +kernel⟩

end Telegraf.Converter
