import Telegraf.Metric

/-!
# Runes of Go strings

A `range` over a string decodes UTF-8 : it takes the bytes of one code point after the other, and
one byte where they are no UTF-8. `runeStarts` are the positions of the iterations, `runes` the
ASCII bytes, with `none` for every other rune.
-/

namespace Telegraf

/-- The number of bytes of the first rune, which is one for bytes that are no UTF-8. -/
def runeSize : GoString → ℕ
  | b :: c :: d :: e :: _ =>
    if 0xF0 ≤ b ∧ b ≤ 0xF4 ∧ (if b = 0xF0 then 0x90 else 0x80) ≤ c ∧
        c ≤ (if b = 0xF4 then 0x8F else 0xBF) ∧ 0x80 ≤ d ∧ d ≤ 0xBF ∧ 0x80 ≤ e ∧ e ≤ 0xBF then 4
    else runeSize3 b c d
  | [b, c, d] => runeSize3 b c d
  | [b, c] => runeSize2 b c
  | _ => 1
where
  runeSize2 (b c : UInt8) : ℕ :=
    if 0xC2 ≤ b ∧ b ≤ 0xDF ∧ 0x80 ≤ c ∧ c ≤ 0xBF then 2 else 1
  runeSize3 (b c d : UInt8) : ℕ :=
    if 0xE0 ≤ b ∧ b ≤ 0xEF ∧ (if b = 0xE0 then 0xA0 else 0x80) ≤ c ∧
        c ≤ (if b = 0xED then 0x9F else 0xBF) ∧ 0x80 ≤ d ∧ d ≤ 0xBF then 3
    else runeSize2 b c

/-- The positions of the runes, for a `range` over the string, of which `skip` bytes belong to a
rune already. -/
def runeStarts : ℕ → ℕ → GoString → List ℕ
  | _, _, [] => []
  | i, skip + 1, _ :: s => runeStarts (i + 1) skip s
  | i, 0, b :: s => i :: runeStarts (i + 1) (runeSize (b :: s) - 1) s

/-- The runes of a string of which `skip` bytes belong to a rune already. A rune that is not ASCII
is `none`. -/
def runesFrom : ℕ → GoString → List (Option UInt8)
  | _, [] => []
  | skip + 1, _ :: s => runesFrom skip s
  | 0, b :: s => (if b < 0x80 then some b else none) :: runesFrom (runeSize (b :: s) - 1) s

def runes (s : GoString) : List (Option UInt8) :=
  runesFrom 0 s

end Telegraf
