/-!
# Reading numerals

A numeral is an optional sign, then a decimal — digits, digits and a point,
digits around a point, or a point and digits — and an optional exponent.  Digits
are the ten ASCII ones.  `Numeral.read?` recognises exactly these texts and
`Numeral.value` is the nearest binary64 number, ties going to even.
-/

namespace CurveSketch

/-- A numeral taken apart: `± whole.fraction * 10 ^ exponent`. -/
structure Numeral where
  negative : Bool
  whole : List Char
  fraction : List Char
  exponent : Int
  deriving Repr, DecidableEq

namespace Numeral

/-- The negative of `x`, if asked for. -/
def signed (negative : Bool) (x : Float) : Float :=
  if negative then -x else x

/-- The nearest binary64 number.  Too great a numeral becomes an infinity, and
the sign of a zero is kept. -/
def value (n : Numeral) : Float :=
  let count := Nat.ofDigitChars 10 (n.whole ++ n.fraction) 0
  let power := n.exponent - n.fraction.length
  signed n.negative (Float.ofScientific count (power < 0) power.natAbs)

/-! ## Recognition -/

/-- At most one leading sign, and the rest. -/
def splitSign : List Char → Bool × List Char
  | '-' :: rest => (true, rest)
  | '+' :: rest => (false, rest)
  | text => (false, text)

/-- Digits, of which there must be one, up to the end of the text. -/
def readDigits? (text : List Char) : Option Nat :=
  if !text.isEmpty && text.all Char.isDigit then some (Nat.ofDigitChars 10 text 0) else none

/-- The exponent part: nothing at all, or a letter, an optional sign and digits. -/
def readExponent? : List Char → Option Int
  | [] => some 0
  | letter :: rest =>
    if letter = 'e' ∨ letter = 'E' then
      let (negative, digits) := splitSign rest
      (readDigits? digits).map fun n => if negative then -n else n
    else none

/-- The digits after a point and what follows them; without a point there are
none. -/
def splitFraction : List Char → List Char × List Char
  | '.' :: rest => (rest.takeWhile Char.isDigit, rest.dropWhile Char.isDigit)
  | text => ([], text)

/-- The numeral that the text spells, if it spells one. -/
def read? (text : List Char) : Option Numeral :=
  let (negative, unsigned) := splitSign text
  let whole := unsigned.takeWhile Char.isDigit
  let (fraction, rest) := splitFraction (unsigned.dropWhile Char.isDigit)
  if whole.isEmpty && fraction.isEmpty then none
  else (readExponent? rest).map fun exponent => ⟨negative, whole, fraction, exponent⟩

/-! ## Facts about the parts -/

theorem signed_false (x : Float) : signed false x = x := rfl

theorem signed_true (x : Float) : signed true x = -x := rfl

/-- A text that does not start with a sign is left whole. -/
theorem splitSign_of_ne {c : Char} {rest : List Char} (plus : c ≠ '+') (minus : c ≠ '-') :
    splitSign (c :: rest) = (false, c :: rest) := by
  unfold splitSign
  split <;> simp_all

/-- Digits are read exactly if there is one and nothing else. -/
theorem readDigits?_isSome {text : List Char} :
    (readDigits? text).isSome ↔ text ≠ [] ∧ ∀ c ∈ text, c.isDigit := by
  simp [readDigits?]

/-- The fraction and what follows it are the text after the point. -/
theorem splitFraction_point (rest : List Char) :
    (splitFraction ('.' :: rest)).1 ++ (splitFraction ('.' :: rest)).2 = rest := by
  simp [splitFraction]

end Numeral

end CurveSketch
