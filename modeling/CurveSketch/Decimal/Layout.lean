import CurveSketch.Decimal.Shortest

/-!
# Writing numbers

A `Layout` says how the shortest decimal of a number is laid out.  There are two
of them: `Layout.plain`, for messages and reports, never has an exponent, and
`Layout.marked`, for the journal, shows by its text that it is no integer.
`fixed` writes a given number of decimal places.
-/

namespace CurveSketch

open Float.Model.UnpackedFloat (Sign)

/-- The format's decisions beyond the digits. -/
structure Layout where
  /-- Written after a number that has no fraction. -/
  wholeMark : String
  /-- The positions of the decimal point, relative to the first digit, for which
  no exponent is written; `none` if there never is one. -/
  positional : Option (Int × Int)

namespace Layout

/-- Digits alone, as in `5`, `0.0000001` and `1000000000000000000000`. -/
def plain : Layout := ⟨"", none⟩

/-- A point or an exponent in every number, as in `5.0`, `1e-7` and `1e21`.  An
exponent is written below `0.0001` and from `10 ^ 16` on. -/
def marked : Layout := ⟨".0", some (-3, 16)⟩

/-- Whether a number with this position of the point has no exponent. -/
def isPositional (layout : Layout) (point : Int) : Bool :=
  match layout.positional with
  | none => true
  | some (low, high) => low ≤ point && point ≤ high

/-- Digits and point, with zeros up to the point where digits are missing. -/
def positionalText (layout : Layout) (d : Decimal) : String :=
  let count : Int := d.digits.length
  if d.point ≤ 0 then
    "0." ++ String.ofList (List.replicate (-d.point).toNat '0' ++ d.digits)
  else if count ≤ d.point then
    String.ofList (d.digits ++ List.replicate (d.point - count).toNat '0')
      ++ layout.wholeMark
  else
    String.ofList (d.digits.take d.point.toNat) ++ "."
      ++ String.ofList (d.digits.drop d.point.toNat)

/-- One digit before the point, and the power of ten that it stands for. -/
def scientificText (d : Decimal) : String :=
  let fraction := d.digits.drop 1
  String.ofList (d.digits.take 1)
    ++ (if fraction.isEmpty then "" else "." ++ String.ofList fraction)
    ++ "e" ++ toString (d.point - 1)

/-- The text of a positive decimal. -/
def decimalText (layout : Layout) (d : Decimal) : String :=
  if layout.isPositional d.point then layout.positionalText d else scientificText d

end Layout

/-- A minus before negative numbers, the negative zero included. -/
def signText : Sign → String
  | .negative => "-"
  | .positive => ""

/-- The shortest text that reads back as `x`, in the given layout. -/
def Layout.write (layout : Layout) (x : Float) : String :=
  match x.toModel.unpack with
  | .notANumber => "NaN"
  | .infinity sign => signText sign ++ "inf"
  | .zero sign => signText sign ++ "0" ++ layout.wholeMark
  | .finite sign mantissa exponent _ =>
    signText sign ++ layout.decimalText (Decimal.shortest mantissa exponent)

/-- The natural number nearest to `num / den`, a half going to the even one. -/
def roundQuotient (num den : Nat) : Nat :=
  let below := num / den
  let twice := 2 * (num % den)
  if twice < den ∨ (twice = den ∧ below % 2 = 0) then below else below + 1

/-- The text of `count / 10 ^ places`, with exactly `places` digits after the
point, which is left out with them. -/
def fixedText (places count : Nat) : String :=
  let digits := Nat.toDigits 10 count
  let padded := List.replicate (places + 1 - digits.length) '0' ++ digits
  let whole := padded.length - places
  String.ofList (padded.take whole)
    ++ (if places = 0 then "" else "." ++ String.ofList (padded.drop whole))

/-- The text of `x` with `places` digits after the point, rounded from its exact
value, a half going to the even digit.  A minus stays even if only zeros are
left. -/
def fixed (places : Nat) (x : Float) : String :=
  match x.toModel.unpack with
  | .notANumber => "NaN"
  | .infinity sign => signText sign ++ "inf"
  | .zero sign => signText sign ++ fixedText places 0
  | .finite sign mantissa exponent _ =>
    let count := roundQuotient (mantissa * twoTo exponent * tenTo places) (twoTo (-exponent))
    signText sign ++ fixedText places count

/-! ## The rounding rule -/

/-- The rounded quotient is within half a unit of the quotient. -/
theorem roundQuotient_near (num den : Nat) (h : 0 < den) :
    2 * (den * roundQuotient num den) ≤ 2 * num + den ∧
      2 * num ≤ 2 * (den * roundQuotient num den) + den := by
  have parts := Nat.div_add_mod num den
  have small := Nat.mod_lt num h
  unfold roundQuotient
  generalize num / den = below at *
  generalize num % den = rest at *
  dsimp only
  split
  · omega
  · rw [Nat.mul_add]
    omega

/-- A quotient half-way between two numbers goes to the even one. -/
theorem roundQuotient_half_even (num den : Nat) (h : 2 * (num % den) = den) :
    roundQuotient num den % 2 = 0 := by
  unfold roundQuotient
  generalize num / den = below
  generalize num % den = rest at *
  dsimp only
  split <;> omega

end CurveSketch
