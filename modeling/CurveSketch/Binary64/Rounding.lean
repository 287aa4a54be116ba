/-!
# Rounding a binary64 number to an integer

`floor` and `ceil` round towards minus and plus infinity, and `roundHalfUp`
rounds to the nearest integer, a half going up.  All three are defined on the
decoded number `± mantissa * 2 ^ exponent`, so that their exact values can be
reasoned about.

Not-a-number, the infinities and the two zeros round to themselves.
-/

namespace CurveSketch.Binary64

/-- The binary64 number nearest to `n`.  It is `n` itself below `2 ^ 53`, and
every mantissa is. -/
def ofMantissa (n : Nat) : Float :=
  n.toUInt64.toFloat

/-- The greatest integer that is at most `x`.

With a non-negative exponent the number is an integer already.  Else the shift
drops the fraction bits, which rounds the magnitude down; below zero the
magnitude is rounded up instead, and `-0.5` becomes `-1`. -/
def floor (x : Float) : Float :=
  match x.toModel.unpack with
  | .finite sign mantissa exponent _ =>
    if 0 ≤ exponent then x
    else
      let places := (-exponent).toNat
      let whole := mantissa >>> places
      match sign with
      | .positive => ofMantissa whole
      | .negative =>
        -ofMantissa (if whole <<< places = mantissa then whole else whole + 1)
  | _ => x

/-- The least integer that is at least `x`.  Between `-1` and `0` it is the
negative zero. -/
def ceil (x : Float) : Float :=
  -floor (-x)

/-- The nearest integer, a half going up: `2.5` becomes `3` and `-2.5` becomes
`-2`.

The fraction `x - floor x` is compared with a half.  Adding a half first would
be wrong just below `0.5`, where the sum rounds to `1`. -/
def roundHalfUp (x : Float) : Float :=
  let below := floor x
  if x - below ≥ 0.5 then below + 1 else below

/-! ## Numbers that have no fraction -/

theorem floor_of_notANumber {x : Float} (h : x.toModel.unpack = .notANumber) :
    floor x = x := by
  rw [floor, h]

theorem floor_of_infinity {x : Float} {sign} (h : x.toModel.unpack = .infinity sign) :
    floor x = x := by
  rw [floor, h]

theorem floor_of_zero {x : Float} {sign} (h : x.toModel.unpack = .zero sign) :
    floor x = x := by
  rw [floor, h]

/-- A number with a non-negative exponent has no fraction bits. -/
theorem floor_of_exponent_nonneg {x : Float} {sign mantissa exponent pos}
    (h : x.toModel.unpack = .finite sign mantissa exponent pos) (he : 0 ≤ exponent) :
    floor x = x := by
  rw [floor, h]
  exact if_pos he

end CurveSketch.Binary64
