/-!
# The shortest decimal that reads back

A binary64 number stands for every real that rounds to it.  Among the decimals
in that interval, `Decimal.shortest` picks one with the fewest digits, of those
the nearest to the number, and of two equally near ones the greater.

`Span` is the interval, in exact natural numbers over a common denominator.
`Span.onGrid` looks for a point of it among the multiples of a power of ten: if
there is one, then one of the two neighbours of the number is.
-/

namespace CurveSketch

/-- The power of two with that exponent, or one if the exponent is negative. -/
def twoTo (exponent : Int) : Nat :=
  Nat.pow 2 exponent.toNat

/-- The power of ten with that exponent, or one if the exponent is negative.  A
number is scaled by `10 ^ k` in natural numbers as `tenTo k / tenTo (-k)`. -/
def tenTo (exponent : Int) : Nat :=
  Nat.pow 10 exponent.toNat

/-- A positive decimal: `0.d₁d₂…dₙ * 10 ^ point`, with `d₁` and `dₙ` not zero. -/
structure Decimal where
  digits : List Char
  point : Int
  deriving Repr, DecidableEq

namespace Decimal

/-- The decimal `count * 10 ^ scale`, with the final zeros of `count` taken off. -/
def ofMultiple (count : Nat) (scale : Int) : Decimal :=
  let digits := Nat.toDigits 10 count
  { digits := (digits.reverse.dropWhile (· == '0')).reverse
    point := digits.length + scale }

end Decimal

/-- The reals between `low / unit` and `high / unit` round to the number
`value / unit`; the two ends do if `closed`. -/
structure Span where
  low : Nat
  value : Nat
  high : Nat
  unit : Nat
  closed : Bool

namespace Span

/-- The reals that round to `mantissa * 2 ^ exponent`: half a step on both
sides, but a quarter below the least mantissa, where the steps get smaller.
The ends go to the even neighbour. -/
def ofFinite (mantissa : Nat) (exponent : Int) : Span :=
  let step := twoTo (exponent - 2)
  { low := (4 * mantissa - if mantissa = twoTo 52 then 1 else 2) * step
    value := 4 * mantissa * step
    high := (4 * mantissa + 2) * step
    unit := twoTo (2 - exponent)
    closed := mantissa % 2 = 0 }

/-- Whether `count * 10 ^ scale` lies in the span. -/
def holds (s : Span) (count : Nat) (scale : Int) : Bool :=
  let point := count * tenTo scale * s.unit
  let low := s.low * tenTo (-scale)
  let high := s.high * tenTo (-scale)
  if s.closed then low ≤ point && point ≤ high else low < point && point < high

/-- How many times `10 ^ scale` goes into the number. -/
def multiplesBelow (s : Span) (scale : Int) : Nat :=
  s.value * tenTo (-scale) / (s.unit * tenTo scale)

/-- Whether the number is strictly nearer to `count` than to `count + 1`, both
times `10 ^ scale`. -/
def nearerBelow (s : Span) (count : Nat) (scale : Int) : Bool :=
  2 * s.value * tenTo (-scale) < (2 * count + 1) * tenTo scale * s.unit

/-- The multiple of `10 ^ scale` in the span that is nearest to the number, as
a count; of two equally near ones, the greater. -/
def onGrid (s : Span) (scale : Int) : Option Nat :=
  let below := s.multiplesBelow scale
  match s.holds below scale, s.holds (below + 1) scale with
  | true, true => some (if s.nearerBelow below scale then below else below + 1)
  | true, false => some below
  | false, true => some (below + 1)
  | false, false => none

/-- The power of ten of the number's first digit.  The shift by 324 places makes
every positive binary64 number greater than one. -/
def leadingPower (s : Span) : Int :=
  (Nat.toDigits 10 (s.multiplesBelow (-324))).length - 325

end Span

namespace Decimal

/-- The shortest decimal that reads back as `mantissa * 2 ^ exponent`.

Grids of one to seventeen digits are tried, coarse ones first.  Seventeen digits
always tell two binary64 numbers apart. -/
def shortest (mantissa : Nat) (exponent : Int) : Decimal :=
  let span := Span.ofFinite mantissa exponent
  let lead := span.leadingPower
  let onDigits (more : Nat) : Option Decimal :=
    (span.onGrid (lead - more)).map (ofMultiple · (lead - more))
  ((List.range 17).findSome? onDigits).getD
    (ofMultiple (span.multiplesBelow (lead - 16)) (lead - 16))

end Decimal

/-! ## What is found is in the span -/

namespace Span

/-- A multiple that is found lies in the span, so its text reads back. -/
theorem holds_of_onGrid {s : Span} {scale : Int} {count : Nat}
    (h : s.onGrid scale = some count) : s.holds count scale := by
  unfold onGrid at h
  dsimp only at h
  split at h
  · split at h <;> simp_all
  · simp_all
  · simp_all
  · cases h

/-- Nothing is found only if both neighbours of the number lie outside. -/
theorem onGrid_eq_none_iff {s : Span} {scale : Int} :
    s.onGrid scale = none ↔
      s.holds (s.multiplesBelow scale) scale = false ∧
        s.holds (s.multiplesBelow scale + 1) scale = false := by
  unfold onGrid
  dsimp only
  split <;> simp_all

end Span

end CurveSketch
