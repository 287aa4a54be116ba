import CurveSketch.Binary64.Rounding
import CurveSketch.Curve
import CurveSketch.Decimal.Layout
import CurveSketch.Polyline

/-!
# Sampling a curve

A grid of equally spaced abscissas says where a curve is sampled.  The number of
samples has a limit, which is checked before any is taken.
-/

namespace CurveSketch

/-- Equally spaced abscissas from `low` up to `high`. -/
structure Grid where
  low : Float := -10
  high : Float := 10
  step : Float := 0.01
  /-- How many samples may be taken. -/
  limit : UInt64 := 1000000

/-- Why a grid has no samples. -/
inductive SamplingError where
  /-- The bounds are not finite, or not in order. -/
  | invalidDomain (low high : Float)
  /-- The step is not finite, or not positive. -/
  | invalidStep (step : Float)
  /-- There would be too many samples. -/
  | tooManySamples (required limit : UInt64)

/-- The wording of a refusal to sample. -/
def SamplingError.message : SamplingError → String
  | invalidDomain low high =>
    "domain bounds must be finite with x_min < x_max, got ["
      ++ Layout.plain.write low ++ ", " ++ Layout.plain.write high ++ "]"
  | invalidStep step => "step must be finite and positive, got " ++ Layout.plain.write step
  | tooManySamples required limit =>
    "sampling would take " ++ toString required.toNat ++ " points, limit is "
      ++ toString limit.toNat

namespace Grid

/-- Whether the bounds are finite and in order. -/
def hasDomain (g : Grid) : Bool :=
  g.low.isFinite && g.high.isFinite && g.low < g.high

/-- Whether the step is finite and positive. -/
def hasStep (g : Grid) : Bool :=
  g.step.isFinite && 0 < g.step

/-- How many whole steps lie between the bounds. -/
def intervals (g : Grid) : Float :=
  Binary64.floor ((g.high - g.low) / g.step)

/-- The number of abscissas: one more than there are intervals.  The number that
a refusal reports goes up to the greatest one of 64 bits. -/
def count (g : Grid) : Except SamplingError UInt64 :=
  if !g.hasDomain then .error (.invalidDomain g.low g.high)
  else if !g.hasStep then .error (.invalidStep g.step)
  else if g.intervals ≥ g.limit.toFloat then
    .error (.tooManySamples g.intervals.toUInt64 g.limit)
  else .ok (g.intervals.toUInt64 + 1)

/-- The abscissa with the given index, reckoned from the lower bound, so that
rounding errors do not add up. -/
def abscissa (g : Grid) (index : Nat) : Float :=
  g.low + index.toUInt64.toFloat * g.step

/-- The points of the curve over the abscissas, in order. -/
def sample (g : Grid) (f : Curve) : Except SamplingError (List Point) := do
  let count ← g.count
  return (List.range count.toNat).map fun index => ⟨g.abscissa index, f (g.abscissa index)⟩

/-- The polylines of the curve over the abscissas. -/
def polylines (g : Grid) (rule : BreakRule) (f : Curve) :
    Except SamplingError (List Polyline) := do
  return Polyline.ofPoints rule.parts (← g.sample f)

/-! ## Facts about samples -/

/-- There are as many points as the grid counts. -/
theorem length_of_sample {g : Grid} {f : Curve} {count : UInt64} {points : List Point}
    (hcount : g.count = .ok count) (hpoints : g.sample f = .ok points) :
    points.length = count.toNat := by
  simp only [sample, hcount, bind, Except.bind, pure, Except.pure, Except.ok.injEq] at hpoints
  simp [← hpoints]

/-- Every sample is a point of the curve. -/
theorem y_eq_of_mem_sample {g : Grid} {f : Curve} {points : List Point} {p : Point}
    (hpoints : g.sample f = .ok points) (hp : p ∈ points) : p.y = f p.x := by
  cases hcount : g.count with
  | error cause => simp [sample, hcount, bind, Except.bind] at hpoints
  | ok count =>
    simp only [sample, hcount, bind, Except.bind, pure, Except.pure, Except.ok.injEq] at hpoints
    obtain ⟨index, -, rfl⟩ := List.mem_map.mp (hpoints ▸ hp)
    rfl

end Grid

end CurveSketch
