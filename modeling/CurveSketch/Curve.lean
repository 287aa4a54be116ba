/-!
# Curves

A curve is the graph of a function of one variable.
-/

namespace CurveSketch

/-- The height over each `x`. -/
abbrev Curve := Float → Float

namespace Curve

/-- The same height everywhere. -/
def constant (height : Float) : Curve := fun _ => height

/-- The diagonal. -/
def identity : Curve := fun x => x

/-- First the inner curve, then the outer one. -/
def compose (outer inner : Curve) : Curve := fun x => outer (inner x)

end Curve

end CurveSketch
