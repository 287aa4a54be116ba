import CurveSketch.Grid
import CurveSketch.Reduction

/-!
# Reports

Two texts about curves: `Report.values`, a table of the values of some
expressions, and `Report.outline`, the polylines of some expressions under two
rules for breaks.
-/

namespace CurveSketch.Report

/-- The lines of a text, each with its end. -/
def ofLines (lines : List String) : String :=
  String.join (lines.map (· ++ "\n"))

/-- A text with blanks before it, up to the given width. -/
def padLeft (width : Nat) (text : String) : String :=
  String.ofList (List.replicate (width - text.length) ' ') ++ text

/-! ## Values -/

/-- The expressions of the table if no others are asked for. -/
def sampleExpressions : List String :=
  ["x ^ 2 - 2 * x + 1", "sin ( x ) / x", "max ( x , 0 - x )", "2x + 1"]

/-- Where the table evaluates. -/
def abscissas : List Float := [-2, -1, 0, 1, 2]

/-- The line for the value of a curve at `x`. -/
def valueLine (f : Curve) (x : Float) : String :=
  "  f(" ++ padLeft 4 (Layout.plain.write x) ++ ") = " ++ Layout.plain.write (f x)

/-- The lines for one expression: its values, or why it has none. -/
def valueLines (text : String) : List String :=
  match Curve.read .delimited text with
  | .ok f => ("f(x) = " ++ text) :: abscissas.map (valueLine f)
  | .error cause => ["Invalid input '" ++ text ++ "': " ++ cause.message]

/-- The table of values. -/
def values (expressions : List String) : String :=
  ofLines ((if expressions.isEmpty then sampleExpressions else expressions).flatMap valueLines)

/-! ## Outline -/

/-- The grid of the outline. -/
def outlineGrid : Grid := { low := -5, high := 5, step := 0.05 }

/-- The expressions of the outline. -/
def outlineExpressions : List String :=
  ["1 / x", "tan ( x )", "sqrt ( 4 - x ^ 2 )"]

def pointText (p : Point) : String :=
  "(" ++ fixed 2 p.x ++ ", " ++ fixed 3 p.y ++ ")"

/-- The line for a polyline: its ends, and how many points it has.  A polyline of
a single point has none. -/
def polylineLine? (line : Polyline) : Option String :=
  match line with
  | first :: second :: rest =>
    let last := (second :: rest).getLast (List.cons_ne_nil second rest)
    some ("    " ++ pointText first ++ " .. " ++ pointText last
      ++ " [" ++ toString line.length ++ " points]")
  | _ => none

/-- The lines for the polylines of one expression under the two rules. -/
def outlineLines (grid : Grid) (text : String) : List String :=
  match Curve.read .delimited text with
  | .error _ => ["Invalid input '" ++ text ++ "'"]
  | .ok f =>
    match grid.polylines .default f, grid.polylines .never f with
    | .ok split, .ok joined =>
      [text,
        "  slope threshold: " ++ toString split.length ++ " polylines",
        "  non-finite only: " ++ toString joined.length ++ " polylines"]
        ++ split.filterMap polylineLine?
    | .error cause, _ | _, .error cause => ["Sampling failed: " ++ cause.message]

/-- The outline of the expressions. -/
def outline : String :=
  ofLines (outlineExpressions.flatMap (outlineLines outlineGrid))

end CurveSketch.Report
