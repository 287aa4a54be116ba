import CurveSketch.Grid
import CurveSketch.Reduction
import Std.Data.TreeMap

/-!
# Sessions

A session keeps named curves and the settings for reading and sampling.
`Session.perform` carries out one command.  A command that is refused changes
nothing.
-/

namespace CurveSketch

/-- What a session keeps.  A curve is kept as a value: it does not change with
the settings that it was read under, nor with the curves that it was made of. -/
structure Session where
  mode : CommaMode := .delimited
  grid : Grid := {}
  rule : BreakRule := .default
  curves : Std.TreeMap String Curve := ∅

/-- What a session can be asked for. -/
inductive Command where
  | setMode (mode : CommaMode)
  | define (name text : String)
  | constant (name : String) (height : Float)
  | identity (name : String)
  | compose (name outer inner : String)
  | evaluate (name : String) (xs : List Float)
  | setDomain (low high : Float)
  | setStep (step : Float)
  | setLimit (limit : UInt64)
  | setRule (rule : BreakRule)
  | reset
  | count
  | sample (name : String)
  | polylines (name : String)

/-- What a session answers. -/
inductive Reply where
  | mode (mode : CommaMode)
  | names (names : List String)
  | values (values : List Float)
  | grid (grid : Grid)
  | accepted
  | count (count : UInt64)
  | points (points : List Point)
  | polylines (lines : List Polyline)

/-- Why a session refuses a command. -/
inductive Refusal where
  | unreadable (cause : ParseError)
  | unsampled (cause : SamplingError)
  | unknownCurve (name : String)

namespace Session

/-- The curve of that name. -/
def curve (s : Session) (name : String) : Except Refusal Curve :=
  match s.curves[name]? with
  | some f => .ok f
  | none => .error (.unknownCurve name)

/-- Keeps a curve under a name, in place of an earlier one of that name, and
answers all names in order. -/
def keep (s : Session) (name : String) (f : Curve) : Session × Reply :=
  let curves := s.curves.insert name f
  ({ s with curves }, .names curves.keys)

/-- Samples with a grid, and answers the grid. -/
def useGrid (s : Session) (grid : Grid) : Session × Reply :=
  ({ s with grid }, .grid grid)

/-- Carries out a command, unless it is refused.  A curve is looked up before the
grid is checked, and an outer curve before an inner one. -/
def attempt (s : Session) : Command → Except Refusal (Session × Reply)
  | .setMode mode => return ({ s with mode }, .mode mode)
  | .define name text => return s.keep name (← (Curve.read s.mode text).mapError .unreadable)
  | .constant name height => return s.keep name (Curve.constant height)
  | .identity name => return s.keep name Curve.identity
  | .compose name outer inner => do
    let outer ← s.curve outer
    let inner ← s.curve inner
    return s.keep name (Curve.compose outer inner)
  | .evaluate name xs => return (s, .values (xs.map (← s.curve name)))
  | .setDomain low high => return s.useGrid { s.grid with low, high }
  | .setStep step => return s.useGrid { s.grid with step }
  | .setLimit limit => return s.useGrid { s.grid with limit }
  | .setRule rule => return ({ s with rule }, .accepted)
  | .reset => return { s with rule := .default }.useGrid {}
  | .count => return (s, .count (← s.grid.count.mapError .unsampled))
  | .sample name => do
    let f ← s.curve name
    return (s, .points (← (s.grid.sample f).mapError .unsampled))
  | .polylines name => do
    let f ← s.curve name
    return (s, .polylines (← (s.grid.polylines s.rule f).mapError .unsampled))

/-- The session after a command, and its answer. -/
def perform (s : Session) (command : Command) : Session × Except Refusal Reply :=
  match s.attempt command with
  | .ok (next, reply) => (next, .ok reply)
  | .error refusal => (s, .error refusal)

/-- A command that is refused changes nothing. -/
theorem perform_fst_of_error {s : Session} {command : Command} {refusal : Refusal}
    (h : (s.perform command).2 = .error refusal) : (s.perform command).1 = s := by
  unfold perform at *
  split <;> simp_all

end Session

end CurveSketch
