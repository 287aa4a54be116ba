import CurveSketch.Grid
import CurveSketch.Reduction
import CurveSketch.Text.Quoted
import CurveSketch.Trail

/-!
# The journal

What is noted while an expression is read and while a curve is sampled.  The
journal is computed beside the results from the same steps, by `trail`, and no
result depends on it.
-/

namespace CurveSketch

/-- How important an entry is. -/
inductive Level where
  | debug
  | trace
  deriving Repr, DecidableEq

def Level.name : Level → String
  | debug => "DEBUG"
  | trace => "TRACE"

/-- An entry of the journal. -/
structure Entry where
  level : Level
  message : String
  deriving Repr, DecidableEq

/-- The line of an entry. -/
def Entry.line (entry : Entry) : String :=
  entry.level.name ++ " " ++ entry.message

/-- How the journal shows a value on the stack.  A number is marked as one. -/
def Slot.describe : Slot → String
  | .constant value => "Constant(" ++ Layout.marked.write value ++ ")"
  | .variable => "Variable"
  | .curve _ => "Closure(..)"

namespace Journal

/-- Bringing tokens into reverse Polish order: a note for every comma that is
dropped, and the order itself if there is one. -/
def ofArrangement (mode : CommaMode) (tokens : List Token) : List Entry :=
  let steps := (trail (Rpn.step mode) .empty tokens).1
  let commas := steps.filter fun (token, _) => mode = .positional && token.kind.isComma
  let order :=
    match Rpn.arrange mode tokens with
    | .ok ordered => [⟨.trace, "Postfix: " ++ " ".intercalate (ordered.map Token.symbol)⟩]
    | .error _ => []
  commas.map (fun _ => ⟨.trace, "Dropping positional comma"⟩) ++ order

/-- Reducing tokens: the stack after every token, the latest value last. -/
def ofReduction (tokens : List Token) : List Entry :=
  (trail Reduction.step [] tokens).1.map fun (token, stack) =>
    let slots := ", ".intercalate (stack.reverse.map Slot.describe)
    ⟨.trace, "After '" ++ token.symbol ++ "': [" ++ slots ++ "]"⟩

/-- Reading an expression: its text, what is done to its tokens, and why it is
rejected. -/
def ofReading (mode : CommaMode) (text : String) : List Entry :=
  let arrangement :=
    match Token.read text with
    | .ok tokens => ofArrangement mode tokens
    | .error _ => []
  let reduction :=
    match Rpn.read mode text with
    | .ok ordered => ofReduction ordered
    | .error _ => []
  let rejection : List Entry :=
    match Curve.read mode text with
    | .ok _ => []
    | .error cause =>
      [⟨.debug, "Rejected expression " ++ Text.quote text ++ ": " ++ cause.message⟩]
  ⟨.debug, "Parsing expression: " ++ Text.quote text⟩ :: arrangement ++ reduction ++ rejection

/-- Sampling a curve and connecting the samples; a refusal leaves no note. -/
def ofSampling (g : Grid) (rule : BreakRule) (f : Curve) : List Entry :=
  match g.sample f with
  | .error _ => []
  | .ok points =>
    let lines := Polyline.ofPoints rule.parts points
    [⟨.debug, "Sampling " ++ toString points.length ++ " points from "
        ++ Layout.plain.write g.low ++ " with step " ++ Layout.plain.write g.step⟩,
      ⟨.debug, "Split " ++ toString points.length ++ " samples into "
        ++ toString lines.length ++ " polylines"⟩]

/-- Commas that end arguments leave no note. -/
theorem length_ofArrangement_delimited (tokens : List Token) :
    (ofArrangement .delimited tokens).length ≤ 1 := by
  have none_dropped (steps : List (Token × Arrangement)) :
      (steps.filter fun (token, _) =>
        CommaMode.delimited = .positional && token.kind.isComma) = [] := by
    simp
  simp only [ofArrangement, none_dropped]
  split <;> simp

end Journal

end CurveSketch
