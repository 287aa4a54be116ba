/-!
# Polylines

Points that belong to one connected stretch of a curve form a polyline.  A pen
goes along the row of points.  It is lifted at a point that is not finite, and
between two finite neighbours that the rule for breaks parts.  Points that are
not finite are in no polyline.
-/

namespace CurveSketch

/-- A point of the plane. -/
structure Point where
  x : Float
  y : Float

/-- Whether both coordinates are finite. -/
def Point.isFinite (p : Point) : Bool :=
  p.x.isFinite && p.y.isFinite

/-! ## Breaks -/

/-- When two finite neighbours are not connected. -/
inductive BreakRule where
  /-- They always are. -/
  | never
  /-- They are not if the line through them is steeper than the limit, as next to
  a pole that no point hits. -/
  | steeper (limit : Float)

namespace BreakRule

/-- The rule of a sketch that asks for no other. -/
def default : BreakRule := steeper 999

/-- Whether the rule parts `p` from its right neighbour `q`.  A slope that is not
a number is not steep. -/
def parts : BreakRule → Point → Point → Bool
  | never, _, _ => false
  | steeper limit, p, q => ((q.y - p.y) / (q.x - p.x)).abs > limit

end BreakRule

/-! ## Polylines -/

/-- A connected stretch of points. -/
abbrev Polyline := List Point

/-- A pen in the middle of a row of points. -/
structure Pen where
  /-- The lines that are finished, the latest one first. -/
  finished : List Polyline
  /-- The points of the line under the pen, the latest one first.  There are none
  while the pen is lifted. -/
  current : List Point

namespace Pen

/-- Nothing is drawn yet. -/
def start : Pen := ⟨[], []⟩

/-- Finishes the line under the pen, if there is one. -/
def lift (pen : Pen) : Pen :=
  if pen.current.isEmpty then pen else ⟨pen.current.reverse :: pen.finished, []⟩

/-- Goes on to a point. -/
def draw (pen : Pen) (p : Point) : Pen :=
  { pen with current := p :: pen.current }

/-- What one point does. -/
def step (parts : Point → Point → Bool) (pen : Pen) (p : Point) : Pen :=
  if !p.isFinite then pen.lift
  else
    match pen.current with
    | previous :: _ => if parts previous p then pen.lift.draw p else pen.draw p
    | [] => pen.draw p

/-- The lines in order, the one under the pen included. -/
def lines (pen : Pen) : List Polyline :=
  pen.lift.finished.reverse

end Pen

/-- The polylines of a row of points, in order. -/
def Polyline.ofPoints (parts : Point → Point → Bool) (points : List Point) : List Polyline :=
  (points.foldl (Pen.step parts) .start).lines

/-! ## What one point does -/

namespace Pen

variable {parts : Point → Point → Bool} {pen : Pen} {p : Point}

theorem step_of_not_isFinite (hp : p.isFinite = false) : pen.step parts p = pen.lift := by
  simp [step, hp]

/-- After a break the pen starts a new line. -/
theorem step_of_parted {previous : Point} (hprevious : previous ∈ pen.current.head?)
    (hp : p.isFinite = true) (hparts : parts previous p = true) :
    pen.step parts p = pen.lift.draw p := by
  rcases hcurrent : pen.current with _ | ⟨q, rest⟩
  · rw [hcurrent] at hprevious
    cases hprevious
  · obtain rfl : q = previous := by simpa [hcurrent] using hprevious
    simp [step, hp, hcurrent, hparts]

/-- Without a break it goes on, from the point before or from nothing. -/
theorem step_of_connected (h : ∀ previous ∈ pen.current.head?, parts previous p = false)
    (hp : p.isFinite = true) : pen.step parts p = pen.draw p := by
  rcases hcurrent : pen.current with _ | ⟨previous, rest⟩
  · simp [step, hp, hcurrent]
  · have hparts : parts previous p = false := h previous (by rw [hcurrent]; rfl)
    simp [step, hp, hcurrent, hparts]

end Pen

/-! ## The pen keeps the finite points -/

namespace Pen

/-- All points that are drawn, in order. -/
def points (pen : Pen) : List Point :=
  pen.finished.reverse.flatten ++ pen.current.reverse

@[simp]
theorem points_lift (pen : Pen) : pen.lift.points = pen.points := by
  unfold lift
  split
  · rfl
  · simp [points]

@[simp]
theorem points_draw (pen : Pen) (p : Point) : (pen.draw p).points = pen.points ++ [p] := by
  simp [points, draw]

/-- A step draws its point exactly if the point is finite. -/
theorem points_step (parts : Point → Point → Bool) (pen : Pen) (p : Point) :
    (pen.step parts p).points = pen.points ++ [p].filter Point.isFinite := by
  by_cases hp : p.isFinite = true
  · by_cases hparted : ∃ previous ∈ pen.current.head?, parts previous p = true
    · obtain ⟨previous, hprevious, hparts⟩ := hparted
      rw [step_of_parted hprevious hp hparts]
      simp [hp]
    · rw [step_of_connected (by simpa using hparted) hp]
      simp [hp]
  · rw [step_of_not_isFinite (by simpa using hp)]
    simp [hp]

theorem points_foldl_step (parts : Point → Point → Bool) (row : List Point) (pen : Pen) :
    (row.foldl (step parts) pen).points = pen.points ++ row.filter Point.isFinite := by
  induction row generalizing pen with
  | nil => simp
  | cons p row ih =>
    rw [List.foldl_cons, ih, points_step, List.append_assoc, ← List.filter_append,
      List.singleton_append]

/-- Lifting the pen leaves no line under it. -/
theorem current_lift (pen : Pen) : pen.lift.current = [] := by
  unfold lift
  split
  · rename_i h
    exact List.isEmpty_iff.mp h
  · rfl

theorem flatten_lines (pen : Pen) : pen.lines.flatten = pen.points := by
  rw [← points_lift, points, current_lift]
  simp [lines]

end Pen

namespace Polyline

theorem ofPoints_nil (parts : Point → Point → Bool) : ofPoints parts [] = [] := rfl

/-- No finite point is lost and none is drawn twice. -/
theorem flatten_ofPoints (parts : Point → Point → Bool) (points : List Point) :
    (ofPoints parts points).flatten = points.filter Point.isFinite := by
  rw [ofPoints, Pen.flatten_lines, Pen.points_foldl_step]
  rfl

/-- All points of a polyline are finite. -/
theorem isFinite_of_mem {parts : Point → Point → Bool} {points : List Point}
    {line : Polyline} (hline : line ∈ ofPoints parts points) {p : Point} (hp : p ∈ line) :
    p.isFinite := by
  have hmem : p ∈ (ofPoints parts points).flatten := List.mem_flatten.mpr ⟨line, hline, hp⟩
  rw [flatten_ofPoints] at hmem
  exact (List.mem_filter.mp hmem).2

end Polyline

end CurveSketch
