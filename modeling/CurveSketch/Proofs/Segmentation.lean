import CurveSketch.Polyline
import Mathlib.Data.List.FinRange
import Mathlib.Data.List.Range
import Mathlib.Data.List.SplitBy

/-!
# The division into polylines

`Polyline.IsSegmentation` says what a good division of a row of points is.  It
speaks of positions in the row, because two points of a row may be equal.  Every
finite point is in exactly one run and the order is kept, no run is empty,
neighbours in a run stand side by side and are not parted, and between two runs
there is a point that is not finite or a break.

`Polyline.existsUnique_segmentation` says that there is exactly one such division,
and that the pen draws it.

* A division is good exactly if it cuts the finite positions wherever two of them
  are not joined (`isSegmentation_iff`), and `List.splitBy` is the only division
  with this property.
* The pen draws the points of these runs (`ofPoints_eq_drawn`).  The line under the
  pen is a joined run that ends just before the positions that are still to come
  (`StandsBefore`), and a step keeps what will be drawn (`StandsBefore.step`).
-/

namespace CurveSketch

namespace Polyline

variable {parts : Point → Point → Bool} {points : List Point}

/-! ## Positions in a row of points -/

/-- Two positions side by side. -/
def Follows {n : Nat} (i j : Fin n) : Prop := j.val = i.val + 1

/-- Whether there is a finite point at a position. -/
def finiteAt (points : List Point) (i : Fin points.length) : Bool :=
  (points.get i).isFinite

/-- The positions of the finite points, in order. -/
def finitePositions (points : List Point) : List (Fin points.length) :=
  (List.finRange points.length).filter (finiteAt points)

/-- Whether two positions belong to one polyline: they are side by side, and their
points are not parted. -/
def joined (parts : Point → Point → Bool) (points : List Point) (i j : Fin points.length) :
    Bool :=
  j.val == i.val + 1 && !parts (points.get i) (points.get j)

theorem joined_eq_true_iff {i j : Fin points.length} :
    joined parts points i j = true ↔
      Follows i j ∧ parts (points.get i) (points.get j) = false := by
  simp [joined, Follows]

/-- Between two positions there is a point that is not finite. -/
def HasGap (points : List Point) (i j : Fin points.length) : Prop :=
  ∃ k, i < k ∧ k < j ∧ finiteAt points k = false

/-- A division of a row of points into runs of positions, where a run goes on as
long as it can. -/
structure IsSegmentation (parts : Point → Point → Bool) (points : List Point)
    (runs : List (List (Fin points.length))) : Prop where
  /-- No finite point is lost and none comes twice. -/
  flatten_eq : runs.flatten = finitePositions points
  ne_nil : ∀ run ∈ runs, run ≠ []
  /-- Neighbours in a run are neighbours in the row, and are not parted. -/
  connected : ∀ run ∈ runs,
    run.IsChain fun i j => Follows i j ∧ parts (points.get i) (points.get j) = false
  /-- The last point of a run and the first point of the next one are not connected. -/
  separated : runs.IsChain fun run next => ∀ i ∈ run.getLast?, ∀ j ∈ next.head?,
    HasGap points i j ∨ Follows i j ∧ parts (points.get i) (points.get j) = true

/-! ## Finite positions that are neighbours -/

theorem isChain_finRange (n : Nat) : (List.finRange n).IsChain Follows := by
  have hrange : (List.range n).IsChain fun a b => b = a + 1 := by
    rw [List.isChain_range]
    intro m _
    rfl
  rw [← List.map_coe_finRange_eq_range, List.isChain_map] at hrange
  exact hrange

theorem lt_of_isChain {n : Nat} {i j : Fin n} {rest : List (Fin n)}
    (h : (i :: rest).IsChain Follows) (hj : j ∈ rest) : i < j := by
  have hlt : (i :: rest).IsChain (· < ·) := by
    refine h.imp fun a b hab => ?_
    rw [Follows] at hab
    omega
  exact (List.pairwise_cons.mp hlt.pairwise).1 j hj

/-- Where finite positions are not side by side, the points between them are not
finite. -/
theorem isChain_filter {row : List (Fin points.length)} (h : row.IsChain Follows) :
    (row.filter (finiteAt points)).IsChain fun i j => HasGap points i j ∨ Follows i j := by
  induction row with
  | nil => exact .nil
  | cons i rest ih =>
    rw [List.filter_cons]
    split
    · refine (ih h.tail).cons fun j hj => ?_
      rcases rest with _ | ⟨k, rest⟩
      · cases hj
      · have hik : Follows i k := h.rel
        rw [List.filter_cons] at hj
        split at hj
        · obtain rfl : k = j := by simpa using hj
          exact Or.inr hik
        · rename_i hk
          have hmem : j ∈ rest := (List.mem_filter.mp (List.mem_of_mem_head? hj)).1
          refine Or.inl ⟨k, ?_, lt_of_isChain h.tail hmem, by simpa using hk⟩
          rw [Follows] at hik
          omega
    · exact ih h.tail

theorem isChain_finitePositions (points : List Point) :
    (finitePositions points).IsChain fun i j => HasGap points i j ∨ Follows i j :=
  isChain_filter (isChain_finRange points.length)

/-! ## The only division -/

/-- Positions with a gap between them are not side by side. -/
theorem not_follows_of_hasGap {i j : Fin points.length} (h : HasGap points i j) :
    ¬Follows i j := by
  obtain ⟨k, hik, hkj, _⟩ := h
  intro hij
  rw [Follows] at hij
  omega

/-- Two finite neighbours are not joined exactly if there is a gap or a break
between them. -/
theorem joined_eq_false_iff {i j : Fin points.length}
    (h : HasGap points i j ∨ Follows i j) :
    joined parts points i j = false ↔
      HasGap points i j ∨ Follows i j ∧ parts (points.get i) (points.get j) = true := by
  rw [← Bool.not_eq_true, joined_eq_true_iff]
  rcases h with hgap | hfollows
  · have := not_follows_of_hasGap hgap
    tauto
  · have : ¬HasGap points i j := fun hgap => not_follows_of_hasGap hgap hfollows
    cases parts (points.get i) (points.get j) <;> simp [this, hfollows]

/-- Between two runs there is a gap or a break exactly if the end of the first and
the start of the second are not joined. -/
theorem separated_iff {run next : List (Fin points.length)} (hrun : run ≠ [])
    (hnext : next ≠ [])
    (h : ∀ i ∈ run.getLast?, ∀ j ∈ next.head?, HasGap points i j ∨ Follows i j) :
    (∀ i ∈ run.getLast?, ∀ j ∈ next.head?,
      HasGap points i j ∨ Follows i j ∧ parts (points.get i) (points.get j) = true) ↔
      ∃ hrun hnext, joined parts points (run.getLast hrun) (next.head hnext) = false := by
  have hneighbours : HasGap points (run.getLast hrun) (next.head hnext) ∨
      Follows (run.getLast hrun) (next.head hnext) :=
    h _ (List.getLast_mem_getLast? hrun) _ (List.head_mem_head? hnext)
  rw [List.getLast?_eq_some_getLast hrun, List.head?_eq_some_head hnext]
  constructor
  · intro hseparated
    exact ⟨hrun, hnext, (joined_eq_false_iff hneighbours).mpr (hseparated _ rfl _ rfl)⟩
  · rintro ⟨_, _, hcut⟩ i hi j hj
    obtain rfl := Option.some.inj hi
    obtain rfl := Option.some.inj hj
    exact (joined_eq_false_iff hneighbours).mp hcut

theorem isChain_separated_iff {runs : List (List (Fin points.length))} (hnil : [] ∉ runs)
    (h : runs.IsChain fun run next =>
      ∀ i ∈ run.getLast?, ∀ j ∈ next.head?, HasGap points i j ∨ Follows i j) :
    (runs.IsChain fun run next => ∀ i ∈ run.getLast?, ∀ j ∈ next.head?,
      HasGap points i j ∨ Follows i j ∧ parts (points.get i) (points.get j) = true) ↔
      runs.IsChain fun run next =>
        ∃ hrun hnext, joined parts points (run.getLast hrun) (next.head hnext) = false := by
  induction runs with
  | nil => simp
  | cons run rest ih =>
    rcases rest with _ | ⟨next, rest⟩
    · simp
    · have hrun : run ≠ [] := fun hrun => hnil (hrun ▸ List.mem_cons_self)
      have hrest : [] ∉ next :: rest := fun hmem => hnil (List.mem_cons_of_mem run hmem)
      have hnext : next ≠ [] := fun hnext => hrest (hnext ▸ List.mem_cons_self)
      rw [List.isChain_cons_cons, List.isChain_cons_cons, separated_iff hrun hnext h.rel,
        ih hrest h.tail]

/-- A division is good exactly if it cuts the finite positions where they are not
joined. -/
theorem isSegmentation_iff {runs : List (List (Fin points.length))} :
    IsSegmentation parts points runs ↔
      (finitePositions points).splitBy (joined parts points) = runs := by
  have hconnected (run : List (Fin points.length)) :
      (run.IsChain fun i j => joined parts points i j = true) ↔
        run.IsChain fun i j => Follows i j ∧ parts (points.get i) (points.get j) = false :=
    List.IsChain.iff fun _ _ => joined_eq_true_iff
  have hneighbours (hflatten : finitePositions points = runs.flatten) (hnil : [] ∉ runs) :
      runs.IsChain fun run next =>
        ∀ i ∈ run.getLast?, ∀ j ∈ next.head?, HasGap points i j ∨ Follows i j := by
    have hfinite := isChain_finitePositions points
    rw [hflatten, List.isChain_flatten hnil] at hfinite
    exact hfinite.2
  rw [List.splitBy_eq_iff]
  constructor
  · intro h
    have hnil : [] ∉ runs := fun hmem => h.ne_nil [] hmem rfl
    refine ⟨h.flatten_eq.symm, hnil, ?_, ?_⟩
    · exact fun run hrun => (hconnected run).mpr (h.connected run hrun)
    · exact (isChain_separated_iff hnil (hneighbours h.flatten_eq.symm hnil)).mp h.separated
  · rintro ⟨hflatten, hnil, hjoined, hcut⟩
    refine ⟨hflatten.symm, ?_, ?_, ?_⟩
    · rintro run hrun rfl
      exact hnil hrun
    · exact fun run hrun => (hconnected run).mp (hjoined run hrun)
    · exact (isChain_separated_iff hnil (hneighbours hflatten hnil)).mpr hcut

/-! ## The pen draws it -/

/-- The runs of a row of finite positions, as points. -/
def drawn (parts : Point → Point → Bool) (points : List Point)
    (row : List (Fin points.length)) : List Polyline :=
  (row.splitBy (joined parts points)).map (List.map points.get)

/-- A row that comes after a position that is not finite is drawn on its own. -/
theorem drawn_append_of_gap {row rest : List (Fin points.length)} {k : Fin points.length}
    (hrow : ∀ i ∈ row.getLast?, Follows i k) (hrest : (k :: rest).IsChain Follows) :
    drawn parts points (row ++ rest.filter (finiteAt points)) =
      drawn parts points row ++ drawn parts points (rest.filter (finiteAt points)) := by
  rw [drawn, List.splitBy_append, List.map_append, drawn, drawn]
  intro i hi j hj
  have hik : Follows i k := hrow i hi
  have hkj : k < j :=
    lt_of_isChain hrest (List.mem_filter.mp (List.mem_of_mem_head? hj)).1
  rw [← Bool.not_eq_true, joined_eq_true_iff]
  rintro ⟨hij, _⟩
  rw [Follows] at hik hij
  omega

/-- So is one that starts with a position that is not joined to the row. -/
theorem drawn_append_cons {row rest : List (Fin points.length)} {j : Fin points.length}
    (hrow : ∀ i ∈ row.getLast?, joined parts points i j = false) :
    drawn parts points (row ++ j :: rest) =
      drawn parts points row ++ drawn parts points (j :: rest) := by
  rw [drawn, List.splitBy_append_cons rest hrow, List.map_append, drawn, drawn]

/-- The pen stands before the positions `rest`.  Under it is the joined run `under`,
the latest position first, which ends just before them. -/
structure StandsBefore (parts : Point → Point → Bool) (points : List Point) (pen : Pen)
    (under rest : List (Fin points.length)) : Prop where
  current_eq : pen.current = under.map points.get
  isChain_under : under.reverse.IsChain fun i j => joined parts points i j = true
  follows : (under.head?.toList ++ rest).IsChain Follows

/-- The lines that there will be at the end. -/
def planned (parts : Point → Point → Bool) (pen : Pen)
    (under rest : List (Fin points.length)) : List Polyline :=
  pen.finished.reverse ++ drawn parts points (under.reverse ++ rest.filter (finiteAt points))

namespace StandsBefore

variable {pen : Pen} {under rest : List (Fin points.length)} {i j : Fin points.length}

/-- Lifting the pen finishes the run under it. -/
theorem lift_eq (h : StandsBefore parts points pen under rest) :
    pen.lift = ⟨(drawn parts points under.reverse).reverse ++ pen.finished, []⟩ := by
  obtain ⟨finished, current⟩ := pen
  obtain rfl : current = under.map points.get := h.current_eq
  rcases under with _ | ⟨i, under⟩
  · rfl
  · rw [drawn, List.splitBy_of_isChain (by simp) h.isChain_under]
    simp [Pen.lift]

theorem follows_of_mem_head? (h : StandsBefore parts points pen under (j :: rest))
    (hi : i ∈ under.head?) : Follows i j := by
  have hfollows := h.follows
  rw [Option.mem_def.mp hi] at hfollows
  exact hfollows.rel

theorem isChain_rest (h : StandsBefore parts points pen under rest) :
    rest.IsChain Follows :=
  (List.isChain_append.mp h.follows).2.1

theorem step_of_not_finiteAt (h : StandsBefore parts points pen under (j :: rest))
    (hj : finiteAt points j = false) :
    StandsBefore parts points (pen.step parts (points.get j)) [] rest ∧
      planned parts (pen.step parts (points.get j)) [] rest =
        planned parts pen under (j :: rest) := by
  rw [Pen.step_of_not_isFinite hj, h.lift_eq]
  refine ⟨⟨rfl, .nil, h.isChain_rest.tail⟩, ?_⟩
  have hlast : ∀ i ∈ under.reverse.getLast?, Follows i j := by
    rw [List.getLast?_reverse]
    exact fun i hi => h.follows_of_mem_head? hi
  have hdrawn : drawn parts points (under.reverse ++ rest.filter (finiteAt points)) =
      drawn parts points under.reverse ++ drawn parts points (rest.filter (finiteAt points)) :=
    drawn_append_of_gap hlast h.isChain_rest
  simp [planned, hj, hdrawn]

theorem step_of_parted (h : StandsBefore parts points pen under (j :: rest))
    (hj : finiteAt points j = true) (hi : i ∈ under.head?)
    (hparts : parts (points.get i) (points.get j) = true) :
    StandsBefore parts points (pen.step parts (points.get j)) [j] rest ∧
      planned parts (pen.step parts (points.get j)) [j] rest =
        planned parts pen under (j :: rest) := by
  have hprevious : points.get i ∈ pen.current.head? := by
    rw [h.current_eq, List.head?_map]
    exact Option.mem_map_of_mem points.get hi
  rw [Pen.step_of_parted hprevious hj hparts, h.lift_eq]
  refine ⟨⟨rfl, .singleton j, h.isChain_rest⟩, ?_⟩
  have hlast : ∀ k ∈ under.reverse.getLast?, joined parts points k j = false := by
    rw [List.getLast?_reverse]
    intro k hk
    obtain rfl : i = k := Option.mem_unique hi hk
    rw [joined, hparts, Bool.not_true, Bool.and_false]
  have hdrawn : drawn parts points (under.reverse ++ j :: rest.filter (finiteAt points)) =
      drawn parts points under.reverse ++
        drawn parts points (j :: rest.filter (finiteAt points)) :=
    drawn_append_cons hlast
  simp [planned, Pen.draw, hj, hdrawn]

theorem step_of_connected (h : StandsBefore parts points pen under (j :: rest))
    (hj : finiteAt points j = true)
    (hconnected : ∀ i ∈ under.head?, parts (points.get i) (points.get j) = false) :
    StandsBefore parts points (pen.step parts (points.get j)) (j :: under) rest ∧
      planned parts (pen.step parts (points.get j)) (j :: under) rest =
        planned parts pen under (j :: rest) := by
  have hprevious : ∀ previous ∈ pen.current.head?, parts previous (points.get j) = false := by
    rw [h.current_eq, List.head?_map]
    intro previous hmem
    obtain ⟨i, hi, rfl⟩ := Option.mem_map.mp hmem
    exact hconnected i hi
  rw [Pen.step_of_connected hprevious hj]
  refine ⟨⟨?_, ?_, h.isChain_rest⟩, ?_⟩
  · rw [Pen.draw, h.current_eq, List.map_cons]
  · rw [List.reverse_cons, List.isChain_append, List.getLast?_reverse]
    refine ⟨h.isChain_under, .singleton j, fun i hi k hk => ?_⟩
    obtain rfl : j = k := by simpa using hk
    exact joined_eq_true_iff.mpr ⟨h.follows_of_mem_head? hi, hconnected i hi⟩
  · simp [planned, Pen.draw, hj]

/-- A step keeps what will be drawn. -/
theorem step (h : StandsBefore parts points pen under (j :: rest)) :
    ∃ next, StandsBefore parts points (pen.step parts (points.get j)) next rest ∧
      planned parts (pen.step parts (points.get j)) next rest =
        planned parts pen under (j :: rest) := by
  by_cases hj : finiteAt points j = true
  · by_cases hparted : ∃ i ∈ under.head?, parts (points.get i) (points.get j) = true
    · obtain ⟨i, hi, hparts⟩ := hparted
      exact ⟨[j], h.step_of_parted hj hi hparts⟩
    · exact ⟨j :: under, h.step_of_connected hj (by simpa using hparted)⟩
  · exact ⟨[], h.step_of_not_finiteAt (by simpa using hj)⟩

/-- A run draws what is planned. -/
theorem lines_foldl_step (h : StandsBefore parts points pen under rest) :
    ((rest.map points.get).foldl (Pen.step parts) pen).lines = planned parts pen under rest := by
  induction rest generalizing pen under with
  | nil => simp [Pen.lines, h.lift_eq, planned]
  | cons j rest ih =>
    obtain ⟨next, hnext, hplanned⟩ := h.step
    rw [List.map_cons, List.foldl_cons, ih hnext, hplanned]

end StandsBefore

theorem ofPoints_eq_drawn (parts : Point → Point → Bool) (points : List Point) :
    ofPoints parts points = drawn parts points (finitePositions points) := by
  have hstart : StandsBefore parts points .start [] (List.finRange points.length) :=
    ⟨rfl, .nil, isChain_finRange points.length⟩
  have hlines := hstart.lines_foldl_step
  rw [List.map_get_finRange] at hlines
  exact hlines

/-- Every row of points has exactly one good division, and its runs are the polylines
of the row. -/
theorem existsUnique_segmentation (parts : Point → Point → Bool) (points : List Point) :
    ∃ runs, IsSegmentation parts points runs ∧
      ofPoints parts points = runs.map (List.map points.get) ∧
      ∀ other, IsSegmentation parts points other → other = runs := by
  refine ⟨(finitePositions points).splitBy (joined parts points), ?_, ?_, ?_⟩
  · exact isSegmentation_iff.mpr rfl
  · exact ofPoints_eq_drawn parts points
  · intro other hother
    exact (isSegmentation_iff.mp hother).symm

end Polyline

end CurveSketch
