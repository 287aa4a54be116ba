import CurveSketch.Polyline
import CurveSketch.Proofs.Binary64.Order

/-!
# Rules that break less

A rule `a` is stricter than `b` if it parts all finite neighbours that `b` parts.  Then
the polylines under `b` are those under `a`, put together again:
`Polyline.isCoarsening_of_stricter` says that every line under `b` is a group of lines under
`a`, one after the other, and that the groups use up all of them.

The two pens go along the same row.  At any moment the coarse line under the pen consists
of the `pending` fine lines, which are finished already, and the fine line under the pen
(`Pen.Refines`).  Each point keeps this (`Pen.Refines.step`): both pens are lifted, or
neither, or only the fine one.
-/

namespace CurveSketch

/-- `a` parts all finite neighbours that `b` parts. -/
def Stricter (a b : Point → Point → Bool) : Prop :=
  ∀ p q : Point, p.isFinite = true → q.isFinite = true → b p q = true → a p q = true

/-- Every coarse line consists of one or more fine lines, one after the other, and the
fine lines are used up in order. -/
def Polyline.IsCoarsening (fine coarse : List Polyline) : Prop :=
  ∃ groups : List (List Polyline),
    [] ∉ groups ∧ groups.flatten = fine ∧ groups.map List.flatten = coarse

/-- A coarsening has no more lines. -/
theorem Polyline.IsCoarsening.length_le {fine coarse : List Polyline}
    (h : IsCoarsening fine coarse) : coarse.length ≤ fine.length := by
  obtain ⟨groups, hnil, rfl, rfl⟩ := h
  induction groups with
  | nil => exact le_rfl
  | cons group rest ih =>
    have hgroup : 0 < group.length :=
      List.length_pos_of_ne_nil fun h => hnil (h ▸ List.mem_cons_self)
    have hrest := ih fun h => hnil (List.mem_cons_of_mem group h)
    rw [List.map_cons, List.length_cons, List.flatten_cons, List.length_append]
    omega

/-! ## Two pens on one row -/

namespace Pen

/-- What the two pens have drawn.  The lines of the coarse pen are the groups, and its
line under the pen is the pending fine lines with the one under the fine pen. -/
structure Refines (fine coarse : Pen) (groups : List (List Polyline))
    (pending : List Polyline) : Prop where
  fine_finished : fine.finished.reverse = groups.flatten ++ pending
  coarse_finished : coarse.finished.reverse = groups.map List.flatten
  coarse_current : coarse.current.reverse = pending.flatten ++ fine.current.reverse
  nil_notMem : [] ∉ groups
  /-- The pens are lifted at the same time. -/
  pending_eq_nil : fine.current = [] → pending = []
  isFinite : ∀ p ∈ fine.current, p.isFinite = true

theorem finished_lift_of_ne_nil {pen : Pen} (h : pen.current ≠ []) :
    pen.lift = ⟨pen.current.reverse :: pen.finished, []⟩ := by
  rw [lift, if_neg (by simpa using h)]

theorem lift_of_eq_nil {pen : Pen} (h : pen.current = []) : pen.lift = pen := by
  rw [lift, h]
  rfl

namespace Refines

variable {fine coarse : Pen} {groups : List (List Polyline)} {pending : List Polyline}
  {a b : Point → Point → Bool} {p : Point}

theorem start : Refines .start .start [] [] :=
  ⟨rfl, rfl, rfl, List.not_mem_nil, fun _ => rfl, fun _ h => absurd h List.not_mem_nil⟩

theorem coarse_current_eq (h : Refines fine coarse groups pending) :
    coarse.current = fine.current ++ pending.flatten.reverse := by
  rw [← List.reverse_inj, h.coarse_current, List.reverse_append, List.reverse_reverse]

/-- Both pens are lifted: the coarse line becomes a group. -/
theorem lift (h : Refines fine coarse groups pending) :
    ∃ next, Refines fine.lift coarse.lift next [] := by
  by_cases hcurrent : fine.current = []
  · have hpending : pending = [] := h.pending_eq_nil hcurrent
    have hcoarse : coarse.current = [] := by
      rw [h.coarse_current_eq, hcurrent, hpending]
      rfl
    rw [lift_of_eq_nil hcurrent, lift_of_eq_nil hcoarse]
    exact ⟨groups, hpending ▸ h⟩
  · have hcoarse : coarse.current ≠ [] := by
      rw [h.coarse_current_eq]
      exact List.append_ne_nil_of_left_ne_nil hcurrent _
    rw [finished_lift_of_ne_nil hcurrent, finished_lift_of_ne_nil hcoarse]
    refine ⟨groups ++ [pending ++ [fine.current.reverse]], ?_, ?_, rfl, ?_, fun _ => rfl,
      fun _ hp => absurd hp List.not_mem_nil⟩
    · simp [h.fine_finished]
    · simp [h.coarse_finished, h.coarse_current]
    · simp [h.nil_notMem]

/-- Neither pen is lifted. -/
theorem draw (h : Refines fine coarse groups pending) (hp : p.isFinite = true) :
    Refines (fine.draw p) (coarse.draw p) groups pending := by
  refine ⟨h.fine_finished, h.coarse_finished, ?_, h.nil_notMem, fun hnil => ?_, ?_⟩
  · simp [Pen.draw, h.coarse_current]
  · cases hnil
  · simpa [Pen.draw, hp] using h.isFinite

/-- Only the fine pen is lifted: its line becomes a pending one. -/
theorem lift_draw (h : Refines fine coarse groups pending) (hcurrent : fine.current ≠ [])
    (hp : p.isFinite = true) :
    Refines (fine.lift.draw p) (coarse.draw p) groups
      (pending ++ [fine.current.reverse]) := by
  rw [finished_lift_of_ne_nil hcurrent]
  refine ⟨?_, h.coarse_finished, ?_, h.nil_notMem, fun hnil => ?_, ?_⟩
  · simp [Pen.draw, h.fine_finished]
  · simp [Pen.draw, h.coarse_current]
  · cases hnil
  · simpa [Pen.draw] using hp

/-- Both pens come from the same point. -/
theorem head?_current (h : Refines fine coarse groups pending) :
    coarse.current.head? = fine.current.head? := by
  rw [h.coarse_current_eq]
  rcases hcurrent : fine.current with _ | ⟨previous, rest⟩
  · rw [h.pending_eq_nil hcurrent]
    rfl
  · rfl

theorem step_of_isFinite (h : Refines fine coarse groups pending) (hab : Stricter a b)
    (hp : p.isFinite = true) :
    ∃ groups' pending', Refines (fine.step a p) (coarse.step b p) groups' pending' := by
  have hhead := h.head?_current
  by_cases hfine : ∃ previous ∈ fine.current.head?, a previous p = true
  · obtain ⟨previous, hprevious, ha⟩ := hfine
    have hmem : previous ∈ fine.current := List.mem_of_mem_head? hprevious
    rw [step_of_parted hprevious hp ha]
    cases hb : b previous p with
    | true =>
      rw [step_of_parted (hhead ▸ hprevious) hp hb]
      obtain ⟨next, hnext⟩ := h.lift
      exact ⟨next, [], hnext.draw hp⟩
    | false =>
      have hcoarse : ∀ q ∈ coarse.current.head?, b q p = false := by
        rw [hhead, hprevious]
        rintro q ⟨⟩
        exact hb
      rw [step_of_connected hcoarse hp]
      exact ⟨groups, _, h.lift_draw (List.ne_nil_of_mem hmem) hp⟩
  · have hfine : ∀ previous ∈ fine.current.head?, a previous p = false := by simpa using hfine
    have hcoarse : ∀ previous ∈ coarse.current.head?, b previous p = false := by
      rw [hhead]
      intro previous hprevious
      have hfinite := h.isFinite previous (List.mem_of_mem_head? hprevious)
      have hb := mt (hab previous p hfinite hp) (by simp [hfine previous hprevious])
      simpa using hb
    rw [step_of_connected hfine hp, step_of_connected hcoarse hp]
    exact ⟨groups, pending, h.draw hp⟩

/-- A point keeps the groups: the coarse pen is lifted only where the fine one is. -/
theorem step (h : Refines fine coarse groups pending) (hab : Stricter a b) (p : Point) :
    ∃ groups' pending', Refines (fine.step a p) (coarse.step b p) groups' pending' := by
  by_cases hp : p.isFinite = true
  · exact h.step_of_isFinite hab hp
  · have hp : p.isFinite = false := by simpa using hp
    obtain ⟨next, hnext⟩ := h.lift
    rw [step_of_not_isFinite hp, step_of_not_isFinite hp]
    exact ⟨next, [], hnext⟩

/-- A run keeps the groups. -/
theorem foldl_step (h : Refines fine coarse groups pending) (hab : Stricter a b)
    (row : List Point) : ∃ groups' pending',
      Refines (row.foldl (Pen.step a) fine) (row.foldl (Pen.step b) coarse) groups' pending' := by
  induction row generalizing fine coarse groups pending with
  | nil => exact ⟨groups, pending, h⟩
  | cons p row ih =>
    obtain ⟨_, _, hstep⟩ := h.step hab p
    exact ih hstep

/-- At the end both pens are lifted. -/
theorem isCoarsening_lines (h : Refines fine coarse groups pending) :
    Polyline.IsCoarsening fine.lines coarse.lines := by
  obtain ⟨next, hnext⟩ := h.lift
  refine ⟨next, hnext.nil_notMem, ?_, hnext.coarse_finished.symm⟩
  rw [Pen.lines, hnext.fine_finished, List.append_nil]

end Refines

end Pen

/-! ## The rules -/

namespace BreakRule

/-- The rule that never parts is the least strict one. -/
theorem stricter_never (a : Point → Point → Bool) : Stricter a never.parts :=
  fun _ _ _ _ h => absurd h Bool.false_ne_true

/-- A lower limit parts what a higher one does. -/
theorem stricter_steeper {low high : Float} (h : low ≤ high) :
    Stricter (steeper low).parts (steeper high).parts := by
  intro p q _ _ hsteep
  rw [parts, decide_eq_true_eq] at hsteep ⊢
  exact Binary64.lt_of_le_of_lt h hsteep

end BreakRule

namespace Polyline

/-- Under a rule that breaks less the polylines are those of the stricter rule, put
together again, and there are no more of them. -/
theorem isCoarsening_of_stricter {a b : Point → Point → Bool} (h : Stricter a b)
    (points : List Point) :
    IsCoarsening (ofPoints a points) (ofPoints b points) ∧
      (ofPoints b points).length ≤ (ofPoints a points).length := by
  obtain ⟨_, _, hrefines⟩ := Pen.Refines.start.foldl_step h points
  have hcoarsening : IsCoarsening (ofPoints a points) (ofPoints b points) :=
    hrefines.isCoarsening_lines
  exact ⟨hcoarsening, hcoarsening.length_le⟩

/-- A stricter rule only cuts further.  Every rule is stricter than the one that never
parts, and a lower limit of steepness is stricter than a higher one. -/
theorem stricter_cuts_further (points : List Point) :
    (∀ a b : Point → Point → Bool, Stricter a b →
        IsCoarsening (ofPoints a points) (ofPoints b points) ∧
          (ofPoints b points).length ≤ (ofPoints a points).length) ∧
      (∀ a : Point → Point → Bool,
        IsCoarsening (ofPoints a points) (ofPoints BreakRule.never.parts points) ∧
          (ofPoints BreakRule.never.parts points).length ≤ (ofPoints a points).length) ∧
      ∀ low high : Float, low ≤ high →
        IsCoarsening (ofPoints (BreakRule.steeper low).parts points)
            (ofPoints (BreakRule.steeper high).parts points) ∧
          (ofPoints (BreakRule.steeper high).parts points).length ≤
            (ofPoints (BreakRule.steeper low).parts points).length := by
  refine ⟨fun a b h => ?_, fun a => ?_, fun low high h => ?_⟩
  · exact isCoarsening_of_stricter h points
  · exact isCoarsening_of_stricter (BreakRule.stricter_never a) points
  · exact isCoarsening_of_stricter (BreakRule.stricter_steeper h) points

/-- A row that rises by two and then by one. -/
def stairs : List Point := [⟨0, 0⟩, ⟨1, 2⟩, ⟨2, 3⟩]

/-- Between the first two of them only the lower limit parts. -/
theorem stricter_cuts_further_stairs :
    (ofPoints (BreakRule.steeper 1).parts stairs).length = 2 ∧
      (ofPoints (BreakRule.steeper 2).parts stairs).length = 1 ∧
      IsCoarsening (ofPoints (BreakRule.steeper 1).parts stairs)
        (ofPoints BreakRule.never.parts stairs) ∧
      IsCoarsening (ofPoints (BreakRule.steeper 1).parts stairs)
        (ofPoints (BreakRule.steeper 2).parts stairs) :=
  ⟨rfl, rfl, ((stricter_cuts_further stairs).1 _ _ (BreakRule.stricter_never _)).1,
    ((stricter_cuts_further stairs).2.2 1 2 (by decide +kernel)).1⟩

end Polyline

end CurveSketch
