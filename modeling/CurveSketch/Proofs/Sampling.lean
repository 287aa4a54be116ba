import CurveSketch.Grid
import CurveSketch.Proofs.Binary64.Whole

/-!
# The number of samples

`Grid.count` compares the number of intervals with the limit as binary64 numbers.  Both
sides of the comparison have gone through rounding: the quotient of the bounds by the
step, and the limit, which may become `2 ^ 64`.

`Grid.count_exact` says that the answers are exact all the same.  Of the limit it is
enough that its rounding does not pass a number (`roundsTo_toFloat`).  The whole number of
intervals is such a number, so if it is less than the rounded limit, then it is less than
the limit.
-/

namespace CurveSketch.Grid

open Binary64

variable {g : Grid}

/-- How many steps lie between the bounds, as computed. -/
def quotient (g : Grid) : Float :=
  (g.high - g.low) / g.step

/-- What the checks say about the bounds and the step. -/
structure Checked (g : Grid) : Prop where
  low : g.low.isFinite = true
  high : g.high.isFinite = true
  lt : value g.low < value g.high
  step : g.step.isFinite = true
  pos : 0 < value g.step

theorem checked (hdomain : g.hasDomain = true) (hstep : g.hasStep = true) : Checked g := by
  obtain ⟨⟨hlow, hhigh⟩, hlt⟩ : (g.low.isFinite = true ∧ g.high.isFinite = true) ∧
      g.low < g.high := by
    simpa [hasDomain] using hdomain
  obtain ⟨hfinite, hpositive⟩ : g.step.isFinite = true ∧ 0 < g.step := by
    simpa [hasStep] using hstep
  rw [lt_iff_value hlow hhigh] at hlt
  rw [lt_iff_value value_zero.1 hfinite, value_zero.2] at hpositive
  exact ⟨hlow, hhigh, hlt, hfinite, hpositive⟩

/-- The difference of the bounds is positive, so it is not rounded below zero.  It may
be infinite, and so may the quotient, but neither is not a number. -/
theorem quotient_cases (hdomain : g.hasDomain = true) (hstep : g.hasStep = true) :
    g.quotient.isFinite = true ∧ 0 ≤ value g.quotient ∨
      g.quotient.toModel.unpack = .infinity .positive := by
  have h := checked hdomain hstep
  have hdifference :=
    (roundsTo_sub h.high h.low).nonneg_or_infinity (sub_nonneg.mpr h.lt.le)
  rcases hdifference with ⟨hnumber, hnonneg⟩ | hinfinity
  · exact (roundsTo_div hnumber h.step h.pos.ne').nonneg_or_infinity (div_nonneg hnonneg h.pos.le)
  · exact Or.inr (unpack_div_of_infinity hinfinity h.step h.pos)

/-- The whole number of intervals is exact. -/
theorem value_intervals (h : g.quotient.isFinite = true) :
    g.intervals.isFinite = true ∧ value g.intervals = ⌊value g.quotient⌋ :=
  value_floor h

theorem toNat_intervals (h : g.quotient.isFinite = true) (hnonneg : 0 ≤ value g.quotient) :
    g.intervals.toUInt64.toNat = min ⌊value g.quotient⌋.toNat (2 ^ 64 - 1) := by
  obtain ⟨hfinite, hvalue⟩ := value_intervals h
  have hfloor : 0 ≤ value g.intervals := by
    rw [hvalue]
    exact_mod_cast Int.floor_nonneg.mpr hnonneg
  rw [toNat_toUInt64 hfinite hfloor, hvalue, Int.floor_intCast]

theorem intervals_of_infinity (h : g.quotient.toModel.unpack = .infinity .positive) :
    g.intervals = g.quotient :=
  floor_of_infinity h

/-- Less than the rounded limit is less than the limit. -/
theorem floor_lt_limit (hquotient : g.quotient.isFinite = true ∧ 0 ≤ value g.quotient ∨
      g.quotient.toModel.unpack = .infinity .positive)
    (h : ¬g.intervals ≥ g.limit.toFloat) :
    (g.quotient.isFinite = true ∧ 0 ≤ value g.quotient) ∧
      ⌊value g.quotient⌋ < g.limit.toNat := by
  have hlimit : RoundsTo g.limit.toNat g.limit.toFloat := roundsTo_toFloat g.limit
  rcases hquotient with hquotient | hinfinity
  · obtain ⟨hfinite, hvalue⟩ := value_intervals hquotient.1
    refine ⟨hquotient, lt_of_not_ge fun hle => h ?_⟩
    refine hlimit.le_of_le hfinite ?_
    rw [hvalue]
    exact_mod_cast hle
  · rw [intervals_of_infinity hinfinity] at h
    exact absurd (le_infinity hlimit.isNaN_eq_false hinfinity) h

/-! ## What the count answers -/

/-- The checks in their order, and what each of them answers. -/
theorem count_cases (g : Grid) :
    g.hasDomain = false ∧ g.count = .error (.invalidDomain g.low g.high) ∨
      g.hasDomain = true ∧ g.hasStep = false ∧ g.count = .error (.invalidStep g.step) ∨
      g.hasDomain = true ∧ g.hasStep = true ∧ g.intervals ≥ g.limit.toFloat ∧
        g.count = .error (.tooManySamples g.intervals.toUInt64 g.limit) ∨
      g.hasDomain = true ∧ g.hasStep = true ∧ ¬g.intervals ≥ g.limit.toFloat ∧
        g.count = .ok (g.intervals.toUInt64 + 1) := by
  rw [count]
  cases hdomain : g.hasDomain with
  | false => exact Or.inl ⟨rfl, rfl⟩
  | true =>
    cases hstep : g.hasStep with
    | false => exact Or.inr (Or.inl ⟨rfl, rfl, rfl⟩)
    | true =>
      by_cases hlimit : g.intervals ≥ g.limit.toFloat
      · exact Or.inr (Or.inr (Or.inl ⟨rfl, rfl, hlimit, by simp [hlimit]⟩))
      · exact Or.inr (Or.inr (Or.inr ⟨rfl, rfl, hlimit, by simp [hlimit]⟩))

theorem checked_of_ok {n : UInt64} (h : g.count = .ok n) : Checked g := by
  rcases count_cases g with ⟨_, hcount⟩ | ⟨_, _, hcount⟩ | ⟨_, _, _, hcount⟩ |
    ⟨hdomain, hstep, _, hcount⟩ <;> rw [hcount] at h
  · cases h
  · cases h
  · cases h
  · exact checked hdomain hstep

/-- An accepted grid has one sample more than there are whole steps, and neither the
conversion nor the addition leaves the machine word. -/
theorem count_of_ok {n : UInt64} (h : g.count = .ok n) :
    g.quotient.isFinite = true ∧ n.toNat ≤ g.limit.toNat ∧
      (n.toNat : Int) = ⌊value g.quotient⌋ + 1 ∧
      n.toNat = g.intervals.toUInt64.toNat + 1 := by
  rcases count_cases g with ⟨_, hcount⟩ | ⟨_, _, hcount⟩ | ⟨_, _, _, hcount⟩ |
    ⟨hdomain, hstep, hlimit, hcount⟩ <;> rw [hcount] at h
  · cases h
  · cases h
  · cases h
  · obtain rfl := Except.ok.inj h
    obtain ⟨⟨hfinite, hnonneg⟩, hlt⟩ := floor_lt_limit (quotient_cases hdomain hstep) hlimit
    have hfloor : 0 ≤ ⌊value g.quotient⌋ := Int.floor_nonneg.mpr hnonneg
    have hword : g.limit.toNat < 2 ^ 64 := g.limit.toNat_lt
    have hintervals := toNat_intervals hfinite hnonneg
    have hsucc : (g.intervals.toUInt64 + 1).toNat = g.intervals.toUInt64.toNat + 1 := by
      rw [UInt64.toNat_add]
      exact Nat.mod_eq_of_lt (by show _ + 1 < _; omega)
    exact ⟨hfinite, by omega, by omega, hsucc⟩

/-- A refused grid is reported with its number of whole steps, or the greatest word. -/
theorem required_of_tooManySamples {required limit : UInt64}
    (h : g.count = .error (.tooManySamples required limit)) :
    g.quotient.isFinite = true ∧
        (required.toNat : Int) = min ⌊value g.quotient⌋ (2 ^ 64 - 1) ∨
      extended g.quotient = ⊤ ∧ required.toNat = 2 ^ 64 - 1 := by
  rcases count_cases g with ⟨_, hcount⟩ | ⟨_, _, hcount⟩ | ⟨hdomain, hstep, _, hcount⟩ |
    ⟨_, _, _, hcount⟩ <;> rw [hcount] at h
  · cases h
  · cases h
  · cases h
    rcases quotient_cases hdomain hstep with ⟨hfinite, hnonneg⟩ | hinfinity
    · have hfloor : 0 ≤ ⌊value g.quotient⌋ := Int.floor_nonneg.mpr hnonneg
      have hintervals := toNat_intervals hfinite hnonneg
      exact Or.inl ⟨hfinite, by omega⟩
    · refine Or.inr ⟨congrArg unpackedExtended hinfinity, ?_⟩
      rw [intervals_of_infinity hinfinity]
      exact toNat_toUInt64_infinity hinfinity
  · cases h

/-- The count is exact: it is within the limit and one more than the whole number of
steps, and nothing wraps around.  What a refusal reports is the whole number of steps, as
far as a word can hold it.  The computed number of steps is a number in any case. -/
theorem count_exact (g : Grid) :
    (g.hasDomain = true → g.hasStep = true → g.quotient.isNaN = false) ∧
      (∀ n, g.count = .ok n →
        g.quotient.isFinite = true ∧ 1 ≤ n.toNat ∧ n.toNat ≤ g.limit.toNat ∧
          (n.toNat : Int) - 1 = ⌊value g.quotient⌋ ∧
          n.toNat = g.intervals.toUInt64.toNat + 1) ∧
      ∀ required limit, g.count = .error (.tooManySamples required limit) →
        g.quotient.isFinite = true ∧
            (required.toNat : Int) = min ⌊value g.quotient⌋ (2 ^ 64 - 1) ∨
          extended g.quotient = ⊤ ∧ required.toNat = 2 ^ 64 - 1 := by
  refine ⟨fun hdomain hstep => ?_, fun n h => ?_, fun _ _ h => required_of_tooManySamples h⟩
  · rcases quotient_cases hdomain hstep with ⟨hfinite, _⟩ | hinfinity
    · exact isNaN_of_isFinite hfinite
    · exact isNaN_of_infinity hinfinity
  · obtain ⟨hfinite, hle, hfloor, hsucc⟩ := count_of_ok h
    exact ⟨hfinite, by omega, hle, by omega, hsucc⟩

/-- Four quarters make five samples. -/
def quarters (limit : UInt64) : Grid :=
  { low := 0, high := 1, step := 0.25, limit }

/-- Five samples are accepted where five are allowed, and refused where four are. -/
theorem count_exact_quarters :
    (quarters 5).quotient.isNaN = false ∧
      (((5 : UInt64).toNat : Int) - 1 = ⌊value (quarters 5).quotient⌋) ∧
      ((quarters 4).quotient.isFinite = true ∧
          ((4 : UInt64).toNat : Int) = min ⌊value (quarters 4).quotient⌋ (2 ^ 64 - 1) ∨
        extended (quarters 4).quotient = ⊤ ∧ (4 : UInt64).toNat = 2 ^ 64 - 1) :=
  ⟨(count_exact (quarters 5)).1 rfl rfl,
    ((count_exact (quarters 5)).2.1 5 rfl).2.2.2.1,
    (count_exact (quarters 4)).2.2 4 4 rfl⟩

end CurveSketch.Grid
