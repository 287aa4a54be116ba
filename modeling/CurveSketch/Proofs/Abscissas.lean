import CurveSketch.Proofs.Binary64.Error
import CurveSketch.Proofs.Sampling

/-!
# Where a curve is sampled

The abscissas are computed by a product and a sum, and their number by a difference, a
quotient and a floor.  All of these operations are rounded.

* The operations keep the order, so the abscissas never decrease (`abscissa_mono`).  The first
  one is the lower bound (`value_abscissa_zero`), and so none is below.
* The upper bound may be passed, because two roundings may go up.  A finite abscissa passes it
  by no more than a `2 ^ 50`-th part of the greater bound (`value_abscissa_le`), and bounds up
  to `2 ^ 1022` have finite abscissas only (`isFinite_abscissa`).
* If the bounds and the step are multiples of one unit, and the bounds are less than `2 ^ 53`
  units from zero and from each other (`Aligned`), then nothing is rounded but the quotient.
  This is rounded by too little to count another step (`Aligned.mul_step_le`), so the abscissas
  are exact and stay inside.

`abscissas_of_sample` puts this together, and `not_forall_le_high` has a grid that is left.
-/

namespace CurveSketch.Grid

open Binary64

variable {g : Grid} {i j : Nat}

/-! ## The order of the abscissas -/

/-- How far the abscissa is from the lower bound, as computed. -/
def offset (g : Grid) (index : Nat) : Float :=
  index.toUInt64.toFloat * g.step

theorem abscissa_eq (g : Grid) (index : Nat) : g.abscissa index = g.low + g.offset index := rfl

theorem roundsTo_index (hi : i < 2 ^ 64) : RoundsTo i i.toUInt64.toFloat := by
  have hrounds := roundsTo_toFloat i.toUInt64
  rwa [show i.toUInt64.toNat = i from Nat.mod_eq_of_lt hi] at hrounds

theorem value_index (hi : i ≤ 2 ^ 53) : value i.toUInt64.toFloat = i := by
  have hword : i.toUInt64.toNat = i := Nat.mod_eq_of_lt (by omega)
  rw [value_toFloat (by omega), hword]

theorem index_mono (hij : i ≤ j) (hj : j < 2 ^ 64) :
    i.toUInt64.toFloat ≤ j.toUInt64.toFloat := by
  have hrounds := roundsTo_index hj
  rcases hij.lt_or_eq with hlt | rfl
  · exact (roundsTo_index (hlt.trans hj)).mono hrounds (by exact_mod_cast hlt)
  · exact le_self hrounds.isNaN_eq_false

theorem value_index_nonneg (hi : i < 2 ^ 64) : 0 ≤ value i.toUInt64.toFloat := by
  have hle := index_mono (Nat.zero_le i) hi
  rw [le_iff_value (isFinite_toFloat _) (isFinite_toFloat _), value_index (Nat.zero_le _),
    Nat.cast_zero] at hle
  exact hle

theorem roundsTo_offset (h : Checked g) (index : Nat) :
    RoundsTo (value index.toUInt64.toFloat * value g.step) (g.offset index) :=
  roundsTo_mul (isFinite_toFloat _) h.step

/-- An offset may be infinite, but it is not negative. -/
theorem offset_cases (h : Checked g) (hi : i < 2 ^ 64) :
    (g.offset i).isFinite = true ∧ 0 ≤ value (g.offset i) ∨
      (g.offset i).toModel.unpack = .infinity .positive :=
  (roundsTo_offset h i).nonneg_or_infinity (mul_nonneg (value_index_nonneg hi) h.pos.le)

theorem offset_mono (h : Checked g) (hij : i ≤ j) (hj : j < 2 ^ 64) : g.offset i ≤ g.offset j :=
  mul_le_mul_of_le h.step h.pos (isFinite_toFloat _) (isFinite_toFloat _) (index_mono hij hj)

/-- An abscissa is a rounded sum, or it is infinite because its offset is. -/
theorem abscissa_cases (h : Checked g) (hi : i < 2 ^ 64) :
    ((g.offset i).isFinite = true ∧ 0 ≤ value (g.offset i) ∧
        RoundsTo (value g.low + value (g.offset i)) (g.abscissa i)) ∨
      (g.offset i).toModel.unpack = .infinity .positive ∧
        (g.abscissa i).toModel.unpack = .infinity .positive := by
  rw [abscissa_eq]
  rcases offset_cases h hi with ⟨hfinite, hnonneg⟩ | hinfinity
  · exact Or.inl ⟨hfinite, hnonneg, roundsTo_add h.low hfinite⟩
  · exact Or.inr ⟨hinfinity, unpack_add_of_infinity h.low hinfinity⟩

theorem isNaN_abscissa (h : Checked g) (hi : i < 2 ^ 64) : (g.abscissa i).isNaN = false := by
  rcases abscissa_cases h hi with ⟨_, _, hrounds⟩ | ⟨_, hinfinity⟩
  · exact hrounds.isNaN_eq_false
  · exact isNaN_of_infinity hinfinity

/-- The abscissas never decrease. -/
theorem abscissa_mono (h : Checked g) (hij : i ≤ j) (hj : j < 2 ^ 64) :
    g.abscissa i ≤ g.abscissa j := by
  have hi : i < 2 ^ 64 := hij.trans_lt hj
  have hle := offset_mono h hij hj
  rcases abscissa_cases h hj with ⟨hfinite, _, _⟩ | ⟨_, hinfinity⟩
  · rcases abscissa_cases h hi with ⟨hfinite', _, _⟩ | ⟨hinfinity', _⟩
    · exact add_le_add_of_le h.low hfinite' hfinite hle
    · exact absurd hle (not_infinity_le hinfinity' hfinite)
  · exact le_infinity (isNaN_abscissa h hi) hinfinity

/-- The first abscissa is the lower bound. -/
theorem value_abscissa_zero (h : Checked g) :
    (g.abscissa 0).isFinite = true ∧ value (g.abscissa 0) = value g.low := by
  have hoffset := roundsTo_offset h 0
  rw [value_index (Nat.zero_le _), Nat.cast_zero, zero_mul, ← value_zero.2] at hoffset
  obtain ⟨hfinite, hzero⟩ := hoffset.value_eq value_zero.1
  have hsum := roundsTo_add h.low hfinite
  rw [hzero, value_zero.2, add_zero] at hsum
  exact hsum.value_eq h.low

theorem low_le_abscissa (h : Checked g) (hi : i < 2 ^ 64) : g.low ≤ g.abscissa i := by
  rcases abscissa_cases h hi with ⟨_, hnonneg, hrounds⟩ | ⟨_, hinfinity⟩
  · exact hrounds.ge_of_ge h.low (le_add_of_nonneg_right hnonneg)
  · exact le_infinity (isNaN_of_isFinite h.low) hinfinity

/-! ## The whole steps -/

/-- A quotient that is finite has a finite dividend. -/
theorem isFinite_difference (h : Checked g) (hquotient : g.quotient.isFinite = true) :
    (g.high - g.low).isFinite = true := by
  have hdifference :=
    (roundsTo_sub h.high h.low).nonneg_or_infinity (sub_nonneg.mpr h.lt.le)
  rcases hdifference with ⟨hfinite, _⟩ | hinfinity
  · exact hfinite
  · have hinfinite : g.quotient.toModel.unpack = .infinity .positive :=
      unpack_div_of_infinity hinfinity h.step h.pos
    rw [isFinite_of_infinity hinfinite] at hquotient
    cases hquotient

theorem value_difference_le (h : Checked g) (hquotient : g.quotient.isFinite = true) :
    value (g.high - g.low) ≤ (value g.high - value g.low) * (1 + 1 / 2 ^ 53) := by
  obtain ⟨n, hn⟩ := exists_value_eq_mul_least h.low
  obtain ⟨m, hm⟩ := exists_value_eq_mul_least h.high
  have herror := (roundsTo_sub h.high h.low).abs_sub_le_mul (isFinite_difference h hquotient)
    ⟨m - n, by rw [hm, hn, Int.cast_sub, sub_mul]⟩
  rw [abs_of_pos (sub_pos.mpr h.lt)] at herror
  have hle := (le_abs_self _).trans herror
  linarith

theorem value_difference_nonneg (h : Checked g) (hquotient : g.quotient.isFinite = true) :
    0 ≤ value (g.high - g.low) := by
  have hle := (roundsTo_sub h.high h.low).ge_of_ge value_zero.1
    (value_zero.2.trans_le (sub_nonneg.mpr h.lt.le))
  rwa [le_iff_value value_zero.1 (isFinite_difference h hquotient), value_zero.2] at hle

/-- The whole steps pass the computed difference by a `2 ^ 53`-th part at most.  If there is a
step at all, then the quotient is not too small for its error to be relative. -/
theorem floor_mul_step_le (h : Checked g) (hquotient : g.quotient.isFinite = true) :
    ⌊value g.quotient⌋ * value g.step ≤ value (g.high - g.low) * (1 + 1 / 2 ^ 53) := by
  have hnonneg := value_difference_nonneg h hquotient
  have hrounds : RoundsTo (value (g.high - g.low) / value g.step) g.quotient :=
    roundsTo_div (isFinite_difference h hquotient) h.step h.pos.ne'
  rcases le_or_gt ⌊value g.quotient⌋ 0 with hnone | hsome
  · have hcast : (⌊value g.quotient⌋ : Rat) ≤ 0 := by exact_mod_cast hnone
    exact (mul_nonpos_of_nonpos_of_nonneg hcast h.pos.le).trans (by positivity)
  · have hone : (1 : Rat) ≤ ⌊value g.quotient⌋ := by exact_mod_cast hsome
    have hle := hrounds.value_le_mul_of_one_le hquotient (hone.trans (Int.floor_le _))
    calc ⌊value g.quotient⌋ * value g.step ≤ value g.quotient * value g.step :=
          mul_le_mul_of_nonneg_right (Int.floor_le _) h.pos.le
      _ ≤ value (g.high - g.low) / value g.step * (1 + 1 / 2 ^ 53) * value g.step :=
          mul_le_mul_of_nonneg_right hle h.pos.le
      _ = value (g.high - g.low) * (1 + 1 / 2 ^ 53) := by
          rw [mul_right_comm, div_mul_cancel₀ _ h.pos.ne']

/-- The whole steps are a number, so an index that is rounded does not pass them. -/
theorem value_index_le (hquotient : g.quotient.isFinite = true) (hi : i < 2 ^ 64)
    (hsteps : (i : Int) ≤ ⌊value g.quotient⌋) :
    value i.toUInt64.toFloat ≤ ⌊value g.quotient⌋ := by
  obtain ⟨hfinite, hvalue⟩ := value_intervals hquotient
  have hle := (roundsTo_index hi).le_of_le hfinite (by rw [hvalue]; exact_mod_cast hsteps)
  rwa [le_iff_value (isFinite_toFloat _) hfinite, hvalue] at hle

/-- The exact distance of an index is what the bounds are apart, up to two roundings. -/
theorem index_mul_step_le (h : Checked g) (hquotient : g.quotient.isFinite = true)
    (hi : i < 2 ^ 64) (hsteps : (i : Int) ≤ ⌊value g.quotient⌋) :
    value i.toUInt64.toFloat * value g.step ≤
      (value g.high - value g.low) * (1 + 1 / 2 ^ 53) ^ 2 := by
  calc value i.toUInt64.toFloat * value g.step ≤ ⌊value g.quotient⌋ * value g.step :=
        mul_le_mul_of_nonneg_right (value_index_le hquotient hi hsteps) h.pos.le
    _ ≤ value (g.high - g.low) * (1 + 1 / 2 ^ 53) := floor_mul_step_le h hquotient
    _ ≤ (value g.high - value g.low) * (1 + 1 / 2 ^ 53) * (1 + 1 / 2 ^ 53) :=
        mul_le_mul_of_nonneg_right (value_difference_le h hquotient) (by norm_num)
    _ = (value g.high - value g.low) * (1 + 1 / 2 ^ 53) ^ 2 := by ring

/-! ## How far the upper bound is passed -/

/-- An offset has a relative error.  Up to `2 ^ 53` the index is exact and the product consists
of least units, and a greater index makes a product that is not too small. -/
theorem abs_offset_sub_le (h : Checked g) (hi : i < 2 ^ 64)
    (hfinite : (g.offset i).isFinite = true) :
    |value (g.offset i) - value i.toUInt64.toFloat * value g.step| ≤
      |value i.toUInt64.toFloat * value g.step| / 2 ^ 53 := by
  have hrounds := roundsTo_offset h i
  obtain ⟨n, hn⟩ := exists_value_eq_mul_least h.step
  rcases le_or_gt i (2 ^ 53) with hsmall | hgreat
  · refine hrounds.abs_sub_le_mul hfinite ⟨i * n, ?_⟩
    rw [value_index hsmall, hn, Int.cast_mul, Int.cast_natCast, mul_assoc]
  · refine hrounds.abs_sub_le_mul_of_le hfinite ?_
    have hindex : (2 : Rat) ^ 53 ≤ value i.toUInt64.toFloat := by
      have hle := index_mono hgreat.le hi
      rw [le_iff_value (isFinite_toFloat _) (isFinite_toFloat _), value_index le_rfl] at hle
      exact_mod_cast hle
    have hleast := least_le_value h.step h.pos
    rw [abs_of_nonneg (mul_nonneg (value_index_nonneg hi) h.pos.le)]
    calc (2 : Rat) ^ (-1022 : Int) ≤ 2 ^ (53 + -1074 : Int) :=
          zpow_le_zpow_right₀ one_le_two (by norm_num)
      _ = 2 ^ 53 * 2 ^ (-1074 : Int) := by
          rw [zpow_add₀ two_ne_zero]
          rfl
      _ ≤ value i.toUInt64.toFloat * value g.step :=
          mul_le_mul hindex hleast (zpow_nonneg two_pos.le _) (value_index_nonneg hi)

/-- An offset is what the bounds are apart, up to three roundings. -/
theorem value_offset_le (h : Checked g) (hquotient : g.quotient.isFinite = true)
    (hi : i < 2 ^ 64) (hsteps : (i : Int) ≤ ⌊value g.quotient⌋)
    (hfinite : (g.offset i).isFinite = true) :
    value (g.offset i) ≤ (value g.high - value g.low) * (1 + 1 / 2 ^ 53) ^ 3 := by
  have herror := abs_offset_sub_le h hi hfinite
  rw [abs_of_nonneg (mul_nonneg (value_index_nonneg hi) h.pos.le)] at herror
  have habove := (le_abs_self _).trans herror
  calc value (g.offset i) ≤ value i.toUInt64.toFloat * value g.step * (1 + 1 / 2 ^ 53) := by
        linarith
    _ ≤ (value g.high - value g.low) * (1 + 1 / 2 ^ 53) ^ 2 * (1 + 1 / 2 ^ 53) :=
        mul_le_mul_of_nonneg_right (index_mul_step_le h hquotient hi hsteps) (by norm_num)
    _ = (value g.high - value g.low) * (1 + 1 / 2 ^ 53) ^ 3 := by ring

/-- The sum of the lower bound and three roundings, with a fourth one. -/
theorem le_add_of_roundings {low high offset sum great : Rat} (hlt : low < high)
    (hlow : |low| ≤ great) (hhigh : |high| ≤ great) (hnonneg : 0 ≤ offset)
    (hoffset : offset ≤ (high - low) * (1 + 1 / 2 ^ 53) ^ 3)
    (hsum : |sum - (low + offset)| ≤ |low + offset| / 2 ^ 53) :
    sum ≤ high + great / 2 ^ 50 := by
  obtain ⟨hlow, _⟩ := abs_le.mp hlow
  obtain ⟨_, hhigh⟩ := abs_le.mp hhigh
  have hcube : ((1 + 1 / 2 ^ 53) ^ 3 : Rat) ≤ 1 + 13 / 4 / 2 ^ 53 := by norm_num
  have hcut := hoffset.trans (mul_le_mul_of_nonneg_left hcube (sub_nonneg.mpr hlt.le))
  have hexact : |low + offset| ≤ great * (1 + 13 / 2 / 2 ^ 53) := by
    rw [abs_le]
    constructor <;> linarith
  have hle := (le_abs_self _).trans hsum
  linarith

theorem value_abscissa_le (h : Checked g) (hquotient : g.quotient.isFinite = true)
    (hi : i < 2 ^ 64) (hsteps : (i : Int) ≤ ⌊value g.quotient⌋)
    (hfinite : (g.abscissa i).isFinite = true) :
    value (g.abscissa i) ≤ value g.high + max |value g.low| |value g.high| / 2 ^ 50 := by
  rcases abscissa_cases h hi with ⟨hoffset, hnonneg, hrounds⟩ | ⟨_, hinfinity⟩
  · obtain ⟨n, hn⟩ := exists_value_eq_mul_least h.low
    obtain ⟨m, hm⟩ := exists_value_eq_mul_least hoffset
    have hsum := hrounds.abs_sub_le_mul hfinite
      ⟨n + m, by rw [hn, hm, Int.cast_add, add_mul]⟩
    exact le_add_of_roundings h.lt (le_max_left _ _) (le_max_right _ _) hnonneg
      (value_offset_le h hquotient hi hsteps hoffset) hsum
  · rw [isFinite_of_infinity hinfinity] at hfinite
    cases hfinite

theorem exists_value_eq_three : ∃ c : Float, c.isFinite = true ∧ value c = 3 * 2 ^ 1022 := by
  obtain ⟨c, hc, hvalue⟩ := exists_value_eq (n := 3 * 2 ^ 51) (by norm_num) (k := 971)
    (by norm_num) le_rfl
  have hsplit : (2 : Rat) ^ 1022 = 2 ^ 51 * 2 ^ (971 : Int) := by
    rw [← zpow_natCast, ← zpow_natCast, ← zpow_add₀ two_ne_zero]
    rfl
  refine ⟨c, hc, ?_⟩
  rw [hvalue, hsplit, Nat.cast_mul, Nat.cast_pow, Nat.cast_ofNat, Nat.cast_ofNat, mul_assoc]

/-- Bounds up to `2 ^ 1022` leave room for the roundings. -/
theorem isFinite_abscissa (h : Checked g) (hquotient : g.quotient.isFinite = true)
    (hi : i < 2 ^ 64) (hsteps : (i : Int) ≤ ⌊value g.quotient⌋)
    (hlow : |value g.low| ≤ 2 ^ 1022) (hhigh : |value g.high| ≤ 2 ^ 1022) :
    (g.abscissa i).isFinite = true := by
  obtain ⟨c, hc, hthree⟩ := exists_value_eq_three
  generalize (2 : Rat) ^ 1022 = great at *
  obtain ⟨hlow, hlow'⟩ := abs_le.mp hlow
  obtain ⟨hhigh', hhigh⟩ := abs_le.mp hhigh
  have hapart : 0 ≤ value g.high - value g.low := sub_nonneg.mpr h.lt.le
  have hoffset : (g.offset i).isFinite = true := by
    have hroom : ((1 + 1 / 2 ^ 53) ^ 2 : Rat) ≤ 5 / 4 := by norm_num
    have hproduct := (index_mul_step_le h hquotient hi hsteps).trans
      (mul_le_mul_of_nonneg_left hroom hapart)
    refine (roundsTo_offset h i).isFinite_of_abs_le hc ?_
    rw [hthree, abs_of_nonneg (mul_nonneg (value_index_nonneg hi) h.pos.le)]
    linarith
  rcases abscissa_cases h hi with ⟨_, hnonneg, hrounds⟩ | ⟨hinfinity, _⟩
  · have hroom : ((1 + 1 / 2 ^ 53) ^ 3 : Rat) ≤ 5 / 4 := by norm_num
    have hdistance := (value_offset_le h hquotient hi hsteps hoffset).trans
      (mul_le_mul_of_nonneg_left hroom hapart)
    refine hrounds.isFinite_of_abs_le hc ?_
    rw [hthree, abs_le]
    constructor <;> linarith
  · rw [isFinite_of_infinity hinfinity] at hoffset
    cases hoffset

/-! ## Multiples of one unit -/

/-- The bounds and the step are multiples of one unit.  The bounds are not so many units from
zero that the abscissas between would have to be rounded, and not so many units apart that
their distance would. -/
structure Aligned (g : Grid) (low high step unit : Int) : Prop where
  low_eq : value g.low = low * 2 ^ unit
  high_eq : value g.high = high * 2 ^ unit
  step_eq : value g.step = step * 2 ^ unit
  low_lt : low.natAbs < 2 ^ 53
  high_lt : high.natAbs < 2 ^ 53
  apart_lt : high - low < 2 ^ 53
  le_unit : -1074 ≤ unit
  unit_le : unit ≤ 971

namespace Aligned

variable {low high step unit : Int}

/-- Multiples of the unit are not rounded. -/
theorem value_eq (ha : Aligned g low high step unit) {n : Int} {v : Rat} {x : Float}
    (hrounds : RoundsTo v x) (hn : n.natAbs < 2 ^ 53) (hv : v = n * 2 ^ unit) :
    x.isFinite = true ∧ value x = n * 2 ^ unit := by
  obtain ⟨c, hc, hvalue⟩ := exists_value_eq_int hn ha.le_unit ha.unit_le
  rw [hv, ← hvalue] at hrounds
  rw [← hvalue]
  exact hrounds.value_eq hc

theorem low_lt_high (ha : Aligned g low high step unit) (h : Checked g) : low < high := by
  have hlt := h.lt
  rw [ha.low_eq, ha.high_eq, mul_lt_mul_iff_left₀ (zpow_pos two_pos _)] at hlt
  exact_mod_cast hlt

theorem one_le_step (ha : Aligned g low high step unit) (h : Checked g) : 1 ≤ step := by
  have hpos := h.pos
  rw [ha.step_eq] at hpos
  have hcast : (0 : Rat) < step := pos_of_mul_pos_left hpos (zpow_pos two_pos _).le
  exact_mod_cast hcast

/-- The whole steps do not pass the upper bound.  They could by a `2 ^ 53`-th part only, and
this is less than one unit. -/
theorem mul_step_le (ha : Aligned g low high step unit) (h : Checked g)
    (hquotient : g.quotient.isFinite = true) (hsteps : (i : Int) ≤ ⌊value g.quotient⌋) :
    i * step ≤ high - low := by
  have hlt := ha.low_lt_high h
  have hapart := ha.apart_lt
  have hdifference : value (g.high - g.low) = (high - low : Int) * 2 ^ unit := by
    refine (ha.value_eq (roundsTo_sub h.high h.low) (by omega) ?_).2
    rw [ha.high_eq, ha.low_eq, Int.cast_sub, sub_mul]
  have hle : (i * step : Rat) * 2 ^ unit ≤ (high - low : Int) * (1 + 1 / 2 ^ 53) * 2 ^ unit := by
    have hcast : (i : Rat) ≤ ⌊value g.quotient⌋ := by exact_mod_cast hsteps
    have hfloor := (mul_le_mul_of_nonneg_right hcast h.pos.le).trans (floor_mul_step_le h hquotient)
    rw [hdifference, ha.step_eq, ← mul_assoc, mul_right_comm _ ((2 : Rat) ^ unit)] at hfloor
    exact hfloor
  have hunits := le_of_mul_le_mul_right hle (zpow_pos two_pos _)
  have hpart : ((high - low : Int) : Rat) < 2 ^ 53 := by exact_mod_cast hapart
  have hless : ((i * step : Int) : Rat) < (high - low + 1 : Int) := by
    push_cast at hpart hunits ⊢
    linarith
  have hint : i * step < high - low + 1 := by exact_mod_cast hless
  omega

/-- The abscissas are exact. -/
theorem value_abscissa (ha : Aligned g low high step unit) (h : Checked g)
    (hquotient : g.quotient.isFinite = true) (hsteps : (i : Int) ≤ ⌊value g.quotient⌋) :
    (g.abscissa i).isFinite = true ∧
      value (g.abscissa i) = (low + i * step : Int) * 2 ^ unit := by
  have hle := ha.mul_step_le h hquotient hsteps
  have hindex : (i : Int) ≤ i * step :=
    le_mul_of_one_le_right (Int.natCast_nonneg i) (ha.one_le_step h)
  have hapart := ha.apart_lt
  have hlow := ha.low_lt
  have hhigh := ha.high_lt
  obtain ⟨hfinite, hvalue⟩ : (g.offset i).isFinite = true ∧
      value (g.offset i) = (i * step : Int) * 2 ^ unit := by
    refine ha.value_eq (roundsTo_offset h i) (by omega) ?_
    rw [value_index (by omega), ha.step_eq]
    push_cast
    ring
  have hsum : value g.low + value (g.offset i) = (low + i * step : Int) * 2 ^ unit := by
    rw [ha.low_eq, hvalue, ← add_mul, ← Int.cast_add]
  exact ha.value_eq (roundsTo_add h.low hfinite) (by omega) hsum

/-- The abscissas stay inside. -/
theorem abscissa_le (ha : Aligned g low high step unit) (h : Checked g)
    (hquotient : g.quotient.isFinite = true) (hsteps : (i : Int) ≤ ⌊value g.quotient⌋) :
    g.abscissa i ≤ g.high := by
  obtain ⟨hfinite, hvalue⟩ := ha.value_abscissa h hquotient hsteps
  have hle := ha.mul_step_le h hquotient hsteps
  rw [le_iff_value hfinite h.high, hvalue, ha.high_eq]
  refine mul_le_mul_of_nonneg_right ?_ (zpow_pos two_pos _).le
  exact_mod_cast (by omega : low + i * step ≤ high)

end Aligned

/-! ## The samples -/

theorem sample_of_ok {f : Curve} {points : List Point} (h : g.sample f = .ok points) :
    ∃ n, g.count = .ok n ∧
      points = (List.range n.toNat).map fun i => ⟨g.abscissa i, f (g.abscissa i)⟩ := by
  cases hcount : g.count with
  | error cause => simp [sample, hcount, bind, Except.bind] at h
  | ok n =>
    simp only [sample, hcount, bind, Except.bind, pure, Except.pure, Except.ok.injEq] at h
    exact ⟨n, rfl, h.symm⟩

theorem exists_sample {n : UInt64} (f : Curve) (hcount : g.count = .ok n) (hi : i < n.toNat) :
    ∃ points, g.sample f = .ok points ∧ ⟨g.abscissa i, f (g.abscissa i)⟩ ∈ points := by
  refine ⟨_, by rw [sample, hcount]; rfl, ?_⟩
  exact List.mem_map_of_mem (List.mem_range.mpr hi)

/-- The first sample lies at the lower bound, the abscissas never decrease, and none is below
the lower bound.  None is above the upper bound either, if the grid is aligned.  Otherwise the
upper bound may be passed by a rounding error, and beyond `2 ^ 1022` also by an infinity. -/
theorem abscissas_of_sample {f : Curve} {points : List Point} (h : g.sample f = .ok points) :
    (∃ first rest, points = first :: rest ∧ first.x.isFinite = true ∧
        value first.x = value g.low) ∧
      points.Pairwise (·.x ≤ ·.x) ∧
      (∀ p ∈ points, g.low ≤ p.x) ∧
      (∀ p ∈ points, p.x.isFinite = true →
        value p.x ≤ value g.high + max |value g.low| |value g.high| / 2 ^ 50) ∧
      (|value g.low| ≤ 2 ^ 1022 → |value g.high| ≤ 2 ^ 1022 →
        ∀ p ∈ points, p.x.isFinite = true) ∧
      ∀ low high step unit, Aligned g low high step unit → ∀ p ∈ points, p.x ≤ g.high := by
  obtain ⟨n, hcount, rfl⟩ := sample_of_ok h
  have hchecked := checked_of_ok hcount
  obtain ⟨hquotient, -, hfloor, hsucc⟩ := count_of_ok hcount
  have hword : n.toNat < 2 ^ 64 := n.toNat_lt
  have hlt {i : Nat} (hi : i ∈ List.range n.toNat) : i < 2 ^ 64 :=
    (List.mem_range.mp hi).trans hword
  have hsteps {i : Nat} (hi : i ∈ List.range n.toNat) : (i : Int) ≤ ⌊value g.quotient⌋ := by
    rw [List.mem_range] at hi
    omega
  refine ⟨?_, ?_, ?_, ?_, fun hlow hhigh => ?_, fun low high step unit ha => ?_⟩
  · obtain ⟨hfinite, hvalue⟩ := value_abscissa_zero hchecked
    rw [hsucc, List.range_succ_eq_map, List.map_cons]
    exact ⟨_, _, rfl, hfinite, hvalue⟩
  · rw [List.pairwise_map]
    exact List.pairwise_lt_range.imp_of_mem fun _ hj hij =>
      abscissa_mono hchecked hij.le (hlt hj)
  all_goals
    rw [List.forall_mem_map]
    intro i hi
  · exact low_le_abscissa hchecked (hlt hi)
  · exact value_abscissa_le hchecked hquotient (hlt hi) (hsteps hi)
  · exact isFinite_abscissa hchecked hquotient (hlt hi) (hsteps hi) hlow hhigh
  · exact ha.abscissa_le hchecked hquotient (hsteps hi)

theorem aligned_quarters (limit : UInt64) : Aligned (quarters limit) 0 4 1 (-2) := by
  have hlow : value 0 = (0 : Int) * 2 ^ (-2 : Int) := by decide +kernel
  have hhigh : value 1 = (4 : Int) * 2 ^ (-2 : Int) := by decide +kernel
  have hstep : value 0.25 = (1 : Int) * 2 ^ (-2 : Int) := by decide +kernel
  exact ⟨hlow, hhigh, hstep, by decide, by decide, by decide, by decide, by decide⟩

/-- Quarters are counted up exactly. -/
theorem abscissas_of_sample_quarters :
    ∃ points, (quarters 5).sample Curve.identity = .ok points ∧ points.Pairwise (·.x ≤ ·.x) ∧
      (∀ p ∈ points, p.x.isFinite = true) ∧ ∀ p ∈ points, p.x ≤ 1 := by
  have hcount : (quarters 5).count = .ok 5 := rfl
  have hlow : |value (quarters 5).low| ≤ 2 ^ 1022 := by
    rw [show value (quarters 5).low = 0 from rfl, abs_zero]
    positivity
  have hhigh : |value (quarters 5).high| ≤ 2 ^ 1022 := by
    rw [show value (quarters 5).high = 1 from value_one.2, abs_one]
    exact one_le_pow₀ one_le_two
  obtain ⟨points, hpoints, -⟩ :=
    exists_sample Curve.identity hcount (show 0 < (5 : UInt64).toNat by decide)
  obtain ⟨-, hmono, -, -, hfinite, hinside⟩ := abscissas_of_sample hpoints
  exact ⟨points, hpoints, hmono, hfinite hlow hhigh, hinside 0 4 1 (-2) (aligned_quarters 5)⟩

/-- The product of seventy and a hundredth is rounded up, beyond seven tenths. -/
def hundredths : Grid :=
  { low := 0, high := 0.7, step := 0.01 }

/-- Three steps that are a third of the greatest number, rounded up, are rounded to infinity. -/
def thirds : Grid :=
  { low := 0, high := .ofBits 0x7FEFFFFFFFFFFFFF, step := .ofBits 0x7FD5555555555555 }

/-- A sample may lie outside the bounds, and even at infinity. -/
theorem not_forall_le_high :
    (¬∀ (g : Grid) f points, g.sample f = .ok points →
        ∀ p ∈ points, g.low ≤ p.x ∧ p.x ≤ g.high) ∧
      ¬∀ (g : Grid) f points, g.sample f = .ok points → ∀ p ∈ points, p.x.isFinite = true := by
  constructor
  · intro h
    have hcount : hundredths.count = .ok 71 := rfl
    obtain ⟨points, hpoints, hp⟩ :=
      exists_sample Curve.identity hcount (show 70 < (71 : UInt64).toNat by decide)
    exact absurd (h _ _ points hpoints _ hp).2 (by decide +kernel)
  · intro h
    have hcount : thirds.count = .ok 4 := rfl
    obtain ⟨points, hpoints, hp⟩ :=
      exists_sample Curve.identity hcount (show 3 < (4 : UInt64).toNat by decide)
    exact absurd (h _ _ points hpoints _ hp) (by decide +kernel)

end CurveSketch.Grid
