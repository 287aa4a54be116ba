import CurveSketch.Proofs.Binary64.Whole

/-!
# Rounding a half up

`roundHalfUp` is exact, although it compares a rounded difference with a half: its value is
`⌊value x + 1 / 2⌋` (`value_roundHalfUp`).

* A fraction that is less than a half is a number itself (`exists_value_eq_fract`), so the
  difference is exact.  The fractions that are no numbers are greater than a half, and belong
  to numbers between minus a half and zero.
* A fraction that is not less than a half is not rounded below it, because a half is a
  number.
* Adding one is exact, because a number that has a fraction is less than `2 ^ 52`
  (`abs_value_lt_of_fract_ne_zero`).
-/

namespace CurveSketch.Binary64

open Float.Model
open Float.Model.UnpackedFloat

variable {x y : Float}

/-! ## The fraction -/

/-- A number with a non-negative exponent is whole. -/
theorem fract_mul_zpow_of_nonneg (n : Int) {e : Int} (he : 0 ≤ e) :
    Int.fract (n * 2 ^ e : Rat) = 0 := by
  obtain ⟨k, rfl⟩ := Int.eq_ofNat_of_zero_le he
  have hwhole : (n * 2 ^ (k : Int) : Rat) = (n * 2 ^ k : Int) := by
    push_cast
    rw [zpow_natCast]
  rw [hwhole, Int.fract_intCast]

/-- The fraction has the unit of the number. -/
theorem fract_mul_zpow_neg (n : Int) (p : Nat) :
    Int.fract (n * 2 ^ (-p : Int) : Rat) = (n % 2 ^ p : Int) * 2 ^ (-p : Int) := by
  have h := Int.fract_div_intCast_eq_div_intCast_mod (k := Rat) (m := n) (n := 2 ^ p)
  rw [zpow_neg, zpow_natCast, ← div_eq_mul_inv, ← div_eq_mul_inv]
  exact_mod_cast h

/-- Less than half of the unit is left of a negative integer only if it has as many bits as
the unit.  What is left of another one has no more bits than the integer. -/
theorem emod_two_pow_lt {n : Int} {p : Nat} (hn : n.natAbs < 2 ^ 53)
    (hhalf : 2 * (n % 2 ^ p) < 2 ^ p) : n % 2 ^ p < 2 ^ 53 := by
  rcases le_or_gt p 54 with hp | hp
  · have hpow : (2 : Int) ^ p ≤ 2 ^ 54 := pow_le_pow_right₀ one_le_two hp
    omega
  · have hpow : (2 : Int) ^ 55 ≤ 2 ^ p := pow_le_pow_right₀ one_le_two hp
    rcases le_or_gt 0 n with hnonneg | hneg
    · rw [Int.emod_eq_of_lt hnonneg (by omega)]
      omega
    · rw [← Int.add_emod_right, Int.emod_eq_of_lt (by omega) (by omega)] at hhalf
      omega

/-- A fraction that is less than a half is a number. -/
theorem exists_value_eq_fract (hx : x.isFinite = true) (hhalf : Int.fract (value x) < 1 / 2) :
    ∃ c : Float, c.isFinite = true ∧ value c = Int.fract (value x) := by
  obtain ⟨n, e, hn, hmin, hmax, hvalue⟩ := exists_value_eq_mul hx
  rcases le_or_gt 0 e with he | he
  · refine ⟨0, value_zero.1, ?_⟩
    rw [value_zero.2, hvalue, fract_mul_zpow_of_nonneg n he]
  · obtain ⟨p, rfl⟩ : ∃ p : Nat, e = -p := ⟨(-e).toNat, by omega⟩
    obtain ⟨rest, hrest⟩ : ∃ rest : Nat, n % 2 ^ p = rest :=
      Int.eq_ofNat_of_zero_le (Int.emod_nonneg n (by positivity))
    rw [hvalue, fract_mul_zpow_neg] at hhalf ⊢
    have hless : 2 * (n % 2 ^ p) < 2 ^ p := by
      rw [zpow_neg, zpow_natCast, ← div_eq_mul_inv, div_lt_div_iff₀ (by positivity) two_pos,
        one_mul, mul_comm] at hhalf
      exact_mod_cast hhalf
    have hbits := emod_two_pow_lt hn hless
    rw [hrest] at hbits ⊢
    exact exists_value_eq (by exact_mod_cast hbits) hmin hmax

/-- A number that has a fraction has a bit after the point, and one bit less before it. -/
theorem abs_value_lt_of_fract_ne_zero (hx : x.isFinite = true) (hfract : Int.fract (value x) ≠ 0) :
    |value x| < 2 ^ 52 := by
  obtain ⟨n, e, hn, -, -, hvalue⟩ := exists_value_eq_mul hx
  have he : e ≤ -1 := by
    by_contra hnonneg
    rw [hvalue] at hfract
    exact hfract (fract_mul_zpow_of_nonneg n (by omega))
  have hmantissa : |(n : Rat)| < 2 ^ 53 := by
    rw [← Int.cast_abs, Int.abs_eq_natAbs]
    exact_mod_cast hn
  have hunit : (2 : Rat) ^ e ≤ 2 ^ (-1 : Int) := zpow_le_zpow_right₀ (by norm_num) he
  have hpos : (0 : Rat) < 2 ^ e := by positivity
  rw [hvalue, abs_mul, abs_of_pos hpos]
  calc |(n : Rat)| * 2 ^ e ≤ |(n : Rat)| * 2 ^ (-1 : Int) :=
        mul_le_mul_of_nonneg_left hunit (abs_nonneg _)
    _ < 2 ^ 53 * 2 ^ (-1 : Int) := mul_lt_mul_of_pos_right hmantissa (by norm_num)
    _ = 2 ^ 52 := by norm_num

/-! ## Rounding to an integer -/

theorem floor_add_half (v : Rat) :
    ⌊v + 1 / 2⌋ = if Int.fract v < 1 / 2 then ⌊v⌋ else ⌊v⌋ + 1 := by
  have hparts := Int.floor_add_fract v
  have hnonneg := Int.fract_nonneg v
  have hone := Int.fract_lt_one v
  split <;> rw [Int.floor_eq_iff] <;> push_cast <;> constructor <;> linarith

/-- Which way the computed difference sends the number, is what its fraction says. -/
theorem half_le_sub_floor_iff (hx : x.isFinite = true) :
    x - floor x ≥ 0.5 ↔ ¬Int.fract (value x) < 1 / 2 := by
  obtain ⟨hfloor, hvalue⟩ := value_floor hx
  obtain ⟨hhalf, hvalueHalf⟩ := value_half
  have hdifference := roundsTo_sub hx hfloor
  rw [hvalue, Int.self_sub_floor] at hdifference
  constructor
  · intro hge hlt
    obtain ⟨c, hc, hfract⟩ := exists_value_eq_fract hx hlt
    rw [← hfract] at hdifference
    obtain ⟨hfinite, hexact⟩ := hdifference.value_eq hc
    have hle : (0.5 : Float) ≤ x - floor x := hge
    rw [le_iff_value hhalf hfinite, hvalueHalf, hexact, hfract] at hle
    exact absurd hlt (not_lt.mpr hle)
  · intro hge
    exact hdifference.ge_of_ge hhalf (hvalueHalf.trans_le (not_lt.mp hge))

theorem roundHalfUp_eq (hx : x.isFinite = true) :
    roundHalfUp x = if Int.fract (value x) < 1 / 2 then floor x else floor x + 1 := by
  show (if x - floor x ≥ 0.5 then floor x + 1 else floor x) = _
  simp only [half_le_sub_floor_iff hx, ite_not]

/-- `roundHalfUp` is exact. -/
theorem value_roundHalfUp (hx : x.isFinite = true) :
    (roundHalfUp x).isFinite = true ∧ value (roundHalfUp x) = ⌊value x + 1 / 2⌋ := by
  obtain ⟨hfloor, hvalue⟩ := value_floor hx
  rw [roundHalfUp_eq hx, floor_add_half]
  split
  · exact ⟨hfloor, hvalue⟩
  · rename_i hge
    have hfract : Int.fract (value x) ≠ 0 := by
      intro hzero
      rw [hzero] at hge
      norm_num at hge
    have hbound := abs_lt.mp (abs_value_lt_of_fract_ne_zero hx hfract)
    have hlow : -2 ^ 52 ≤ ⌊value x⌋ := Int.le_floor.mpr (by push_cast; exact hbound.1.le)
    have hhigh : ⌊value x⌋ < 2 ^ 52 := Int.floor_lt.mpr (by push_cast; exact hbound.2)
    obtain ⟨c, hc, hsucc⟩ := exists_value_eq_int (n := ⌊value x⌋ + 1) (by omega) (k := 0)
      (by norm_num) (by norm_num)
    rw [zpow_zero, mul_one] at hsucc
    obtain ⟨hone, hvalueOne⟩ := value_one
    have hsum := roundsTo_add hfloor hone
    rw [hvalue, hvalueOne, ← Int.cast_one, ← Int.cast_add, ← hsucc] at hsum
    rw [← hsucc]
    exact hsum.value_eq hc

/-- A whole number is rounded to itself, and a zero keeps its sign. -/
theorem floor_of_value_eq_intCast (hx : x.isFinite = true) {n : Int} (h : value x = n) :
    floor x = x := by
  rcases zero_or_finite hx with ⟨s, hu⟩ | ⟨s, m, e, hm, hu⟩
  · exact floor_of_zero hu
  · obtain ⟨hfloor, hvalue⟩ := value_floor hx
    have heq : value (floor x) = value x := by rw [hvalue, h, Int.floor_intCast]
    have hzero : value x ≠ 0 := by
      rw [value, hu]
      cases s with
      | positive => exact (unpackedValue_pos hm).ne'
      | negative => exact (unpackedValue_neg hm).ne
    exact eq_of_value_eq hfloor hx heq (heq ▸ hzero)

theorem roundHalfUp_of_value_eq_intCast (hx : x.isFinite = true) {n : Int} (h : value x = n) :
    roundHalfUp x = x := by
  rw [roundHalfUp_eq hx, h, Int.fract_intCast, if_pos (by norm_num),
    floor_of_value_eq_intCast hx h]

/-! ## What is not finite -/

theorem notANumber_or_infinity {u : UnpackedFloat} (hu : u.isFinite = false) :
    u = .notANumber ∨ ∃ sign, u = .infinity sign := by
  match u with
  | .notANumber => exact Or.inl rfl
  | .infinity sign => exact Or.inr ⟨sign, rfl⟩

theorem isFinite_of_isNaN (hx : x.isNaN = true) : x.isFinite = false := by
  cases hfinite : x.isFinite with
  | false => rfl
  | true =>
    rw [isNaN_of_isFinite hfinite] at hx
    cases hx

theorem isFinite_of_isInf (hx : x.isInf = true) : x.isFinite = false := by
  rw [Float.isInf, Float.Model.isInf] at hx
  cases hfinite : x.isFinite with
  | false => rfl
  | true =>
    rcases zero_or_finite hfinite with ⟨_, hu⟩ | ⟨_, _, _, _, hu⟩ <;> rw [hu] at hx <;> cases hx

theorem floor_of_not_isFinite (hx : x.isFinite = false) : floor x = x := by
  rcases notANumber_or_infinity hx with hu | ⟨sign, hu⟩
  · exact floor_of_notANumber hu
  · exact floor_of_infinity hu

/-- An infinity, or what is not a number, has no difference from itself. -/
theorem isNaN_sub_self (hx : x.isFinite = false) : (x - x).isNaN = true := by
  have hsub : x - x = .ofModel (.pack (.sub .binary64 x.toModel.unpack x.toModel.unpack)) := rfl
  have hnan : UnpackedFloat.sub .binary64 x.toModel.unpack x.toModel.unpack = .notANumber := by
    rcases notANumber_or_infinity hx with hu | ⟨_ | _, hu⟩ <;> rw [hu] <;> rfl
  rw [hsub, hnan]
  rfl

theorem roundHalfUp_of_not_isFinite (hx : x.isFinite = false) : roundHalfUp x = x := by
  have hincomparable : ¬x - x ≥ 0.5 := by
    intro hge
    have hnumber := (le_iff.mp hge).2.1
    rw [isNaN_sub_self hx] at hnumber
    cases hnumber
  show (if x - floor x ≥ 0.5 then floor x + 1 else floor x) = _
  rw [floor_of_not_isFinite hx, if_neg hincomparable]

/-! ## Rounding keeps the order -/

theorem roundHalfUp_of_infinity {sign : Sign} (hx : x.toModel.unpack = .infinity sign) :
    roundHalfUp x = x :=
  roundHalfUp_of_not_isFinite (isFinite_of_infinity hx)

theorem isNaN_roundHalfUp_eq_false (hx : x.isNaN = false) : (roundHalfUp x).isNaN = false := by
  rcases finite_or_infinity hx with hfinite | ⟨sign, hinf⟩
  · exact isNaN_of_isFinite (value_roundHalfUp hfinite).1
  · rw [roundHalfUp_of_infinity hinf]
    exact hx

theorem roundHalfUp_mono (h : x ≤ y) : roundHalfUp x ≤ roundHalfUp y := by
  obtain ⟨hx, hy, hle⟩ := le_iff.mp h
  rcases finite_or_infinity hx with hfx | ⟨_ | _, hix⟩
  · rcases finite_or_infinity hy with hfy | ⟨_ | _, hiy⟩
    · obtain ⟨hrx, hvx⟩ := value_roundHalfUp hfx
      obtain ⟨hry, hvy⟩ := value_roundHalfUp hfy
      rw [le_iff_value hfx hfy] at h
      rw [le_iff_value hrx hry, hvx, hvy]
      exact_mod_cast Int.floor_le_floor (by linarith)
    · exact absurd h (not_le_neg_infinity hfx hiy)
    · rw [roundHalfUp_of_infinity hiy]
      exact le_infinity (isNaN_roundHalfUp_eq_false hx) hiy
  · rw [roundHalfUp_of_infinity hix]
    exact neg_infinity_le hix (isNaN_roundHalfUp_eq_false hy)
  · rcases finite_or_infinity hy with hfy | ⟨_ | _, hiy⟩
    · exact absurd h (not_infinity_le hix hfy)
    · rwa [roundHalfUp_of_infinity hix, roundHalfUp_of_infinity hiy]
    · rwa [roundHalfUp_of_infinity hix, roundHalfUp_of_infinity hiy]

/-! ## The whole of it -/

/-- The nearest integer, a half going up, computed without an error: so the order is kept,
and a whole number, an infinity, and what is not a number, stay what they are. -/
theorem roundHalfUp_exact (x : Float) :
    (x.isFinite = true →
        (roundHalfUp x).isFinite = true ∧ value (roundHalfUp x) = ⌊value x + 1 / 2⌋ ∧
          ∀ n : Int, value (roundHalfUp x) = n ↔ n - 1 / 2 ≤ value x ∧ value x < n + 1 / 2) ∧
      (∀ y, x ≤ y → roundHalfUp x ≤ roundHalfUp y) ∧
      (∀ n : Int, x.isFinite = true → value x = n → roundHalfUp x = x) ∧
      (x.isNaN = true → (roundHalfUp x).isNaN = true) ∧
      (x.isInf = true → roundHalfUp x = x) := by
  refine ⟨fun hx => ?_, fun y => roundHalfUp_mono,
    fun n hx h => roundHalfUp_of_value_eq_intCast hx h, fun hx => ?_, fun hx => ?_⟩
  · obtain ⟨hfinite, hvalue⟩ := value_roundHalfUp hx
    refine ⟨hfinite, hvalue, fun n => ?_⟩
    rw [hvalue, Int.cast_inj, Int.floor_eq_iff]
    constructor <;> rintro ⟨hlow, hhigh⟩ <;> constructor <;> linarith
  · rw [roundHalfUp_of_not_isFinite (isFinite_of_isNaN hx)]
    exact hx
  · exact roundHalfUp_of_not_isFinite (isFinite_of_isInf hx)

/-- A half below zero goes up, the number before a half goes down, and odd numbers beyond
`2 ^ 52` are whole. -/
theorem roundHalfUp_exact_borders :
    value (roundHalfUp (-2.5)) = ⌊value (-2.5) + 1 / 2⌋ ∧
      roundHalfUp (-2.5) ≤ roundHalfUp 0.49999999999999994 ∧
      roundHalfUp 4503599627370497 = 4503599627370497 ∧
      (roundHalfUp (0 / 0)).isNaN = true ∧ roundHalfUp (1 / 0) = 1 / 0 := by
  have hodd : value 4503599627370497 = (4503599627370497 : Int) := by
    have hu : (4503599627370497 : Float).toModel.unpack =
        .finite .positive 4503599627370497 0 (by norm_num) := rfl
    rw [value, hu, unpackedValue, signed]
    norm_num
  exact ⟨((roundHalfUp_exact (-2.5)).1 rfl).2.1,
    (roundHalfUp_exact (-2.5)).2.1 0.49999999999999994 (by decide +kernel),
    (roundHalfUp_exact 4503599627370497).2.2.1 4503599627370497 rfl hodd,
    (roundHalfUp_exact (0 / 0)).2.2.2.1 rfl, (roundHalfUp_exact (1 / 0)).2.2.2.2 rfl⟩

end CurveSketch.Binary64
