import CurveSketch.Binary64.Rounding
import CurveSketch.Proofs.Binary64.Arithmetic

/-!
# Whole numbers

`floor` is exact (`value_floor`): shifting out the fraction bits leaves a number of at
most 53 bits, and this is a binary64 number itself (`value_ofMantissa`).

A conversion to a machine word cuts off the fraction and stays within the word
(`toNat_toUInt64`).
-/

namespace CurveSketch.Binary64

open Float.Model
open Float.Model.UnpackedFloat
open Float.Model.UnpackedFloat.ExtendedMantissa

/-! ## Numbers that are exact -/

/-- A mantissa of 53 bits gets zeros at its end until it is canonical. -/
theorem exists_value_eq {n : Nat} (hn : n < 2 ^ 53) {k : Int} (hmin : -1074 ≤ k)
    (hmax : k ≤ 971) : ∃ c : Float, c.isFinite = true ∧ value c = n * 2 ^ k := by
  rcases Nat.eq_zero_or_pos n with rfl | hpos
  · have hzero : IsCanonical 0 (-1074) := ⟨by norm_num, le_rfl, Or.inr rfl⟩
    obtain ⟨hfinite, hvalue⟩ := value_pack_ofCanonical .positive hzero (by norm_num)
    refine ⟨_, hfinite, ?_⟩
    rw [hvalue, signed, Nat.cast_zero, zero_mul, zero_mul]
  · obtain ⟨d, hd⟩ : ∃ d, d = min (52 - n.log2) (k + 1074).toNat := ⟨_, rfl⟩
    have hbits : n.log2 < 53 := (Nat.log2_lt hpos.ne').mpr hn
    have hlog : (n * 2 ^ d).log2 = n.log2 + d := log2_mul_two_pow hpos d
    have hne : n * 2 ^ d ≠ 0 := by positivity
    have hcanonical : IsCanonical (n * 2 ^ d) (k - d) := by
      refine ⟨(Nat.log2_lt hne).mp (by omega), by omega, ?_⟩
      rw [← Nat.le_log2 hne]
      omega
    obtain ⟨hfinite, hvalue⟩ := value_pack_ofCanonical .positive hcanonical (by omega)
    refine ⟨_, hfinite, ?_⟩
    have hunit := mul_zpow_eq (c := n) (sub_le_self k d.cast_nonneg)
    rw [sub_sub_cancel, Int.toNat_natCast] at hunit
    rw [hvalue, signed, hunit]

/-- An integer of 53 bits times a power of two is a number. -/
theorem exists_value_eq_int {n : Int} (hn : n.natAbs < 2 ^ 53) {k : Int} (hmin : -1074 ≤ k)
    (hmax : k ≤ 971) : ∃ c : Float, c.isFinite = true ∧ value c = n * 2 ^ k := by
  obtain ⟨c, hc, hvalue⟩ := exists_value_eq hn hmin hmax
  rcases Int.natAbs_eq n with hpos | hneg
  · refine ⟨c, hc, ?_⟩
    rw [hvalue, ← Int.cast_natCast, ← hpos]
  · obtain ⟨hfinite, hnegated⟩ := value_neg hc
    refine ⟨-c, hfinite, ?_⟩
    rw [hnegated, hvalue, ← neg_mul, ← Int.cast_natCast, ← Int.cast_neg, ← hneg]

/-- A number is such an integer times a power of two. -/
theorem exists_value_eq_mul {x : Float} (hx : x.isFinite = true) :
    ∃ (n e : Int), n.natAbs < 2 ^ 53 ∧ -1074 ≤ e ∧ e ≤ 971 ∧ value x = n * 2 ^ e := by
  obtain ⟨sign, m, e, hm, hmax, hfields⟩ := exists_ofCanonical hx
  refine ⟨sign.apply m, e, ?_, hm.min_le, hmax, ?_⟩
  · have hlt := hm.lt
    cases sign <;> simp only [Sign.apply] <;> omega
  · rw [value, hfields, unpackedValue_ofCanonical, cast_apply, signed_mul]

theorem value_ofMantissa {n : Nat} (hn : n < 2 ^ 53) :
    (ofMantissa n).isFinite = true ∧ value (ofMantissa n) = n := by
  obtain ⟨c, hc, hvalue⟩ := exists_value_eq hn (k := 0) (by norm_num) (by norm_num)
  rw [zpow_zero, mul_one] at hvalue
  have hrounds := roundsTo_toFloat n.toUInt64
  have hword : n.toUInt64.toNat = n := Nat.mod_eq_of_lt (by omega)
  rw [hword, ← hvalue] at hrounds
  rw [← hvalue]
  exact hrounds.value_eq hc

/-! ## Rounding down -/

/-- A magnitude as a quotient of natural numbers. -/
theorem mul_zpow_eq_div (m : Nat) (e : Int) :
    (m * 2 ^ e : Rat) = (m * 2 ^ e.toNat : Nat) / (2 ^ (-e).toNat : Nat) := by
  have hexponent : e = e.toNat - (-e).toNat := by omega
  conv_lhs => rw [hexponent, zpow_sub₀ two_ne_zero, zpow_natCast, zpow_natCast]
  push_cast
  exact (mul_div_assoc _ _ _).symm

theorem floor_magnitude (m : Nat) (e : Int) :
    ⌊(m * 2 ^ e : Rat)⌋ = (m * 2 ^ e.toNat / 2 ^ (-e).toNat : Nat) := by
  rw [mul_zpow_eq_div, Rat.floor_natCast_div_natCast]
  exact (Int.natCast_ediv _ _).symm

/-- Rounding a magnitude up counts one for the fraction bits, unless all of them are
zero. -/
theorem ceil_magnitude (m p : Nat) :
    ⌈(m / (2 ^ p : Nat) : Rat)⌉ =
      (if m >>> p <<< p = m then m >>> p else m >>> p + 1 : Nat) := by
  rw [Nat.shiftLeft_eq, Nat.shiftRight_eq_div_pow]
  have hpos : 0 < 2 ^ p := Nat.two_pow_pos p
  generalize 2 ^ p = d at *
  have hd : (0 : Rat) < d := by exact_mod_cast hpos
  rw [Int.ceil_eq_iff, lt_div_iff₀ hd, div_le_iff₀ hd]
  have hparts : (m : Rat) = d * (m / d : Nat) + (m % d : Nat) := by
    exact_mod_cast (Nat.div_add_mod m d).symm
  have hrest : ((m % d : Nat) : Rat) < d := by exact_mod_cast Nat.mod_lt m hpos
  have hfraction : m / d * d = m ↔ m % d = 0 := by
    rw [← Nat.dvd_iff_mod_eq_zero, Nat.dvd_iff_div_mul_eq]
  generalize m / d = whole at *
  generalize m % d = rest at *
  rw [hparts]
  split
  · rename_i hwhole
    have hzero : (rest : Rat) = 0 := by exact_mod_cast hfraction.mp hwhole
    push_cast
    constructor <;> linarith
  · rename_i hpart
    have hone : (1 : Rat) ≤ rest := by
      exact_mod_cast Nat.one_le_iff_ne_zero.mpr (mt hfraction.mpr hpart)
    push_cast
    constructor <;> linarith

/-- Without its fraction bits a magnitude has one bit less, so there is room for one more. -/
theorem shiftRight_lt {m p : Nat} (hm : m < 2 ^ 53) (hp : 0 < p) : m >>> p < 2 ^ 52 := by
  obtain ⟨q, rfl⟩ := Nat.exists_eq_add_of_lt hp
  rw [zero_add, Nat.shiftRight_eq_div_pow, pow_succ, mul_comm, ← Nat.div_div_eq_div_mul]
  exact (Nat.div_le_self _ _).trans_lt (by omega)

/-- `floor` is the exact floor. -/
theorem value_floor {x : Float} (hx : x.isFinite = true) :
    (floor x).isFinite = true ∧ value (floor x) = ⌊value x⌋ := by
  rcases zero_or_finite hx with ⟨s, hu⟩ | ⟨s, m, e, hm, hu⟩
  · rw [floor_of_zero hu, value, hu, unpackedValue_zero, Int.floor_zero]
    exact ⟨hx, rfl⟩
  · have hvalue : value x = signed s (m * 2 ^ e) := by rw [value, hu, unpackedValue]
    rcases le_or_gt 0 e with he | he
    · have hinteger := cast_apply_mul s (m := m) he
      rw [zpow_zero, mul_one] at hinteger
      rw [floor_of_exponent_nonneg hu he, hvalue, ← hinteger, Int.floor_intCast]
      exact ⟨hx, rfl⟩
    · have hlt : m < 2 ^ 53 := (isCanonical_of_unpack hu).1.lt
      have hquotient : (m * 2 ^ e : Rat) = m / (2 ^ (-e).toNat : Nat) := by
        rw [mul_zpow_eq_div, Int.toNat_of_nonpos he.le, pow_zero, mul_one]
      have hhalf : m >>> (-e).toNat < 2 ^ 52 := shiftRight_lt hlt (by omega)
      rw [floor, hu]
      simp only [if_neg (not_le.mpr he)]
      cases s with
      | positive =>
        obtain ⟨hfinite, hwhole⟩ := value_ofMantissa (n := m >>> (-e).toNat) (by omega)
        refine ⟨hfinite, ?_⟩
        rw [hwhole, hvalue, signed, hquotient, Rat.floor_natCast_div_natCast,
          Nat.shiftRight_eq_div_pow]
        norm_cast
      | negative =>
        obtain ⟨up, hup⟩ : ∃ up, up = if m >>> (-e).toNat <<< (-e).toNat = m then
          m >>> (-e).toNat else m >>> (-e).toNat + 1 := ⟨_, rfl⟩
        have hbits : up < 2 ^ 53 := by
          rw [hup]
          split <;> omega
        obtain ⟨hfinite, hwhole⟩ := value_ofMantissa hbits
        obtain ⟨hnegative, hneg⟩ := value_neg hfinite
        rw [← hup]
        refine ⟨hnegative, ?_⟩
        rw [hneg, hwhole, hvalue, signed, Int.floor_neg, hquotient, ceil_magnitude, ← hup]
        norm_cast

/-! ## Machine words -/

theorem toNat_ofNatClamp (n : Nat) : (UInt64.ofNatClamp n).toNat = min n (2 ^ 64 - 1) := by
  rw [UInt64.ofNatClamp]
  split
  · rename_i h
    rw [UInt64.toNat_ofNatLT]
    exact (min_eq_left (Nat.le_pred_of_lt h)).symm
  · rename_i h
    exact (min_eq_right ((Nat.pred_le _).trans (not_lt.mp h))).symm

/-- Cutting off the fraction rounds the magnitude down. -/
theorem roundToInt_eq (sign : Sign) (m : Nat) (e : Int) :
    roundToInt sign m e = sign.apply ⌊(m * 2 ^ e : Rat)⌋ := by
  have hshift : (0 - (e - e.toNat)).toNat = (-e).toNat := by omega
  rw [floor_magnitude]
  simp only [roundToInt, decreaseExponent_eq, shiftToExponent, mantissa_shiftRight,
    mantissa_ofMantissaAndAccuracy, hshift, sub_zero]

/-- A conversion to a word cuts off the fraction, and goes up to the greatest word. -/
theorem toNat_toUInt64 {x : Float} (hx : x.isFinite = true) (hnonneg : 0 ≤ value x) :
    x.toUInt64.toNat = min ⌊value x⌋.toNat (2 ^ 64 - 1) := by
  have hword : x.toUInt64 = x.toModel.unpack.toUInt64 := rfl
  rw [hword, UnpackedFloat.toUInt64, toNat_ofNatClamp]
  rcases zero_or_finite hx with ⟨s, hu⟩ | ⟨_ | _, m, e, hm, hu⟩
  · rw [value, hu, unpackedValue_zero, Int.floor_zero]
    rfl
  · rw [value, hu] at hnonneg
    exact absurd (unpackedValue_neg hm) (not_lt.mpr hnonneg)
  · rw [value, hu, UnpackedFloat.toInt, roundToInt_eq]
    rfl

theorem toNat_toUInt64_infinity {x : Float} (hx : x.toModel.unpack = .infinity .positive) :
    x.toUInt64.toNat = 2 ^ 64 - 1 := by
  have hword : x.toUInt64 = x.toModel.unpack.toUInt64 := rfl
  rw [hword, hx]
  rfl

/-- The float of a word is finite. -/
theorem isFinite_toFloat (n : UInt64) : n.toFloat.isFinite = true := by
  obtain ⟨c, hc, hvalue⟩ := exists_value_eq (n := 1) (by norm_num) (k := 64) (by norm_num)
    (by norm_num)
  refine (roundsTo_toFloat n).isFinite_of_abs_le hc ?_
  rw [abs_of_nonneg n.toNat.cast_nonneg, hvalue, Nat.cast_one, one_mul]
  exact_mod_cast n.toNat_lt.le

/-- A word is not changed up to `2 ^ 53`. -/
theorem value_toFloat {n : UInt64} (hn : n.toNat ≤ 2 ^ 53) : value n.toFloat = n.toNat := by
  have hnumber : ∃ c : Float, c.isFinite = true ∧ value c = n.toNat := by
    rcases hn.lt_or_eq with hlt | heq
    · obtain ⟨hfinite, hvalue⟩ := value_ofMantissa hlt
      exact ⟨_, hfinite, hvalue⟩
    · obtain ⟨c, hc, hvalue⟩ := exists_value_eq (n := 2 ^ 52) (by norm_num) (k := 1)
        (by norm_num) (by norm_num)
      refine ⟨c, hc, ?_⟩
      rw [hvalue, heq]
      norm_num
  obtain ⟨c, hc, hvalue⟩ := hnumber
  have hrounds := roundsTo_toFloat n
  rw [← hvalue] at hrounds ⊢
  exact (hrounds.value_eq hc).2

end CurveSketch.Binary64
