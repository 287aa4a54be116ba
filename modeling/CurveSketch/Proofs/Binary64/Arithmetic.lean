import CurveSketch.Proofs.Binary64.RoundsTo

/-!
# Arithmetic is correctly rounded

The sum, the difference, the product and the quotient of two finite numbers, and the number
of a machine word, are the exact result, rounded to nearest.

So the operations keep the order (`add_le_add_of_le`, `mul_le_mul_of_le`).
-/

namespace CurveSketch.Binary64

open Float.Model
open Float.Model.UnpackedFloat
open Float.Model.UnpackedFloat.ExtendedMantissa

/-! ## The operations -/

/-- The float of a machine word is the word, rounded. -/
theorem roundsTo_toFloat (n : UInt64) : RoundsTo n.toNat n.toFloat := by
  have h := roundsTo_normalize n.toNat 0
  rw [zpow_zero, mul_one] at h
  exact h

/-- Two numbers over their common unit. -/
theorem cast_apply_mul (sign : Sign) {m : Nat} {e t : Int} (h : t ≤ e) :
    ((sign.apply (m * 2 ^ (e - t).toNat : Nat) : Int) : Rat) * 2 ^ t = signed sign (m * 2 ^ e) := by
  rw [mul_zpow_eq h, cast_apply, signed_mul]

variable {x y : Float}

/-- A difference is rounded.  With a zero it is exact. -/
theorem roundsTo_sub (hx : x.isFinite = true) (hy : y.isFinite = true) :
    RoundsTo (value x - value y) (x - y) := by
  have hsub : x - y = .ofModel (.pack (.sub .binary64 x.toModel.unpack y.toModel.unpack)) := rfl
  rw [hsub, value, value]
  rcases zero_or_finite hx with ⟨s, hu⟩ | ⟨s, m, e, hm, hu⟩ <;>
    rcases zero_or_finite hy with ⟨s', hv⟩ | ⟨s', m', e', hm', hv⟩ <;> rw [hu, hv]
  · obtain ⟨s₀, hzero⟩ :
        ∃ s₀, UnpackedFloat.sub .binary64 (.zero s) (.zero s') = .zero s₀ := by
      cases s <;> cases s' <;> exact ⟨_, rfl⟩
    rw [hzero, unpackedValue_zero, unpackedValue_zero, sub_zero]
    exact roundsTo_pack (unpack_pack_zero s₀) rfl
  · have hrounds := roundsTo_pack (unpack_pack_of_unpack hv (-s')) rfl
    rw [unpackedValue, signed_neg, ← zero_sub] at hrounds
    exact hrounds
  · rw [unpackedValue_zero, sub_zero]
    exact roundsTo_pack (unpack_pack_of_unpack hu s) rfl
  · have hrounds := roundsTo_normalize (s.apply (m * 2 ^ (e - min e e').toNat : Nat) -
      s'.apply (m' * 2 ^ (e' - min e e').toNat : Nat)) (min e e')
    rw [Int.cast_sub, sub_mul, cast_apply_mul s (min_le_left e e'),
      cast_apply_mul s' (min_le_right e e')] at hrounds
    simp only [UnpackedFloat.sub, decreaseExponent_eq]
    exact hrounds

/-! ## Sums -/

/-- Negating changes nothing but the sign. -/
theorem unpack_neg (x : Float) : (-x).toModel.unpack = x.toModel.unpack.neg := by
  have hneg : (-x).toModel = .pack x.toModel.unpack.neg := rfl
  rw [hneg]
  cases hu : x.toModel.unpack with
  | notANumber => exact unpack_packedNaN
  | infinity s => exact unpack_pack_infinity (-s)
  | zero s => exact unpack_pack_zero (-s)
  | finite s m e hm => exact unpack_pack_of_unpack hu (-s)

theorem value_neg (hx : x.isFinite = true) :
    (-x).isFinite = true ∧ value (-x) = -value x := by
  rw [Float.isFinite, Float.Model.isFinite, value, value, unpack_neg]
  rcases zero_or_finite hx with ⟨s, hu⟩ | ⟨s, m, e, hm, hu⟩ <;> rw [hu, UnpackedFloat.neg]
  · exact ⟨rfl, neg_zero.symm⟩
  · exact ⟨rfl, signed_neg s _⟩

/-- What is between a number and its negation stays finite. -/
theorem RoundsTo.isFinite_of_abs_le {v : Rat} {c : Float} (h : RoundsTo v x)
    (hc : c.isFinite = true) (hle : |v| ≤ value c) : x.isFinite = true := by
  obtain ⟨hlow, hhigh⟩ := abs_le.mp hle
  obtain ⟨hnegated, hvalue⟩ := value_neg hc
  rw [← hvalue] at hlow
  exact isFinite_of_le_of_le hnegated hc (h.ge_of_ge hnegated hlow) (h.le_of_le hc hhigh)

/-- Adding is subtracting the negated number, the signs of zeros included. -/
theorem add_eq_sub_neg (x y : Float) : x + y = x - -y := by
  have hadd : x + y = .ofModel (.pack (.add .binary64 x.toModel.unpack y.toModel.unpack)) := rfl
  have hsub : x - -y =
    .ofModel (.pack (.sub .binary64 x.toModel.unpack (-y).toModel.unpack)) := rfl
  have hsign (s : Sign) : - -s = s := by cases s <;> rfl
  have happly (s : Sign) (n : Int) : (-s).apply n = -s.apply n := by
    cases s <;> simp [Sign.apply]
  rw [hadd, hsub, unpack_neg]
  congr 2
  cases x.toModel.unpack <;> cases y.toModel.unpack <;>
    simp only [UnpackedFloat.add, UnpackedFloat.sub, UnpackedFloat.neg, hsign, happly,
      sub_neg_eq_add]

/-- A sum is rounded. -/
theorem roundsTo_add (hx : x.isFinite = true) (hy : y.isFinite = true) :
    RoundsTo (value x + value y) (x + y) := by
  obtain ⟨hfinite, hvalue⟩ := value_neg hy
  have hrounds := roundsTo_sub hx hfinite
  rw [hvalue, sub_neg_eq_add] at hrounds
  rw [add_eq_sub_neg]
  exact hrounds

/-! ## Products -/

/-- The product of two canonical mantissas has bits enough for its exponent. -/
theorem le_fittingExponent_mul {m m' : Nat} {e e' : Int} (hm : 0 < m) (hm' : 0 < m')
    (h : IsCanonical m e) (h' : IsCanonical m' e') :
    e + e' ≤ fittingExponent (m * m') (e + e') := by
  rw [fittingExponent]
  rcases le_or_gt (e + e') (-1074) with hle | hgt
  · exact le_max_of_le_right hle
  · refine le_max_of_le_left ?_
    have hbits : 2 ^ 52 ≤ m * m' := by
      rcases h.normal with hnormal | rfl
      · exact hnormal.trans (Nat.le_mul_of_pos_right m hm')
      · have hnormal' : 2 ^ 52 ≤ m' := h'.normal.resolve_right (by omega)
        exact hnormal'.trans (Nat.le_mul_of_pos_left m' hm)
    have hlog : 52 ≤ (m * m').log2 := (Nat.le_log2 (by positivity)).mpr hbits
    omega

/-- A product is rounded. -/
theorem roundsTo_mul (hx : x.isFinite = true) (hy : y.isFinite = true) :
    RoundsTo (value x * value y) (x * y) := by
  have hmul : x * y = .ofModel (.pack (.mul .binary64 x.toModel.unpack y.toModel.unpack)) := rfl
  rw [hmul, value, value]
  rcases zero_or_finite hx with ⟨s, hu⟩ | ⟨s, m, e, hm, hu⟩ <;>
    rcases zero_or_finite hy with ⟨s', hv⟩ | ⟨s', m', e', hm', hv⟩ <;> rw [hu, hv]
  · rw [unpackedValue_zero, zero_mul]
    exact roundsTo_pack (unpack_pack_zero (s * s')) rfl
  · rw [unpackedValue_zero, zero_mul]
    exact roundsTo_pack (unpack_pack_zero (s * s')) rfl
  · rw [unpackedValue_zero, mul_zero]
    exact roundsTo_pack (unpack_pack_zero (s * s')) rfl
  · have hfits := le_fittingExponent_mul hm hm' (isCanonical_of_unpack hu).1
      (isCanonical_of_unpack hv).1
    have hrounds := roundsTo_roundWithAccuracy (s * s') (isTruncation_exact (m * m')) hfits
    rw [Nat.cast_mul, zpow_add₀ two_ne_zero, mul_mul_mul_comm] at hrounds
    rw [unpackedValue, unpackedValue, signed_mul_signed]
    exact hrounds

/-! ## The quotient -/

/-- What is left of a division is compared with nothing and with half the divisor. -/
theorem bits_accuracyOfFraction (m rest : Nat) {den : Nat} (hden : 0 < den) :
    ((ofMantissaAndAccuracy m (accuracyOfFraction rest den)).roundBit = true ↔
        den ≤ 2 * rest) ∧
      ((ofMantissaAndAccuracy m (accuracyOfFraction rest den)).stickyBit = false ↔
        rest = 0 ∨ 2 * rest = den) := by
  rw [accuracyOfFraction]
  split
  · rename_i hrest
    exact ⟨iff_of_false Bool.false_ne_true (by omega), iff_of_true rfl (Or.inl hrest)⟩
  · rename_i hrest
    rcases lt_trichotomy (2 * rest) den with hlt | heq | hgt
    · rw [compare_lt_iff_lt.mpr hlt]
      exact ⟨iff_of_false Bool.false_ne_true (by omega),
        iff_of_false nofun (by omega)⟩
    · rw [compare_eq_iff_eq.mpr heq]
      exact ⟨iff_of_true rfl heq.ge, iff_of_true rfl (Or.inr heq)⟩
    · rw [compare_gt_iff_gt.mpr hgt]
      exact ⟨iff_of_true rfl hgt.le, iff_of_false nofun (by omega)⟩

/-- What is left of a division says which bits are to be remembered. -/
theorem isTruncation_div (num : Nat) {den : Nat} (hden : 0 < den) :
    IsTruncation (ofMantissaAndAccuracy (num / den) (accuracyOfFraction (num % den) den))
      (num / den : Rat) := by
  have hpos : (0 : Rat) < den := by exact_mod_cast hden
  have hrest : ((num % den : Nat) : Rat) < den := by exact_mod_cast Nat.mod_lt num hden
  have hparts : (num / den : Rat) = (num / den : Nat) + (num % den : Nat) / den := by
    rw [div_eq_iff hpos.ne', add_mul, div_mul_cancel₀ _ hpos.ne', mul_comm]
    exact_mod_cast (Nat.div_add_mod num den).symm
  obtain ⟨hround, hsticky⟩ := bits_accuracyOfFraction (num / den) (num % den) hden
  rw [hparts]
  refine ⟨?_, ?_, hround.trans ?_, hsticky.trans ?_⟩ <;> rw [mantissa_ofMantissaAndAccuracy]
  · exact le_add_of_nonneg_right (by positivity)
  · exact add_lt_add_of_le_of_lt le_rfl ((div_lt_one hpos).mpr hrest)
  · rw [add_le_add_iff_left, div_le_div_iff₀ two_pos hpos, one_mul, mul_comm]
    exact_mod_cast Iff.rfl
  · rw [add_eq_left, add_right_inj, div_eq_zero_iff, div_eq_div_iff hpos.ne' two_ne_zero, one_mul,
      mul_comm, or_iff_left hpos.ne', Nat.cast_eq_zero]
    exact or_congr_right (by exact_mod_cast Iff.rfl)

/-- With enough zeros at the end of the dividend the quotient fills 53 bits. -/
theorem le_log2_div {m m' k : Nat} (hm : 0 < m) (hm' : 0 < m')
    (hbits : 53 + m'.log2 ≤ m.log2 + k) : 52 ≤ (m * 2 ^ k / m').log2 := by
  have hquotient : 2 ^ 52 ≤ m * 2 ^ k / m' := by
    rw [Nat.le_div_iff_mul_le hm']
    calc 2 ^ 52 * m' ≤ 2 ^ 52 * 2 ^ (m'.log2 + 1) :=
          Nat.mul_le_mul_left _ Nat.lt_log2_self.le
      _ = 2 ^ (53 + m'.log2) := by ring
      _ ≤ 2 ^ (m.log2 + k) := Nat.pow_le_pow_right two_pos hbits
      _ = 2 ^ m.log2 * 2 ^ k := pow_add _ _ _
      _ ≤ m * 2 ^ k := Nat.mul_le_mul_right _ (Nat.log2_self_le hm.ne')
  exact (Nat.le_log2 (by omega)).mpr hquotient

/-- The quotient of the mantissas has bits enough for its exponent. -/
theorem exists_divCore_eq {m m' : Nat} (hm : 0 < m) (hm' : 0 < m') (e e' : Int) :
    ∃ k : Nat, divCore .binary64 m e m' e' =
        (m * 2 ^ k / m', e - e' - k, accuracyOfFraction (m * 2 ^ k % m') m') ∧
      e - e' - k ≤ fittingExponent (m * 2 ^ k / m') (e - e' - k) := by
  obtain ⟨t, ht⟩ : ∃ t, t = min (e - e') (Format.binary64.targetExponent
    (totalExponent m e - totalExponent m' e')) := ⟨_, rfl⟩
  have htarget : Format.binary64.targetExponent (totalExponent m e - totalExponent m' e') =
      max (m.log2 + 1 + e - (m'.log2 + 1 + e') - 53) (-1074) := rfl
  refine ⟨(e - e' - t).toNat, ?_, ?_⟩
  · have hexponent : t = e - e' - (e - e' - t).toNat := by omega
    rw [← hexponent, ← Nat.shiftLeft_eq, ht]
    rfl
  · generalize hk : (e - e' - t).toNat = k
    rw [fittingExponent]
    rcases le_or_gt (e - e' - k) (-1074) with hmin | hmin
    · exact le_max_of_le_right hmin
    · refine le_max_of_le_left ?_
      have hlog : 52 ≤ (m * 2 ^ k / m').log2 := le_log2_div hm hm' (by omega)
      omega

/-- A quotient is rounded. -/
theorem roundsTo_div (hx : x.isFinite = true) (hy : y.isFinite = true) (hzero : value y ≠ 0) :
    RoundsTo (value x / value y) (x / y) := by
  have hdiv : x / y = .ofModel (.pack (.div .binary64 x.toModel.unpack y.toModel.unpack)) := rfl
  rcases zero_or_finite hy with ⟨s', hv⟩ | ⟨s', m', e', hm', hv⟩
  · rw [value, hv] at hzero
    exact absurd rfl hzero
  · rw [hdiv, value, value, hv]
    rcases zero_or_finite hx with ⟨s, hu⟩ | ⟨s, m, e, hm, hu⟩ <;> rw [hu]
    · rw [unpackedValue_zero, zero_div]
      exact roundsTo_pack (unpack_pack_zero (s / s')) rfl
    · obtain ⟨k, hcore, hfits⟩ := exists_divCore_eq hm hm' e e'
      have hvalue : (m * 2 ^ e : Rat) / (m' * 2 ^ e') =
          ((m * 2 ^ k : Nat) / m' : Rat) * 2 ^ (e - e' - k) := by
        rw [zpow_sub₀ two_ne_zero, zpow_sub₀ two_ne_zero, zpow_natCast]
        push_cast
        field_simp
      have hrounds := roundsTo_roundWithAccuracy (s / s') (isTruncation_div (m * 2 ^ k) hm') hfits
      rw [unpackedValue, unpackedValue, signed_div, hvalue]
      simp only [UnpackedFloat.div, hcore]
      exact hrounds

/-- Dividing infinity by a positive number leaves it. -/
theorem unpack_div_of_infinity (hx : x.toModel.unpack = .infinity .positive)
    (hy : y.isFinite = true) (hpos : 0 < value y) :
    (x / y).toModel.unpack = .infinity .positive := by
  have hdiv : x / y = .ofModel (.pack (.div .binary64 x.toModel.unpack y.toModel.unpack)) := rfl
  rcases zero_or_finite hy with ⟨s, hv⟩ | ⟨_ | _, m, e, hm, hv⟩
  · rw [value, hv] at hpos
    exact absurd hpos (lt_irrefl 0)
  · rw [value, hv] at hpos
    exact absurd (unpackedValue_neg hm) hpos.asymm
  · rw [hdiv, hx, hv]
    exact unpack_pack_infinity .positive

/-- Adding infinity leaves it. -/
theorem unpack_add_of_infinity (hx : x.isFinite = true)
    (hy : y.toModel.unpack = .infinity .positive) :
    (x + y).toModel.unpack = .infinity .positive := by
  have hadd : x + y = .ofModel (.pack (.add .binary64 x.toModel.unpack y.toModel.unpack)) := rfl
  rcases zero_or_finite hx with ⟨s, hu⟩ | ⟨s, m, e, hm, hu⟩ <;> rw [hadd, hu, hy] <;>
    exact unpack_pack_infinity .positive

/-! ## The operations keep the order -/

variable {a b c : Float}

/-- Roundings of a number are the same as numbers. -/
theorem RoundsTo.le_of_value (hx : RoundsTo (value c) x) (hy : RoundsTo (value c) y)
    (hc : c.isFinite = true) : x ≤ y := by
  obtain ⟨hfx, hvx⟩ := hx.value_eq hc
  obtain ⟨hfy, hvy⟩ := hy.value_eq hc
  exact (le_iff_value hfx hfy).mpr (hvx.trans hvy.symm).le

/-- Sums with the same number have the order of what is added.  Only zeros are different
and have the same value, and adding one of them is exact. -/
theorem add_le_add_of_le (hc : c.isFinite = true) (ha : a.isFinite = true)
    (hb : b.isFinite = true) (hle : a ≤ b) : c + a ≤ c + b := by
  have hsumA := roundsTo_add hc ha
  have hsumB := roundsTo_add hc hb
  rcases ((le_iff_value ha hb).mp hle).lt_or_eq with hlt | heq
  · exact hsumA.mono hsumB (by linarith)
  · by_cases hzero : value a = 0
    · rw [hzero, add_zero] at hsumA
      rw [← heq, hzero, add_zero] at hsumB
      exact hsumA.le_of_value hsumB hc
    · obtain rfl := eq_of_value_eq ha hb heq hzero
      exact le_self hsumA.isNaN_eq_false

/-- Products with a positive number have the order of what is multiplied. -/
theorem mul_le_mul_of_le (hc : c.isFinite = true) (hpos : 0 < value c) (ha : a.isFinite = true)
    (hb : b.isFinite = true) (hle : a ≤ b) : a * c ≤ b * c := by
  have hproductA := roundsTo_mul ha hc
  have hproductB := roundsTo_mul hb hc
  rcases ((le_iff_value ha hb).mp hle).lt_or_eq with hlt | heq
  · exact hproductA.mono hproductB (mul_lt_mul_of_pos_right hlt hpos)
  · by_cases hzero : value a = 0
    · rw [hzero, zero_mul, ← value_zero.2] at hproductA
      rw [← heq, hzero, zero_mul, ← value_zero.2] at hproductB
      exact hproductA.le_of_value hproductB value_zero.1
    · obtain rfl := eq_of_value_eq ha hb heq hzero
      exact le_self hproductA.isNaN_eq_false

end CurveSketch.Binary64
