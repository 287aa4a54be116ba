import CurveSketch.Proofs.Binary64.Order

/-!
# Rounding goes to the nearest number

An exact result is rounded in two moves.  Its mantissa is shifted until it has 53 bits,
or the exponent is the least one, and two bits remember what was shifted out.  Then the
mantissa is rounded by these bits.

`IsTruncation` says what the two bits know: how the fraction compares with nothing and with
a half.  This is kept by every shift (`IsTruncation.shiftRight`), and it is enough for the
rounding to be a nearest natural number.  As every canonical number is a multiple of the
unit or lies below all mantissas that fill 53 bits, the rounding is a nearest one among all
of them too: `roundWithAccuracy_eq` says that its result `IsRounding`.
-/

namespace CurveSketch.Binary64

open Float.Model
open Float.Model.UnpackedFloat
open Float.Model.UnpackedFloat.ExtendedMantissa

/-! ## The bits that are shifted out -/

/-- The mantissa is `q` without its fraction.  The first bit is set if the fraction is at
least a half, and the second one if it is neither nothing nor a half. -/
structure IsTruncation (em : ExtendedMantissa) (q : Rat) : Prop where
  le : em.mantissa ≤ q
  lt_succ : q < em.mantissa + 1
  roundBit_iff : em.roundBit = true ↔ em.mantissa + 1 / 2 ≤ q
  stickyBit_iff : em.stickyBit = false ↔ q = em.mantissa ∨ q = em.mantissa + 1 / 2

theorem mantissa_le_roundedMantissa (em : ExtendedMantissa) :
    em.mantissa ≤ em.roundedMantissa := by
  obtain ⟨m, _ | _, _ | _⟩ := em
  · exact le_rfl
  · exact le_rfl
  · exact Nat.le_add_right m _
  · exact Nat.le_succ m

theorem roundedMantissa_le_succ (em : ExtendedMantissa) :
    em.roundedMantissa ≤ em.mantissa + 1 := by
  obtain ⟨m, _ | _, _ | _⟩ := em
  · exact Nat.le_succ m
  · exact Nat.le_succ m
  · exact Nat.add_le_add_left (Nat.lt_succ_iff.mp (Nat.mod_lt m two_pos)) m
  · exact le_rfl

theorem mantissa_shiftRight (em : ExtendedMantissa) (k : Nat) :
    (em >>> k).mantissa = em.mantissa / 2 ^ k := by
  induction k with
  | zero => exact (Nat.div_one _).symm
  | succ k ih =>
    rw [pow_succ, ← Nat.div_div_eq_div_mul, ← ih]
    rfl

theorem mantissa_ofMantissaAndAccuracy (m : Nat) (accuracy : Accuracy) :
    (ofMantissaAndAccuracy m accuracy).mantissa = m := by
  rcases accuracy with _ | (_ | _ | _) <;> rfl

theorem isTruncation_exact (m : Nat) : IsTruncation (ofMantissaAndAccuracy m .exact) m := by
  have hhalf : ¬(m : Rat) + 1 / 2 ≤ m := by linarith
  exact ⟨le_rfl, lt_add_one _, iff_of_false Bool.false_ne_true hhalf,
    iff_of_true rfl (Or.inl rfl)⟩

namespace IsTruncation

variable {em : ExtendedMantissa} {q : Rat}

/-- Neither bit is set exactly if there is no fraction. -/
theorem eq_mantissa_iff (h : IsTruncation em q) :
    q = em.mantissa ↔ (em.roundBit || em.stickyBit) = false := by
  rw [Bool.or_eq_false_iff, ← Bool.not_eq_true em.roundBit, h.roundBit_iff, h.stickyBit_iff]
  constructor
  · intro heq
    exact ⟨by rw [heq]; linarith, Or.inl heq⟩
  · rintro ⟨hhalf, heq | heq⟩
    · exact heq
    · exact absurd heq.ge hhalf

/-- The bit that is shifted out is a half from now on, and what was a fraction before is
less than a half. -/
theorem shiftRightOne (h : IsTruncation em q) : IsTruncation em.shiftRightOne (q / 2) := by
  have hle := h.le
  have hlt := h.lt_succ
  have hround : em.shiftRightOne.roundBit = true ↔ em.mantissa % 2 = 1 := by
    show (em.mantissa % 2 != 0) = true ↔ _
    rw [bne_iff_ne, Nat.mod_two_ne_zero]
  have hsticky : em.shiftRightOne.stickyBit = false ↔ q = em.mantissa := h.eq_mantissa_iff.symm
  have hmantissa : em.shiftRightOne.mantissa = em.mantissa / 2 := rfl
  have hparts : (em.mantissa : Rat) = 2 * (em.mantissa / 2 : Nat) + (em.mantissa % 2 : Nat) := by
    exact_mod_cast (Nat.div_add_mod em.mantissa 2).symm
  rcases Nat.mod_two_eq_zero_or_one em.mantissa with heven | hodd
  · rw [heven] at hround hparts
    rw [Nat.cast_zero, add_zero] at hparts
    refine ⟨by rw [hmantissa]; linarith, by rw [hmantissa]; linarith, ?_, ?_⟩
    · rw [hround, hmantissa]
      exact iff_of_false zero_ne_one (by linarith)
    · rw [hsticky, hmantissa]
      constructor
      · intro heq
        exact Or.inl (by linarith)
      · rintro (heq | heq) <;> linarith
  · rw [hodd] at hround hparts
    rw [Nat.cast_one] at hparts
    refine ⟨by rw [hmantissa]; linarith, by rw [hmantissa]; linarith, ?_, ?_⟩
    · rw [hround, hmantissa]
      exact iff_of_true rfl (by linarith)
    · rw [hsticky, hmantissa]
      constructor
      · intro heq
        exact Or.inr (by linarith)
      · rintro (heq | heq) <;> linarith

theorem shiftRight (h : IsTruncation em q) (k : Nat) : IsTruncation (em >>> k) (q / 2 ^ k) := by
  induction k with
  | zero =>
    rw [pow_zero, div_one]
    exact h
  | succ k ih =>
    rw [pow_succ, ← div_div]
    exact ih.shiftRightOne

/-- Rounding moves by a half at most. -/
theorem abs_roundedMantissa_sub_le (h : IsTruncation em q) :
    |(em.roundedMantissa : Rat) - q| ≤ 1 / 2 := by
  obtain ⟨hle, hlt, hround, hsticky⟩ := h
  obtain ⟨m, _ | _, _ | _⟩ := em
  · have hbelow : ¬(m : Rat) + 1 / 2 ≤ q := fun hhalf => Bool.false_ne_true (hround.mpr hhalf)
    show |(m : Rat) - q| ≤ _
    rw [abs_le]
    constructor <;> linarith
  · have hbelow : ¬(m : Rat) + 1 / 2 ≤ q := fun hhalf => Bool.false_ne_true (hround.mpr hhalf)
    show |(m : Rat) - q| ≤ _
    rw [abs_le]
    constructor <;> linarith
  · -- a tie, which goes to the even neighbour
    have hhalf : (m : Rat) + 1 / 2 ≤ q := hround.mp rfl
    have htie : q = m + 1 / 2 := (hsticky.mp rfl).resolve_left (by linarith)
    have hodd : ((m % 2 : Nat) : Rat) ≤ 1 := by
      exact_mod_cast Nat.lt_succ_iff.mp (Nat.mod_lt m two_pos)
    have hnonneg : (0 : Rat) ≤ (m % 2 : Nat) := Nat.cast_nonneg _
    show |((m + m % 2 : Nat) : Rat) - q| ≤ _
    rw [abs_le, Nat.cast_add]
    constructor <;> linarith
  · have hhalf : (m : Rat) + 1 / 2 ≤ q := hround.mp rfl
    show |((m + 1 : Nat) : Rat) - q| ≤ _
    rw [abs_le, Nat.cast_succ]
    constructor <;> linarith

/-- No natural number is nearer. -/
theorem abs_roundedMantissa_sub_le_abs (h : IsTruncation em q) (n : Nat) :
    |(em.roundedMantissa : Rat) - q| ≤ |n - q| := by
  have hhalf := abs_le.mp h.abs_roundedMantissa_sub_le
  rcases lt_trichotomy n em.roundedMantissa with hlt | rfl | hgt
  · have hstep : (n : Rat) + 1 ≤ em.roundedMantissa := by exact_mod_cast hlt
    refine h.abs_roundedMantissa_sub_le.trans (le_abs.mpr (Or.inr ?_))
    linarith
  · exact le_rfl
  · have hstep : (em.roundedMantissa : Rat) + 1 ≤ n := by exact_mod_cast hgt
    refine h.abs_roundedMantissa_sub_le.trans (le_abs.mpr (Or.inl ?_))
    linarith

end IsTruncation

/-! ## The exponent that fits -/

/-- The exponent that a number of this size has in canonical form. -/
def fittingExponent (m : Nat) (e : Int) : Int :=
  max (m.log2 + 1 + e - 53) (-1074)

theorem shiftToTargetExponent_eq (m : Nat) (e : Int) (accuracy : Accuracy) :
    shiftToTargetExponent .binary64 m e accuracy =
      (ofMantissaAndAccuracy m accuracy >>> (fittingExponent m e - e).toNat,
        e + (fittingExponent m e - e).toNat) := rfl

/-- Shifting to the exponent that fits makes the mantissa canonical. -/
theorem isCanonical_fitting {m : Nat} {e : Int} (he : e ≤ fittingExponent m e) :
    IsCanonical (m / 2 ^ (fittingExponent m e - e).toNat) (fittingExponent m e) := by
  have hupper : m < 2 ^ (m.log2 + 1) := Nat.lt_log2_self
  refine ⟨?_, le_max_right _ _, ?_⟩
  · have hfits : m.log2 + 1 + e - 53 ≤ fittingExponent m e := le_max_left _ _
    refine Nat.div_lt_of_lt_mul (hupper.trans_le ?_)
    rw [← pow_add]
    exact Nat.pow_le_pow_right two_pos (by omega)
  · rcases max_choice (m.log2 + 1 + e - 53) (-1074) with hmax | hmin
    · have hfits : fittingExponent m e = m.log2 + 1 + e - 53 := hmax
      have hm : m ≠ 0 := by
        rintro rfl
        rw [Nat.log2_zero] at hfits
        omega
      refine Or.inl ((Nat.le_div_iff_mul_le (by positivity)).mpr ?_)
      refine le_trans ?_ (Nat.log2_self_le hm)
      rw [← pow_add]
      exact Nat.pow_le_pow_right two_pos (by omega)
    · exact Or.inr hmin

/-- A mantissa of 53 bits is not shifted. -/
theorem fittingExponent_le {m : Nat} {e : Int} (hm : m < 2 ^ 53) (he : -1074 ≤ e) :
    fittingExponent m e ≤ e := by
  have hlog : m.log2 < 53 := by
    rcases Nat.eq_zero_or_pos m with rfl | hpos
    · decide
    · exact (Nat.log2_lt hpos.ne').mpr hm
  rw [fittingExponent]
  omega

/-- Rounding up may give one bit too many.  Its last bit is zero then, and the second
shift loses nothing. -/
theorem exists_canonical_of_carry {r : Nat} {t : Int} (hr : r ≤ 2 ^ 53) (ht : -1074 ≤ t)
    (hnormal : 2 ^ 52 ≤ r ∨ t = -1074) :
    ∃ m e, IsCanonical m e ∧ (m * 2 ^ e : Rat) = r * 2 ^ t ∧
      (shiftToTargetExponent .binary64 r t .exact).1.mantissa = m ∧
      (shiftToTargetExponent .binary64 r t .exact).2 = e := by
  rw [shiftToTargetExponent_eq]
  rcases hr.lt_or_eq with hlt | rfl
  · have hstay : (fittingExponent r t - t).toNat = 0 := by
      have hle := fittingExponent_le hlt ht
      omega
    refine ⟨r, t, ⟨hlt, ht, hnormal⟩, rfl, ?_, ?_⟩
    · rw [mantissa_shiftRight, mantissa_ofMantissaAndAccuracy, hstay, pow_zero, Nat.div_one]
    · rw [hstay]
      exact add_zero t
  · have hlog : Nat.log2 (2 ^ 53) = 53 := Nat.log2_two_pow
    have hmove : (fittingExponent (2 ^ 53) t - t).toNat = 1 := by
      rw [fittingExponent, hlog]
      omega
    refine ⟨2 ^ 52, t + 1, ⟨by norm_num, by omega, Or.inl le_rfl⟩, ?_, ?_, ?_⟩
    · rw [zpow_add_one₀ two_ne_zero]
      push_cast
      ring
    · rw [mantissa_shiftRight, mantissa_ofMantissaAndAccuracy, hmove]
      norm_num
    · rw [hmove]
      rfl

/-! ## Rounding an exact result -/

/-- Canonical fields that a magnitude `v` may be rounded to: no canonical number is
nearer. -/
structure IsRounding (v : Rat) (m : Nat) (e : Int) : Prop where
  canonical : IsCanonical m e
  nearest : ∀ {c : Nat} {k : Int}, IsCanonical c k → |(m * 2 ^ e : Rat) - v| ≤ |c * 2 ^ k - v|

/-- A number is a multiple of a smaller unit. -/
theorem mul_zpow_eq {c : Nat} {k t : Int} (h : t ≤ k) :
    (c * 2 ^ k : Rat) = (c * 2 ^ (k - t).toNat : Nat) * 2 ^ t := by
  have hk : (2 : Rat) ^ k = 2 ^ (k - t).toNat * 2 ^ t := by
    rw [← zpow_natCast, ← zpow_add₀ two_ne_zero]
    congr 1
    omega
  rw [hk]
  push_cast
  ring

/-- Rounding the mantissa is a rounding among all canonical numbers.  Those with a
smaller unit are less than the mantissa already. -/
theorem IsTruncation.isRounding {em : ExtendedMantissa} {p : Rat} (h : IsTruncation em p)
    {t : Int} (hem : IsCanonical em.mantissa t) {m : Nat} {e : Int} (hm : IsCanonical m e)
    (heq : (m * 2 ^ e : Rat) = em.roundedMantissa * 2 ^ t) : IsRounding (p * 2 ^ t) m e := by
  have hpos : (0 : Rat) < 2 ^ t := by positivity
  have hmultiple (n : Nat) : |(m * 2 ^ e : Rat) - p * 2 ^ t| ≤ |n * 2 ^ t - p * 2 ^ t| := by
    rw [heq, ← sub_mul, ← sub_mul, abs_mul, abs_mul]
    exact mul_le_mul_of_nonneg_right (h.abs_roundedMantissa_sub_le_abs n) (abs_nonneg _)
  refine ⟨hm, ?_⟩
  intro c k hc
  rcases le_or_gt t k with htk | hkt
  · rw [mul_zpow_eq htk]
    exact hmultiple _
  · have hlt : (c * 2 ^ k : Rat) < em.mantissa * 2 ^ t := hc.lt_of_exponent_lt hem hkt
    have hle : (em.mantissa * 2 ^ t : Rat) ≤ p * 2 ^ t := mul_le_mul_of_nonneg_right h.le hpos.le
    refine (hmultiple em.mantissa).trans ?_
    rw [abs_sub_comm, abs_sub_comm _ (p * 2 ^ t), abs_of_nonneg (by linarith),
      abs_of_nonneg (by linarith)]
    linarith

/-- An exact result that has bits enough is rounded to canonical fields. -/
theorem roundWithAccuracy_eq (sign : Sign) {m : Nat} {e : Int} {accuracy : Accuracy} {q : Rat}
    (hq : IsTruncation (ofMantissaAndAccuracy m accuracy) q) (he : e ≤ fittingExponent m e) :
    ∃ m' e', IsRounding (q * 2 ^ e) m' e' ∧
      roundWithAccuracy .binary64 sign m e accuracy = ofCanonical sign m' e' := by
  have hexponent : e + (fittingExponent m e - e).toNat = fittingExponent m e := by omega
  have hvalue : q * 2 ^ e =
      q / 2 ^ (fittingExponent m e - e).toNat * 2 ^ fittingExponent m e := by
    have hpow : (2 : Rat) ^ fittingExponent m e =
        2 ^ e * 2 ^ (fittingExponent m e - e).toNat := by
      rw [← zpow_natCast, ← zpow_add₀ two_ne_zero, hexponent]
    rw [hpow]
    field_simp
  have htruncation := hq.shiftRight (fittingExponent m e - e).toNat
  have hem : IsCanonical
      (ofMantissaAndAccuracy m accuracy >>> (fittingExponent m e - e).toNat).mantissa
      (fittingExponent m e) := by
    rw [mantissa_shiftRight, mantissa_ofMantissaAndAccuracy]
    exact isCanonical_fitting he
  have hshift := shiftToTargetExponent_eq m e accuracy
  rw [hexponent] at hshift
  generalize ofMantissaAndAccuracy m accuracy >>> (fittingExponent m e - e).toNat = em at *
  have hupper : em.roundedMantissa ≤ 2 ^ 53 := (roundedMantissa_le_succ em).trans hem.lt
  have hnormal : 2 ^ 52 ≤ em.roundedMantissa ∨ fittingExponent m e = -1074 :=
    hem.normal.imp_left fun h => h.trans (mantissa_le_roundedMantissa em)
  obtain ⟨m', e', hm', heq, hmantissa', hexponent'⟩ :=
    exists_canonical_of_carry hupper hem.min_le hnormal
  refine ⟨m', e', ?_, ?_⟩
  · rw [hvalue]
    exact htruncation.isRounding hem hm' heq
  · simp only [roundWithAccuracy, hshift, hmantissa', hexponent', ofCanonical]

end CurveSketch.Binary64
