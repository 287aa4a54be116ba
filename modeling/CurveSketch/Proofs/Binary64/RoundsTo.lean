import CurveSketch.Proofs.Binary64.Nearest

/-!
# Rounding to a binary64 number

`RoundsTo` says that no binary64 number is nearer to an exact result than the rounded one,
where an infinity counts as the first power of two beyond all numbers (`reach`).

So a result that is itself a number is exact (`RoundsTo.value_eq`), no finite number lies
strictly between the exact result and the rounded one (`RoundsTo.le_of_le`,
`RoundsTo.ge_of_ge`), and rounding keeps the order of exact results (`RoundsTo.mono`).

What the operations do at their end is such a rounding: `roundsTo_roundWithAccuracy` and
`roundsTo_normalize`.
-/

namespace CurveSketch.Binary64

open Float.Model
open Float.Model.UnpackedFloat
open Float.Model.UnpackedFloat.ExtendedMantissa

/-! ## Signs -/

theorem cast_apply (sign : Sign) (n : Nat) : ((sign.apply n : Int) : Rat) = signed sign n := by
  cases sign <;> simp [Sign.apply, signed]

theorem signed_mul (sign : Sign) (p q : Rat) : signed sign p * q = signed sign (p * q) := by
  cases sign <;> simp [signed]

theorem signed_div (s s' : Sign) (p q : Rat) :
    signed s p / signed s' q = signed (s / s') (p / q) := by
  cases s <;> cases s'
  · exact neg_div_neg_eq p q
  · exact neg_div q p
  · exact div_neg p
  · rfl

theorem signed_mul_signed (s s' : Sign) (p q : Rat) :
    signed s p * signed s' q = signed (s * s') (p * q) := by
  cases s <;> cases s'
  · exact neg_mul_neg p q
  · exact neg_mul p q
  · exact mul_neg p q
  · rfl

theorem signed_neg (sign : Sign) (q : Rat) : signed (-sign) q = -signed sign q := by
  cases sign
  · exact (neg_neg q).symm
  · rfl

/-! ## Numbers that are packed -/

theorem isFinite_ofCanonical (sign : Sign) (m : Nat) (e : Int) :
    (ofCanonical sign m e).isFinite = true := by
  unfold ofCanonical
  split <;> rfl

/-- Between finite numbers there are only finite ones. -/
theorem isFinite_of_le_of_le {a x b : Float} (ha : a.isFinite = true) (hb : b.isFinite = true)
    (hax : a ≤ x) (hxb : x ≤ b) : x.isFinite = true := by
  rcases finite_or_infinity (le_iff.mp hax).2.1 with hfinite | ⟨_ | _, hinf⟩
  · exact hfinite
  · exact absurd hax (not_le_neg_infinity ha hinf)
  · exact absurd hxb (not_infinity_le hinf hb)

theorem value_zero : (0 : Float).isFinite = true ∧ value 0 = 0 := ⟨rfl, rfl⟩

theorem value_half : (0.5 : Float).isFinite = true ∧ value 0.5 = 1 / 2 := by
  have hu : (0.5 : Float).toModel.unpack = .finite .positive (2 ^ 52) (-53) (by norm_num) := rfl
  refine ⟨rfl, ?_⟩
  rw [value, hu, unpackedValue, signed]
  norm_num

theorem value_one : (1 : Float).isFinite = true ∧ value 1 = 1 := by
  have hu : (1 : Float).toModel.unpack = .finite .positive (2 ^ 52) (-52) (by norm_num) := rfl
  refine ⟨rfl, ?_⟩
  rw [value, hu, unpackedValue, signed]
  norm_num

/-- Canonical fields with an exponent of eleven bits are a number. -/
theorem value_pack_ofCanonical (sign : Sign) {m : Nat} {e : Int} (h : IsCanonical m e)
    (he : e ≤ 971) :
    (Float.ofModel (.pack (ofCanonical sign m e))).isFinite = true ∧
      value (.ofModel (.pack (ofCanonical sign m e))) = signed sign (m * 2 ^ e) := by
  have hunpack : (Float.Model.pack (ofCanonical sign m e)).unpack = ofCanonical sign m e := by
    rw [unpack_pack_ofCanonical sign h, if_pos he]
  rw [Float.isFinite, Float.Model.isFinite, value, hunpack, unpackedValue_ofCanonical]
  exact ⟨isFinite_ofCanonical sign m e, rfl⟩

/-- The magnitude of a number has canonical fields. -/
theorem exists_abs_value_eq {c : Float} (hc : c.isFinite = true) :
    ∃ m e, IsCanonical m e ∧ e ≤ 971 ∧ |value c| = m * 2 ^ e := by
  obtain ⟨sign, m, e, hm, he, hfields⟩ := exists_ofCanonical hc
  refine ⟨m, e, hm, he, ?_⟩
  have hnonneg : (0 : Rat) ≤ m * 2 ^ e := by positivity
  rw [value, hfields, unpackedValue_ofCanonical]
  cases sign
  · rw [signed, abs_neg, abs_of_nonneg hnonneg]
  · exact abs_of_nonneg hnonneg

/-! ## The reach of a number -/

/-- The first power of two that is beyond all numbers. -/
def top : Rat := 2 ^ 1024

theorem top_pos : 0 < top := by
  rw [top]
  positivity

/-- The least canonical fields that are too great for a number. -/
theorem isCanonical_top : IsCanonical (2 ^ 52) 972 :=
  ⟨by norm_num, by norm_num, Or.inl le_rfl⟩

theorem top_eq : ((2 ^ 52 : Nat) * 2 ^ (972 : Int) : Rat) = top := by
  rw [top, Nat.cast_pow, Nat.cast_ofNat, ← zpow_natCast, ← zpow_natCast, ← zpow_add₀ two_ne_zero]
  rfl

theorem IsCanonical.lt_top {m : Nat} {e : Int} (h : IsCanonical m e) (he : e ≤ 971) :
    (m * 2 ^ e : Rat) < top := by
  rw [← top_eq]
  exact h.lt_of_exponent_lt isCanonical_top (by omega)

theorem IsCanonical.top_le {m : Nat} {e : Int} (h : IsCanonical m e) (he : ¬e ≤ 971) :
    top ≤ m * 2 ^ e := by
  have hm : 2 ^ 52 ≤ m := h.normal.resolve_right (by omega)
  have hunit : (2 : Rat) ^ (972 : Int) ≤ 2 ^ e := zpow_le_zpow_right₀ (by norm_num) (by omega)
  rw [← top_eq]
  exact mul_le_mul (by exact_mod_cast hm) hunit (by positivity) m.cast_nonneg

/-- The number that is unpacked, or the power of two that an infinity counts as. -/
def unpackedReach : UnpackedFloat → Rat
  | .infinity sign => signed sign top
  | u => unpackedValue u

/-- The number that `x` is.  An infinity counts as the first power of two that is beyond
all numbers. -/
def reach (x : Float) : Rat :=
  unpackedReach x.toModel.unpack

variable {x y : Float}

theorem reach_of_isFinite (hx : x.isFinite = true) : reach x = value x := by
  rw [reach, value]
  rcases zero_or_finite hx with ⟨_, hu⟩ | ⟨_, _, _, _, hu⟩ <;> rw [hu] <;> rfl

theorem reach_of_infinity {sign : Sign} (hx : x.toModel.unpack = .infinity sign) :
    reach x = signed sign top :=
  congrArg unpackedReach hx

theorem abs_value_lt (hx : x.isFinite = true) : |value x| < top := by
  obtain ⟨m, e, hm, he, habs⟩ := exists_abs_value_eq hx
  rw [habs]
  exact hm.lt_top he

/-- The reach of an infinity has canonical fields too. -/
theorem exists_reach_eq (hx : x.isNaN = false) :
    ∃ sign m e, IsCanonical m e ∧ (m * 2 ^ e : Rat) ≤ top ∧
      reach x = signed sign (m * 2 ^ e) := by
  rcases finite_or_infinity hx with hfinite | ⟨sign, hinf⟩
  · obtain ⟨sign, m, e, hm, he, hfields⟩ := exists_ofCanonical hfinite
    refine ⟨sign, m, e, hm, (hm.lt_top he).le, ?_⟩
    rw [reach_of_isFinite hfinite, value, hfields, unpackedValue_ofCanonical]
  · refine ⟨sign, 2 ^ 52, 972, isCanonical_top, top_eq.le, ?_⟩
    rw [reach_of_infinity hinf, top_eq]

/-- Numbers are compared like their reaches. -/
theorem le_iff_reach (hx : x.isNaN = false) (hy : y.isNaN = false) :
    x ≤ y ↔ reach x ≤ reach y := by
  rcases finite_or_infinity hx with hfx | ⟨_ | _, hix⟩ <;>
    rcases finite_or_infinity hy with hfy | ⟨_ | _, hiy⟩
  · rw [reach_of_isFinite hfx, reach_of_isFinite hfy]
    exact le_iff_value hfx hfy
  · rw [reach_of_isFinite hfx, reach_of_infinity hiy]
    exact iff_of_false (not_le_neg_infinity hfx hiy) (not_le.mpr (abs_lt.mp (abs_value_lt hfx)).1)
  · rw [reach_of_isFinite hfx, reach_of_infinity hiy]
    exact iff_of_true (le_infinity hx hiy) (abs_lt.mp (abs_value_lt hfx)).2.le
  · rw [reach_of_infinity hix, reach_of_isFinite hfy]
    exact iff_of_true (neg_infinity_le hix hy) (abs_lt.mp (abs_value_lt hfy)).1.le
  · rw [reach_of_infinity hix, reach_of_infinity hiy]
    exact iff_of_true (neg_infinity_le hix hy) le_rfl
  · rw [reach_of_infinity hix, reach_of_infinity hiy]
    exact iff_of_true (neg_infinity_le hix hy) (neg_le_self top_pos.le)
  · rw [reach_of_infinity hix, reach_of_isFinite hfy]
    exact iff_of_false (not_infinity_le hix hfy) (not_le.mpr (abs_lt.mp (abs_value_lt hfy)).2)
  · rw [reach_of_infinity hix, reach_of_infinity hiy]
    refine iff_of_false (fun h => ?_) (not_le.mpr (neg_lt_self top_pos))
    rw [le_iff, extended, extended, hix, hiy] at h
    exact absurd h.2.2 (not_le.mpr (WithBot.bot_lt_coe _))
  · rw [reach_of_infinity hix, reach_of_infinity hiy]
    exact iff_of_true (le_infinity hx hiy) le_rfl

/-! ## Rounding to nearest -/

/-- What is nearer to the greater of two numbers lies above their midpoint. -/
theorem le_midpoint_of_abs_le {a b v : Rat} (hlt : a < b) (h : |b - v| ≤ |a - v|) :
    a + b ≤ 2 * v := by
  rcases abs_cases (b - v) with ⟨hb, _⟩ | ⟨hb, _⟩ <;>
    rcases abs_cases (a - v) with ⟨ha, _⟩ | ⟨ha, _⟩ <;> linarith

/-- What is nearer to the lesser of two numbers lies below their midpoint. -/
theorem midpoint_le_of_abs_le {a b v : Rat} (hlt : a < b) (h : |a - v| ≤ |b - v|) :
    2 * v ≤ a + b := by
  rcases abs_cases (b - v) with ⟨hb, _⟩ | ⟨hb, _⟩ <;>
    rcases abs_cases (a - v) with ⟨ha, _⟩ | ⟨ha, _⟩ <;> linarith

/-- What `v` may be rounded to: no number is nearer. -/
structure RoundsTo (v : Rat) (x : Float) : Prop where
  isNaN_eq_false : x.isNaN = false
  nearest : ∀ {y : Float}, y.isNaN = false → |reach x - v| ≤ |reach y - v|

namespace RoundsTo

variable {v w : Rat} {c : Float}

/-- Rounding does not go up past a number. -/
theorem le_of_le (h : RoundsTo v x) (hc : c.isFinite = true) (hle : v ≤ value c) : x ≤ c := by
  have hnumber : c.isNaN = false := isNaN_of_isFinite hc
  have hnearest := h.nearest hnumber
  rw [le_iff_reach h.isNaN_eq_false hnumber]
  rw [reach_of_isFinite hc, abs_of_nonneg (sub_nonneg.mpr hle)] at *
  exact sub_le_sub_iff_right v |>.mp ((le_abs_self _).trans hnearest)

/-- Rounding does not go down past a number. -/
theorem ge_of_ge (h : RoundsTo v x) (hc : c.isFinite = true) (hge : value c ≤ v) : c ≤ x := by
  have hnumber : c.isNaN = false := isNaN_of_isFinite hc
  have hnearest := h.nearest hnumber
  rw [le_iff_reach hnumber h.isNaN_eq_false]
  rw [reach_of_isFinite hc, abs_of_nonpos (sub_nonpos.mpr hge)] at *
  have hleft := (neg_le_abs _).trans hnearest
  linarith

/-- Rounding keeps the order.  If the lesser result had the greater rounding, then it would
lie above the midpoint of the two roundings, and the greater result below. -/
theorem mono (hx : RoundsTo v x) (hy : RoundsTo w y) (h : v < w) : x ≤ y := by
  rw [le_iff_reach hx.isNaN_eq_false hy.isNaN_eq_false]
  by_contra hlt
  have habove := le_midpoint_of_abs_le (lt_of_not_ge hlt) (hx.nearest hy.isNaN_eq_false)
  have hbelow := midpoint_le_of_abs_le (lt_of_not_ge hlt) (hy.nearest hx.isNaN_eq_false)
  linarith

/-- An exact result that is a number is not changed. -/
theorem value_eq (h : RoundsTo (value c) x) (hc : c.isFinite = true) :
    x.isFinite = true ∧ value x = value c := by
  have hxc : x ≤ c := h.le_of_le hc le_rfl
  have hcx : c ≤ x := h.ge_of_ge hc le_rfl
  have hx : x.isFinite = true := isFinite_of_le_of_le hc hc hcx hxc
  exact ⟨hx, le_antisymm ((le_iff_value hx hc).mp hxc) ((le_iff_value hc hx).mp hcx)⟩

/-- A result that is not negative is rounded to such a number, or up to infinity. -/
theorem nonneg_or_infinity (h : RoundsTo v x) (hv : 0 ≤ v) :
    x.isFinite = true ∧ 0 ≤ value x ∨ x.toModel.unpack = .infinity .positive := by
  obtain ⟨hfinite, hzero⟩ := value_zero
  have hle : 0 ≤ x := h.ge_of_ge hfinite (hzero.trans_le hv)
  rcases finite_or_infinity h.isNaN_eq_false with hx | ⟨_ | _, hinf⟩
  · rw [le_iff_value hfinite hx, hzero] at hle
    exact Or.inl ⟨hx, hle⟩
  · exact absurd hle (not_le_neg_infinity hfinite hinf)
  · exact Or.inr hinf

end RoundsTo

/-- A number that survives packing is rounded to itself. -/
theorem roundsTo_pack {u : UnpackedFloat} (hu : (Float.Model.pack u).unpack = u)
    (hfinite : u.isFinite = true) : RoundsTo (unpackedValue u) (.ofModel (.pack u)) := by
  have hx : (Float.ofModel (.pack u)).isFinite = true := by
    rw [Float.isFinite, Float.Model.isFinite, hu, hfinite]
  have hvalue : value (.ofModel (.pack u)) = unpackedValue u := congrArg unpackedValue hu
  refine ⟨isNaN_of_isFinite hx, fun _ => ?_⟩
  rw [reach_of_isFinite hx, hvalue, sub_self, abs_zero]
  exact abs_nonneg _

/-- Canonical fields that are packed reach as far as they can. -/
theorem reach_pack_ofCanonical (sign : Sign) {m : Nat} {e : Int} (h : IsCanonical m e) :
    (Float.ofModel (.pack (ofCanonical sign m e))).isNaN = false ∧
      reach (.ofModel (.pack (ofCanonical sign m e))) =
        signed sign (min (m * 2 ^ e) top) := by
  by_cases he : e ≤ 971
  · obtain ⟨hfinite, hvalue⟩ := value_pack_ofCanonical sign h he
    rw [reach_of_isFinite hfinite, hvalue, min_eq_left (h.lt_top he).le]
    exact ⟨isNaN_of_isFinite hfinite, rfl⟩
  · have hunpack : (Float.Model.pack (ofCanonical sign m e)).unpack = .infinity sign := by
      rw [unpack_pack_ofCanonical sign h, if_neg he]
    refine ⟨isNaN_of_infinity hunpack, ?_⟩
    rw [min_eq_right (h.top_le he)]
    exact reach_of_infinity hunpack

/-- A nearest magnitude that is cut off at an upper end is a nearest one up to there. -/
theorem abs_min_sub_le {v r w top : Rat} (hw : w ≤ top) (h : |r - v| ≤ |w - v|)
    (htop : |r - v| ≤ |top - v|) : |min r top - v| ≤ |w - v| := by
  rcases le_or_gt r top with hle | hgt
  · rw [min_eq_left hle]
    exact h
  · have hmid := le_midpoint_of_abs_le hgt htop
    rw [min_eq_right hgt.le, abs_of_nonpos (by linarith), abs_of_nonpos (by linarith)]
    linarith

/-- A magnitude that is as near as another one and as zero is as near as the other one with
either sign. -/
theorem abs_signed_sub_le {s s' : Sign} {v r w : Rat} (hv : 0 ≤ v) (hw : 0 ≤ w)
    (h : |r - v| ≤ |w - v|) (hzero : |r - v| ≤ |0 - v|) :
    |signed s r - signed s v| ≤ |signed s' w - signed s v| := by
  rw [zero_sub, abs_neg, abs_of_nonneg hv] at hzero
  cases s <;> cases s' <;> simp only [signed, sub_neg_eq_add, neg_add_eq_sub]
  · rwa [abs_sub_comm, abs_sub_comm v w]
  · rw [abs_sub_comm, abs_of_nonneg (by linarith : 0 ≤ w + v)]
    linarith
  · rw [abs_of_nonpos (by linarith : -w - v ≤ 0)]
    linarith
  · exact h

/-- Canonical fields that are packed are a rounding of whatever they round, also if
they are too great and become an infinity. -/
theorem roundsTo_pack_ofCanonical (sign : Sign) {v : Rat} {m : Nat} {e : Int} (hv : 0 ≤ v)
    (h : IsRounding v m e) :
    RoundsTo (signed sign v) (.ofModel (.pack (ofCanonical sign m e))) := by
  obtain ⟨hnumber, hreach⟩ := reach_pack_ofCanonical sign h.canonical
  have hcut {w : Rat} (hw : w ≤ top) (hnearest : |(m * 2 ^ e : Rat) - v| ≤ |w - v|) :
      |min (m * 2 ^ e : Rat) top - v| ≤ |w - v| := by
    have htop := h.nearest isCanonical_top
    rw [top_eq] at htop
    exact abs_min_sub_le hw hnearest htop
  have hzero : |min (m * 2 ^ e : Rat) top - v| ≤ |0 - v| := by
    have hnearest : |(m * 2 ^ e : Rat) - v| ≤ |(0 : Nat) * 2 ^ (-1074 : Int) - v| :=
      h.nearest ⟨by norm_num, le_rfl, Or.inr rfl⟩
    rw [Nat.cast_zero, zero_mul] at hnearest
    exact hcut top_pos.le hnearest
  refine ⟨hnumber, fun hy => ?_⟩
  obtain ⟨s, n, k, hn, hle, hother⟩ := exists_reach_eq hy
  have hnonneg : (0 : Rat) ≤ n * 2 ^ k := mul_nonneg n.cast_nonneg (zpow_nonneg two_pos.le k)
  rw [hreach, hother]
  exact abs_signed_sub_le hv hnonneg (hcut hle (h.nearest hn)) hzero

/-! ## Rounded results -/

theorem roundsTo_roundWithAccuracy (sign : Sign) {m : Nat} {e : Int} {accuracy : Accuracy}
    {q : Rat} (hq : IsTruncation (ofMantissaAndAccuracy m accuracy) q)
    (he : e ≤ fittingExponent m e) :
    RoundsTo (signed sign (q * 2 ^ e))
      (.ofModel (.pack (roundWithAccuracy .binary64 sign m e accuracy))) := by
  obtain ⟨m', e', hrounding, heq⟩ := roundWithAccuracy_eq sign hq he
  have hnonneg : 0 ≤ q := (Nat.cast_nonneg _).trans hq.le
  rw [heq]
  exact roundsTo_pack_ofCanonical sign (by positivity) hrounding

theorem decreaseExponent_eq (m : Nat) (e t : Int) :
    decreaseExponent m e t = (m * 2 ^ (e - t).toNat, e - (e - t).toNat) :=
  congrArg (·, _) (Nat.shiftLeft_eq m _)

theorem log2_mul_two_pow {m : Nat} (hm : 0 < m) (k : Nat) : (m * 2 ^ k).log2 = m.log2 + k := by
  have hlow : 2 ^ m.log2 ≤ m := Nat.log2_self_le hm.ne'
  have hhigh : m < 2 ^ (m.log2 + 1) := Nat.lt_log2_self
  have hpow : 2 ^ (m.log2 + k + 1) = 2 ^ (m.log2 + 1) * 2 ^ k := by ring
  rw [Nat.log2_eq_iff (by positivity), hpow, pow_add]
  exact ⟨Nat.mul_le_mul_right _ hlow, Nat.mul_lt_mul_of_pos_right hhigh (by positivity)⟩

/-- A number that has too few bits gets more of them first, which are zero. -/
theorem roundsTo_round (sign : Sign) {m : Nat} (hm : 0 < m) (e : Int) :
    RoundsTo (signed sign (m * 2 ^ e))
      (.ofModel (.pack (UnpackedFloat.round .binary64 sign m e))) := by
  have hround : UnpackedFloat.round .binary64 sign m e =
      roundWithAccuracy .binary64 sign (m * 2 ^ (e - fittingExponent m e).toNat)
        (e - (e - fittingExponent m e).toNat) .exact := by
    show roundWithAccuracy .binary64 sign (decreaseExponent m e (fittingExponent m e)).1
      (decreaseExponent m e (fittingExponent m e)).2 .exact = _
    rw [decreaseExponent_eq]
  have hfits (k : Nat) : fittingExponent (m * 2 ^ k) (e - k) = fittingExponent m e := by
    rw [fittingExponent, fittingExponent, log2_mul_two_pow hm]
    push_cast
    congr 1
    ring
  have hvalue (k : Nat) : (m * 2 ^ e : Rat) = (m * 2 ^ k : Nat) * 2 ^ (e - k) := by
    have hk := mul_zpow_eq (c := m) (sub_le_self e k.cast_nonneg)
    rwa [sub_sub_cancel, Int.toNat_natCast] at hk
  rw [hround, hvalue (e - fittingExponent m e).toNat]
  refine roundsTo_roundWithAccuracy sign (isTruncation_exact _) ?_
  rw [hfits]
  omega

/-- The exact number is rounded, whatever its sign. -/
theorem roundsTo_normalize (n e : Int) :
    RoundsTo (n * 2 ^ e) (.ofModel (.pack (UnpackedFloat.normalize .binary64 n e .positive))) := by
  rcases lt_trichotomy n 0 with hneg | rfl | hpos
  · have hnormalize : UnpackedFloat.normalize .binary64 n e .positive =
        UnpackedFloat.round .binary64 .negative (-n).toNat e := by
      rw [UnpackedFloat.normalize, compare_lt_iff_lt.mpr hneg]
    have hn : (n : Rat) = -((-n).toNat : Rat) := by
      have h : n = -((-n).toNat : Int) := by omega
      exact_mod_cast h
    rw [hnormalize, hn, neg_mul]
    exact roundsTo_round .negative (by omega) e
  · rw [Int.cast_zero, zero_mul]
    exact roundsTo_pack (unpack_pack_zero .positive) rfl
  · have hnormalize : UnpackedFloat.normalize .binary64 n e .positive =
        UnpackedFloat.round .binary64 .positive n.toNat e := by
      rw [UnpackedFloat.normalize, compare_gt_iff_gt.mpr hpos]
    have hn : (n : Rat) = (n.toNat : Rat) := by
      have h : n = (n.toNat : Int) := by omega
      exact_mod_cast h
    rw [hnormalize, hn]
    exact roundsTo_round .positive (by omega) e

end CurveSketch.Binary64
