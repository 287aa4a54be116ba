import CurveSketch.Proofs.Binary64.Whole

/-!
# The error of a rounding

All multiples of a unit are reached up to `2 ^ 53` of them (`exists_reach_eq_mul`), so a
rounding is at most half a unit away from the exact result (`RoundsTo.abs_sub_le_half`).

If the result is not too small, then its unit is a `2 ^ 52`-th part of it, and the error is
relative (`RoundsTo.abs_sub_le_mul`).  Sums and multiples of numbers are never too small,
because they consist of least units (`exists_value_eq_mul_least`), and few least units are
exact.
-/

namespace CurveSketch.Binary64

open Float.Model
open Float.Model.UnpackedFloat

variable {x : Float} {v : Rat}

/-! ## Multiples of a unit -/

theorem isNaN_neg (hx : x.isNaN = false) : (-x).isNaN = false := by
  rw [Float.isNaN, Float.Model.isNaN, unpack_neg]
  rcases finite_or_infinity hx with hfinite | ⟨sign, hinf⟩
  · rcases zero_or_finite hfinite with ⟨_, hu⟩ | ⟨_, _, _, _, hu⟩ <;> rw [hu] <;> rfl
  · rw [hinf]
    rfl

theorem reach_neg (hx : x.isNaN = false) : reach (-x) = -reach x := by
  rcases finite_or_infinity hx with hfinite | ⟨sign, hinf⟩
  · obtain ⟨hnegated, hvalue⟩ := value_neg hfinite
    rw [reach_of_isFinite hnegated, hvalue, reach_of_isFinite hfinite]
  · have hu : (-x).toModel.unpack = .infinity (-sign) := by
      rw [unpack_neg, hinf]
      rfl
    rw [reach_of_infinity hu, reach_of_infinity hinf, signed_neg]

/-- Multiples of a unit are reached up to `2 ^ 53` of them, which are half as many units of
the next greater size. -/
theorem exists_reach_eq_natCast_mul {n : Nat} (hn : n ≤ 2 ^ 53) {e : Int} (hmin : -1074 ≤ e)
    (hmax : e ≤ 971) : ∃ c : Float, c.isNaN = false ∧ reach c = n * 2 ^ e := by
  rcases hn.lt_or_eq with hlt | rfl
  · obtain ⟨c, hc, hvalue⟩ := exists_value_eq hlt hmin hmax
    refine ⟨c, isNaN_of_isFinite hc, ?_⟩
    rw [reach_of_isFinite hc, hvalue]
  · have hcanonical : IsCanonical (2 ^ 52) (e + 1) := ⟨by norm_num, by omega, Or.inl le_rfl⟩
    obtain ⟨hnumber, hreach⟩ := reach_pack_ofCanonical .positive hcanonical
    have hle : ((2 ^ 52 : Nat) * 2 ^ (e + 1) : Rat) ≤ top := by
      rw [← top_eq]
      exact mul_le_mul_of_nonneg_left (zpow_le_zpow_right₀ one_le_two (by omega))
        (Nat.cast_nonneg _)
    refine ⟨_, hnumber, ?_⟩
    rw [hreach, signed, min_eq_left hle, zpow_add_one₀ two_ne_zero]
    push_cast
    ring

theorem exists_reach_eq_mul {n : Int} (hn : n.natAbs ≤ 2 ^ 53) {e : Int} (hmin : -1074 ≤ e)
    (hmax : e ≤ 971) : ∃ c : Float, c.isNaN = false ∧ reach c = n * 2 ^ e := by
  obtain ⟨c, hc, hreach⟩ := exists_reach_eq_natCast_mul hn hmin hmax
  rcases Int.natAbs_eq n with hpos | hneg
  · refine ⟨c, hc, ?_⟩
    rw [hreach, ← Int.cast_natCast, ← hpos]
  · refine ⟨-c, isNaN_neg hc, ?_⟩
    rw [reach_neg hc, hreach, ← neg_mul, ← Int.cast_natCast, ← Int.cast_neg, ← hneg]

/-! ## Half a unit -/

/-- A rounding is at most half a unit away from the exact result, if this lies within `2 ^ 53`
units: the multiples below it and above it are both no nearer. -/
theorem RoundsTo.abs_sub_le_half (h : RoundsTo v x) {e : Int} (hmin : -1074 ≤ e)
    (hmax : e ≤ 971) (hv : |v| < 2 ^ 53 * 2 ^ e) : |reach x - v| ≤ 2 ^ e / 2 := by
  have hunit : (0 : Rat) < 2 ^ e := by positivity
  obtain ⟨n, hn⟩ : ∃ n, n = ⌊v / 2 ^ e⌋ := ⟨_, rfl⟩
  have hlow : (n * 2 ^ e : Rat) ≤ v := by
    rw [hn, ← le_div_iff₀ hunit]
    exact Int.floor_le _
  have hhigh : v < ((n + 1 : Int) * 2 ^ e : Rat) := by
    rw [hn, ← div_lt_iff₀ hunit]
    push_cast
    exact Int.lt_floor_add_one _
  have hbits : -2 ^ 53 ≤ n ∧ n < 2 ^ 53 := by
    obtain ⟨hleft, hright⟩ := abs_lt.mp hv
    rw [← neg_mul] at hleft
    rw [hn, Int.le_floor, Int.floor_lt]
    push_cast
    exact ⟨(le_div_iff₀ hunit).mpr hleft.le, (div_lt_iff₀ hunit).mpr hright⟩
  obtain ⟨below, hbelow, hreachBelow⟩ :=
    exists_reach_eq_mul (n := n) (by omega) hmin hmax
  obtain ⟨above, habove, hreachAbove⟩ :=
    exists_reach_eq_mul (n := n + 1) (by omega) hmin hmax
  have hnearBelow := h.nearest hbelow
  have hnearAbove := h.nearest habove
  rw [hreachBelow, abs_of_nonpos (sub_nonpos.mpr hlow)] at hnearBelow
  rw [hreachAbove, abs_of_nonneg (sub_nonneg.mpr hhigh.le)] at hnearAbove
  have hgap : ((n + 1 : Int) * 2 ^ e : Rat) = n * 2 ^ e + 2 ^ e := by
    push_cast
    ring
  linarith

/-! ## The relative error -/

theorem exists_reach_eq_top (sign : Sign) :
    ∃ c : Float, c.isNaN = false ∧ reach c = signed sign top := by
  have hu : (Float.ofModel (.pack (.infinity sign))).toModel.unpack = .infinity sign :=
    unpack_pack_infinity sign
  exact ⟨_, isNaN_of_infinity hu, reach_of_infinity hu⟩

/-- What is rounded to a finite number is less than the first power of two beyond: from there
on an infinity is nearer. -/
theorem RoundsTo.abs_lt_top (h : RoundsTo v x) (hx : x.isFinite = true) : |v| < top := by
  obtain ⟨hlow, hhigh⟩ := abs_lt.mp (abs_value_lt hx)
  obtain ⟨least, hleast, hreachLeast⟩ := exists_reach_eq_top .negative
  obtain ⟨greatest, hgreatest, hreachGreatest⟩ := exists_reach_eq_top .positive
  have hnearLeast := h.nearest hleast
  have hnearGreatest := h.nearest hgreatest
  rw [reach_of_isFinite hx, hreachLeast, signed] at hnearLeast
  rw [reach_of_isFinite hx, hreachGreatest, signed] at hnearGreatest
  rw [abs_lt]
  constructor
  · by_contra hle
    rw [abs_of_nonneg (by linarith), abs_of_nonneg (by linarith)] at hnearLeast
    linarith
  · by_contra hge
    rw [abs_of_nonpos (by linarith), abs_of_nonpos (by linarith)] at hnearGreatest
    linarith

/-- The error is a `2 ^ 53`-th part at most, unless the result is too small. -/
theorem RoundsTo.abs_sub_le_mul_of_le (h : RoundsTo v x) (hx : x.isFinite = true)
    (hv : 2 ^ (-1022 : Int) ≤ |v|) : |value x - v| ≤ |v| / 2 ^ 53 := by
  have hpos : 0 < |v| := lt_of_lt_of_le (by positivity) hv
  have hlow : ((2 : Nat) : Rat) ^ Int.log 2 |v| ≤ |v| := Int.zpow_log_le_self one_lt_two hpos
  have hhigh : |v| < ((2 : Nat) : Rat) ^ (Int.log 2 |v| + 1) :=
    Int.lt_zpow_succ_log_self one_lt_two _
  have hmin : -1022 ≤ Int.log 2 |v| :=
    (Int.zpow_le_iff_le_log one_lt_two hpos).mp (by exact_mod_cast hv)
  have hmax : Int.log 2 |v| < 1024 := by
    refine (Int.lt_zpow_iff_log_lt one_lt_two hpos).mp ?_
    have htop := h.abs_lt_top hx
    rw [top, ← zpow_natCast] at htop
    exact htop
  generalize Int.log 2 |v| = l at *
  push_cast at hlow hhigh
  have hsplit : (2 : Rat) ^ (l + 1) = 2 ^ 53 * 2 ^ (l - 52) := by
    rw [← zpow_natCast, ← zpow_add₀ two_ne_zero]
    congr 1
    omega
  have hunit : (2 : Rat) ^ l = 2 ^ 52 * 2 ^ (l - 52) := by
    rw [← zpow_natCast, ← zpow_add₀ two_ne_zero]
    congr 1
    omega
  rw [hsplit] at hhigh
  have hhalf := h.abs_sub_le_half (e := l - 52) (by omega) (by omega) hhigh
  rw [reach_of_isFinite hx] at hhalf
  rw [hunit] at hlow
  linarith

/-- What is rounded to one or more is a half at least, so its error is relative. -/
theorem RoundsTo.value_le_mul_of_one_le (h : RoundsTo v x) (hx : x.isFinite = true)
    (hone : 1 ≤ value x) : value x ≤ v * (1 + 1 / 2 ^ 53) := by
  obtain ⟨hfinite, hhalf⟩ := value_half
  have hge : 1 / 2 ≤ v := by
    by_contra hlt
    have hle := h.le_of_le hfinite ((lt_of_not_ge hlt).le.trans hhalf.ge)
    rw [le_iff_value hx hfinite, hhalf] at hle
    linarith
  have hnormal : (2 : Rat) ^ (-1022 : Int) ≤ 1 / 2 := by
    have hle : (2 : Rat) ^ (-1022 : Int) ≤ 2 ^ (-1 : Int) :=
      zpow_le_zpow_right₀ one_le_two (by norm_num)
    rwa [zpow_neg_one, ← one_div] at hle
  have hpos : |v| = v := abs_of_nonneg (le_trans (by norm_num) hge)
  have herror := h.abs_sub_le_mul_of_le hx (by rw [hpos]; exact hnormal.trans hge)
  rw [hpos] at herror
  have hle := (le_abs_self _).trans herror
  linarith

/-- A number consists of least units. -/
theorem exists_value_eq_mul_least (hx : x.isFinite = true) :
    ∃ n : Int, value x = n * 2 ^ (-1074 : Int) := by
  obtain ⟨n, e, -, hmin, -, hvalue⟩ := exists_value_eq_mul hx
  refine ⟨n * 2 ^ (e + 1074).toNat, ?_⟩
  rw [hvalue, Int.cast_mul, Int.cast_pow, Int.cast_ofNat, mul_assoc, ← zpow_natCast,
    ← zpow_add₀ two_ne_zero]
  congr 2
  omega

theorem least_le_value (hx : x.isFinite = true) (hpos : 0 < value x) :
    2 ^ (-1074 : Int) ≤ value x := by
  obtain ⟨n, hn⟩ := exists_value_eq_mul_least hx
  have hunit : (0 : Rat) < 2 ^ (-1074 : Int) := zpow_pos two_pos _
  rw [hn] at hpos ⊢
  have hone : (1 : Rat) ≤ n := by
    have hcast : (0 : Rat) < n := pos_of_mul_pos_left hpos hunit.le
    exact_mod_cast hcast
  exact le_mul_of_one_le_left hunit.le hone

/-- The error is a `2 ^ 53`-th part at most, if the result consists of least units. -/
theorem RoundsTo.abs_sub_le_mul (h : RoundsTo v x) (hx : x.isFinite = true)
    (hv : ∃ n : Int, v = n * 2 ^ (-1074 : Int)) : |value x - v| ≤ |v| / 2 ^ 53 := by
  rcases le_or_gt (2 ^ (-1022 : Int)) |v| with hnormal | hsmall
  · exact h.abs_sub_le_mul_of_le hx hnormal
  · obtain ⟨n, rfl⟩ := hv
    have hunit : (2 : Rat) ^ (-1022 : Int) = 2 ^ 52 * 2 ^ (-1074 : Int) := by
      rw [← zpow_natCast, ← zpow_add₀ two_ne_zero]
      rfl
    have hbits : n.natAbs < 2 ^ 52 := by
      rw [abs_mul, abs_of_pos (by positivity : (0 : Rat) < 2 ^ (-1074 : Int)), hunit,
        mul_lt_mul_iff_left₀ (by positivity), ← Int.cast_abs, Int.abs_eq_natAbs] at hsmall
      exact_mod_cast hsmall
    obtain ⟨c, hc, hvalue⟩ := exists_value_eq_int (n := n) (by omega) (k := -1074) le_rfl
      (by norm_num)
    rw [← hvalue] at h ⊢
    rw [(h.value_eq hc).2, sub_self, abs_zero]
    positivity

end CurveSketch.Binary64
