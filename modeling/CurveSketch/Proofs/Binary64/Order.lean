import CurveSketch.Proofs.Binary64.Fields

/-!
# The order of binary64 numbers

`value` is the rational number that a finite binary64 number is, and `extended` adds the
two infinities.  Numbers are compared by their fields, the exponents first.
`lt_iff` and `le_iff` say that this is the order of the numbers that are meant, and that
nothing is comparable with what is not a number.

The reason is `IsCanonical.lt_of_exponent_lt`: among canonical fields, the greater
exponent makes the greater number.
-/

namespace CurveSketch.Binary64

open Float.Model
open Float.Model.UnpackedFloat

/-! ## The number that is meant -/

/-- The number with the given sign and magnitude. -/
def signed : Sign → Rat → Rat
  | .positive, q => q
  | .negative, q => -q

/-- The rational number that is unpacked, and zero if it is none. -/
def unpackedValue : UnpackedFloat → Rat
  | .finite sign m e _ => signed sign (m * 2 ^ e)
  | _ => 0

/-- The rational number that is unpacked, or an end of the line.  What is not a number
has no place on the line, and is put at zero. -/
def unpackedExtended : UnpackedFloat → WithBot (WithTop Rat)
  | .infinity .negative => ⊥
  | .infinity .positive => (⊤ : WithTop Rat)
  | u => (unpackedValue u : WithTop Rat)

/-- The rational number that `x` is, and zero if it is none. -/
def value (x : Float) : Rat :=
  unpackedValue x.toModel.unpack

/-- The rational number that `x` is, or an end of the line. -/
def extended (x : Float) : WithBot (WithTop Rat) :=
  unpackedExtended x.toModel.unpack

theorem zero_or_finite {u : UnpackedFloat} (hu : u.isFinite = true) :
    (∃ sign, u = .zero sign) ∨ ∃ sign m e hm, u = .finite sign m e hm := by
  match u with
  | .zero sign => exact Or.inl ⟨sign, rfl⟩
  | .finite sign m e hm => exact Or.inr ⟨sign, m, e, hm, rfl⟩

theorem finite_or_infinity {u : UnpackedFloat} (hu : u.isNaN = false) :
    u.isFinite = true ∨ ∃ sign, u = .infinity sign := by
  match u with
  | .infinity sign => exact Or.inr ⟨sign, rfl⟩
  | .zero _ => exact Or.inl rfl
  | .finite .. => exact Or.inl rfl

theorem unpackedValue_zero (sign : Sign) : unpackedValue (.zero sign) = 0 := rfl

theorem unpackedExtended_of_isFinite {u : UnpackedFloat} (hu : u.isFinite = true) :
    unpackedExtended u = ((unpackedValue u : WithTop Rat) : WithBot (WithTop Rat)) := by
  rcases zero_or_finite hu with ⟨_, rfl⟩ | ⟨_, _, _, _, rfl⟩ <;> rfl

theorem extended_of_isFinite {x : Float} (hx : x.isFinite = true) :
    extended x = ((value x : WithTop Rat) : WithBot (WithTop Rat)) :=
  unpackedExtended_of_isFinite hx

theorem isNaN_of_isFinite {x : Float} (hx : x.isFinite = true) : x.isNaN = false := by
  rw [Float.isNaN, Float.Model.isNaN]
  rcases zero_or_finite hx with ⟨_, hu⟩ | ⟨_, _, _, _, hu⟩ <;> rw [hu] <;> rfl

theorem unpackedValue_ofCanonical (sign : Sign) (m : Nat) (e : Int) :
    unpackedValue (ofCanonical sign m e) = signed sign (m * 2 ^ e) := by
  rcases Nat.eq_zero_or_pos m with rfl | hm
  · cases sign <;> simp [ofCanonical, unpackedValue, signed]
  · rw [ofCanonical_of_pos sign e hm]
    rfl

/-- A finite number has canonical fields. -/
theorem exists_ofCanonical {x : Float} (hx : x.isFinite = true) :
    ∃ sign m e, IsCanonical m e ∧ e ≤ 971 ∧ x.toModel.unpack = ofCanonical sign m e := by
  rcases zero_or_finite hx with ⟨sign, hu⟩ | ⟨sign, m, e, hm, hu⟩
  · exact ⟨sign, 0, -1074, ⟨by norm_num, le_rfl, Or.inr rfl⟩, by norm_num, hu⟩
  · obtain ⟨hcanonical, hmax⟩ := isCanonical_of_unpack hu
    exact ⟨sign, m, e, hcanonical, hmax, hu.trans (ofCanonical_of_pos sign e hm).symm⟩

/-! ## Canonical fields -/

namespace IsCanonical

variable {m m' : Nat} {e e' : Int}

/-- A greater exponent makes a greater number, whatever the mantissas. -/
theorem lt_of_exponent_lt (h : IsCanonical m e) (h' : IsCanonical m' e') (he : e < e') :
    (m * 2 ^ e : Rat) < m' * 2 ^ e' := by
  have hpos : (0 : Rat) < 2 ^ e := by positivity
  have hlt : (m : Rat) < 2 ^ 53 := by exact_mod_cast h.lt
  have hnormal : (2 : Rat) ^ 52 ≤ m' := by
    have hmin : -1074 ≤ e := h.min_le
    exact_mod_cast h'.normal.resolve_right (by omega)
  calc (m * 2 ^ e : Rat) < 2 ^ 53 * 2 ^ e := mul_lt_mul_of_pos_right hlt hpos
    _ = 2 ^ 52 * 2 ^ (e + 1) := by
      rw [zpow_add_one₀ two_ne_zero]
      ring
    _ ≤ m' * 2 ^ e' := by
      have hstep : (2 : Rat) ^ (e + 1) ≤ 2 ^ e' := zpow_le_zpow_right₀ (by norm_num) he
      gcongr

/-- Canonical fields are compared like the numbers that they stand for. -/
theorem compare_eq (h : IsCanonical m e) (h' : IsCanonical m' e') :
    (compare e e').then (compare m m') = cmp (m * 2 ^ e : Rat) (m' * 2 ^ e') := by
  rcases lt_trichotomy e e' with hlt | rfl | hgt
  · rw [compare_lt_iff_lt.mpr hlt, (cmp_eq_lt_iff _ _).mpr (h.lt_of_exponent_lt h' hlt)]
    rfl
  · have hpos : (0 : Rat) < 2 ^ e := by positivity
    rw [cmp_mul_pos_right hpos, Nat.strictMono_cast.cmp_map_eq, cmp_eq_compare,
      compare_eq_iff_eq.mpr rfl]
    rfl
  · rw [compare_gt_iff_gt.mpr hgt, (cmp_eq_gt_iff _ _).mpr (h'.lt_of_exponent_lt h hgt)]
    rfl

/-- No magnitude has two canonical forms. -/
theorem eq_of_eq (h : IsCanonical m e) (h' : IsCanonical m' e')
    (heq : (m * 2 ^ e : Rat) = m' * 2 ^ e') : m = m' ∧ e = e' := by
  have hcompare := h.compare_eq h'
  rw [heq, cmp_self_eq_eq, Ordering.then_eq_eq, compare_eq_iff_eq, compare_eq_iff_eq] at hcompare
  exact hcompare.symm

end IsCanonical

/-! ## Comparing -/

theorem unpackedValue_pos {m : Nat} {e : Int} (hm : 0 < m) :
    0 < unpackedValue (.finite .positive m e hm) := by
  rw [unpackedValue, signed]
  positivity

theorem unpackedValue_neg {m : Nat} {e : Int} (hm : 0 < m) :
    unpackedValue (.finite .negative m e hm) < 0 := by
  rw [unpackedValue, signed, neg_lt_zero]
  positivity

/-- The mantissa and the exponent are canonical, if there are any. -/
def HasCanonicalFields (u : UnpackedFloat) : Prop :=
  ∀ sign m e hm, u = .finite sign m e hm → IsCanonical m e

theorem hasCanonicalFields_unpack (x : Float.Model) : HasCanonicalFields x.unpack :=
  fun _ _ _ _ h => (isCanonical_of_unpack h).1

/-- Finite numbers are compared like their values.  The signs decide, unless both are
the same. -/
theorem compare_of_isFinite {u v : UnpackedFloat} (hu : u.isFinite = true)
    (hv : v.isFinite = true) (hcu : HasCanonicalFields u) (hcv : HasCanonicalFields v) :
    u.compare v = some (cmp (unpackedValue u) (unpackedValue v)) := by
  have hlt {a b : Rat} (h : a < b) : some .lt = some (cmp a b) :=
    congrArg some ((cmp_eq_lt_iff a b).mpr h).symm
  have hgt {a b : Rat} (h : b < a) : some .gt = some (cmp a b) :=
    congrArg some ((cmp_eq_gt_iff a b).mpr h).symm
  match u, v with
  | .zero _, .zero _ => exact congrArg some (cmp_self_eq_eq 0).symm
  | .zero _, .finite .positive _ _ hm => exact hlt (unpackedValue_pos hm)
  | .zero _, .finite .negative _ _ hm => exact hgt (unpackedValue_neg hm)
  | .finite .positive _ _ hm, .zero _ => exact hgt (unpackedValue_pos hm)
  | .finite .negative _ _ hm, .zero _ => exact hlt (unpackedValue_neg hm)
  | .finite .positive _ _ hm, .finite .negative _ _ hm' =>
    exact hgt ((unpackedValue_neg hm').trans (unpackedValue_pos hm))
  | .finite .negative _ _ hm, .finite .positive _ _ hm' =>
    exact hlt ((unpackedValue_neg hm).trans (unpackedValue_pos hm'))
  | .finite .positive m e hm, .finite .positive m' e' hm' =>
    exact congrArg some ((hcu _ m e hm rfl).compare_eq (hcv _ m' e' hm' rfl))
  | .finite .negative m e hm, .finite .negative m' e' hm' =>
    -- below zero the greater magnitude is the lesser number
    have hcompare := (hcu _ m e hm rfl).compare_eq (hcv _ m' e' hm' rfl)
    have hanti : StrictAnti fun q : Rat => -q := fun _ _ h => neg_lt_neg h
    have hswap := hanti.cmp_map_eq (m * 2 ^ e) (m' * 2 ^ e')
    rw [unpackedValue, unpackedValue, signed, signed, hswap, ← cmp_swap, ← hcompare]
    rfl

theorem bot_lt_unpackedExtended {u : UnpackedFloat} (hu : u.isFinite = true) :
    unpackedExtended (.infinity .negative) < unpackedExtended u := by
  rw [unpackedExtended_of_isFinite hu]
  exact WithBot.bot_lt_coe _

theorem unpackedExtended_lt_top {u : UnpackedFloat} (hu : u.isFinite = true) :
    unpackedExtended u < unpackedExtended (.infinity .positive) := by
  rw [unpackedExtended_of_isFinite hu]
  exact WithBot.coe_lt_coe.mpr (WithTop.coe_lt_top _)

/-- With the infinities at the ends, all numbers are compared like what they mean. -/
theorem compare_eq_cmp {u v : UnpackedFloat} (hu : u.isNaN = false) (hv : v.isNaN = false)
    (hcu : HasCanonicalFields u) (hcv : HasCanonicalFields v) :
    u.compare v = some (cmp (unpackedExtended u) (unpackedExtended v)) := by
  have hlt {a b : WithBot (WithTop Rat)} (h : a < b) : some .lt = some (cmp a b) :=
    congrArg some ((cmp_eq_lt_iff a b).mpr h).symm
  have hgt {a b : WithBot (WithTop Rat)} (h : b < a) : some .gt = some (cmp a b) :=
    congrArg some ((cmp_eq_gt_iff a b).mpr h).symm
  have hends : unpackedExtended (.infinity .negative) < unpackedExtended (.infinity .positive) :=
    WithBot.bot_lt_coe _
  have hfinite (hu : u.isFinite = true) (hv : v.isFinite = true) :
      u.compare v = some (cmp (unpackedExtended u) (unpackedExtended v)) := by
    have hmono : StrictMono fun q : Rat => ((q : WithTop Rat) : WithBot (WithTop Rat)) :=
      WithBot.coe_strictMono.comp WithTop.coe_strictMono
    rw [compare_of_isFinite hu hv hcu hcv, unpackedExtended_of_isFinite hu,
      unpackedExtended_of_isFinite hv]
    exact congrArg some (hmono.cmp_map_eq _ _).symm
  match u, v with
  | .infinity .positive, .infinity .positive => exact congrArg some (cmp_self_eq_eq _).symm
  | .infinity .negative, .infinity .negative => exact congrArg some (cmp_self_eq_eq _).symm
  | .infinity .positive, .infinity .negative => exact hgt hends
  | .infinity .negative, .infinity .positive => exact hlt hends
  | .infinity .positive, .zero _ => exact hgt (unpackedExtended_lt_top rfl)
  | .infinity .positive, .finite .. => exact hgt (unpackedExtended_lt_top rfl)
  | .infinity .negative, .zero _ => exact hlt (bot_lt_unpackedExtended rfl)
  | .infinity .negative, .finite .. => exact hlt (bot_lt_unpackedExtended rfl)
  | .zero _, .infinity .positive => exact hlt (unpackedExtended_lt_top rfl)
  | .finite .., .infinity .positive => exact hlt (unpackedExtended_lt_top rfl)
  | .zero _, .infinity .negative => exact hgt (bot_lt_unpackedExtended rfl)
  | .finite .., .infinity .negative => exact hgt (bot_lt_unpackedExtended rfl)
  | .zero _, .zero _ => exact hfinite rfl rfl
  | .zero _, .finite .. => exact hfinite rfl rfl
  | .finite .., .zero _ => exact hfinite rfl rfl
  | .finite .., .finite .. => exact hfinite rfl rfl

theorem compare_eq_none {u v : UnpackedFloat} (h : u.isNaN = true ∨ v.isNaN = true) :
    u.compare v = none := by
  match u, v with
  | .notANumber, _ => rfl
  | .infinity _, .notANumber => rfl
  | .zero _, .notANumber => rfl
  | .finite .., .notANumber => rfl

/-! ## The order -/

variable {x y z : Float}

theorem compare_toModel (hx : x.isNaN = false) (hy : y.isNaN = false) :
    x.toModel.compare y.toModel = some (cmp (extended x) (extended y)) :=
  compare_eq_cmp hx hy (hasCanonicalFields_unpack _) (hasCanonicalFields_unpack _)

/-- What is comparable is a number on both sides. -/
theorem compare_eq_none_or (x y : Float) :
    x.toModel.compare y.toModel = none ∧ ¬(x.isNaN = false ∧ y.isNaN = false) ∨
      x.isNaN = false ∧ y.isNaN = false := by
  cases hx : x.isNaN with
  | true => exact Or.inl ⟨compare_eq_none (Or.inl hx), fun h => Bool.noConfusion h.1⟩
  | false =>
    cases hy : y.isNaN with
    | true => exact Or.inl ⟨compare_eq_none (Or.inr hy), fun h => Bool.noConfusion h.2⟩
    | false => exact Or.inr ⟨rfl, rfl⟩

theorem lt_iff :
    x < y ↔ x.isNaN = false ∧ y.isNaN = false ∧ extended x < extended y := by
  have hfields : x < y ↔ x.toModel.compare y.toModel = some .lt := by
    show decide _ = true ↔ _
    rw [decide_eq_true_iff]
    exact beq_iff_eq
  rw [hfields, ← and_assoc]
  rcases compare_eq_none_or x y with ⟨hnone, hnan⟩ | ⟨hx, hy⟩
  · rw [hnone]
    exact iff_of_false nofun fun h => hnan h.1
  · rw [compare_toModel hx hy, and_iff_right ⟨hx, hy⟩, Option.some_inj, cmp_eq_lt_iff]

theorem le_iff :
    x ≤ y ↔ x.isNaN = false ∧ y.isNaN = false ∧ extended x ≤ extended y := by
  have hfields : x ≤ y ↔ (x.toModel.compare y.toModel).any (·.isLE) = true := by
    show decide _ = true ↔ _
    rw [decide_eq_true_iff]
    rfl
  rw [hfields, ← and_assoc]
  rcases compare_eq_none_or x y with ⟨hnone, hnan⟩ | ⟨hx, hy⟩
  · rw [hnone]
    exact iff_of_false Bool.false_ne_true fun h => hnan h.1
  · rw [compare_toModel hx hy, and_iff_right ⟨hx, hy⟩, Option.any_some, ← not_lt,
      ← cmp_eq_gt_iff]
    cases cmp (extended x) (extended y) <;> decide

theorem lt_of_le_of_lt (hxy : x ≤ y) (hyz : y < z) : x < z := by
  obtain ⟨hx, _, hle⟩ := le_iff.mp hxy
  obtain ⟨_, hz, hlt⟩ := lt_iff.mp hyz
  exact lt_iff.mpr ⟨hx, hz, hle.trans_lt hlt⟩

theorem le_self (hx : x.isNaN = false) : x ≤ x :=
  le_iff.mpr ⟨hx, hx, le_rfl⟩

theorem isNaN_of_infinity {sign : Sign} (hx : x.toModel.unpack = .infinity sign) :
    x.isNaN = false := by
  rw [Float.isNaN, Float.Model.isNaN, hx]
  rfl

theorem isFinite_of_infinity {sign : Sign} (hx : x.toModel.unpack = .infinity sign) :
    x.isFinite = false := by
  rw [Float.isFinite, Float.Model.isFinite, hx]
  rfl

theorem le_infinity (hx : x.isNaN = false) (hy : y.toModel.unpack = .infinity .positive) :
    x ≤ y := by
  rw [le_iff, extended, extended, hy]
  exact ⟨hx, isNaN_of_infinity hy, le_top⟩

theorem neg_infinity_le (hx : x.toModel.unpack = .infinity .negative) (hy : y.isNaN = false) :
    x ≤ y := by
  rw [le_iff, extended, extended, hx]
  exact ⟨isNaN_of_infinity hx, hy, bot_le⟩

theorem not_infinity_le (hx : x.toModel.unpack = .infinity .positive) (hy : y.isFinite = true) :
    ¬x ≤ y := by
  rw [le_iff, extended, extended, hx]
  exact fun h => absurd h.2.2 (not_le.mpr (unpackedExtended_lt_top hy))

theorem not_le_neg_infinity (hx : x.isFinite = true)
    (hy : y.toModel.unpack = .infinity .negative) : ¬x ≤ y := by
  rw [le_iff, extended, extended, hy]
  exact fun h => absurd h.2.2 (not_le.mpr (bot_lt_unpackedExtended hx))

theorem le_iff_value (hx : x.isFinite = true) (hy : y.isFinite = true) :
    x ≤ y ↔ value x ≤ value y := by
  rw [le_iff, and_iff_right (isNaN_of_isFinite hx), and_iff_right (isNaN_of_isFinite hy),
    extended_of_isFinite hx, extended_of_isFinite hy, WithBot.coe_le_coe, WithTop.coe_le_coe]

theorem lt_iff_value (hx : x.isFinite = true) (hy : y.isFinite = true) :
    x < y ↔ value x < value y := by
  rw [lt_iff, and_iff_right (isNaN_of_isFinite hx), and_iff_right (isNaN_of_isFinite hy),
    extended_of_isFinite hx, extended_of_isFinite hy, WithBot.coe_lt_coe, WithTop.coe_lt_coe]

/-! ## Numbers with the same value -/

/-- The bits are determined by the number that they stand for. -/
theorem eq_of_unpack_eq (h : x.toModel.unpack = y.toModel.unpack) : x = y := by
  obtain ⟨⟨⟨bits⟩, hbits⟩⟩ := x
  obtain ⟨⟨⟨bits'⟩, hbits'⟩⟩ := y
  obtain rfl : bits = bits' := (unpack_inj_of_valid hbits hbits').mp h
  rfl

/-- Only the zeros have two representations. -/
theorem eq_of_value_eq (hx : x.isFinite = true) (hy : y.isFinite = true)
    (h : value x = value y) (hzero : value x ≠ 0) : x = y := by
  rcases zero_or_finite hx with ⟨s, hu⟩ | ⟨s, m, e, hm, hu⟩
  · rw [value, hu] at hzero
    exact absurd rfl hzero
  · rcases zero_or_finite hy with ⟨s', hv⟩ | ⟨s', m', e', hm', hv⟩
    · rw [h, value, hv] at hzero
      exact absurd rfl hzero
    · have hpos : (0 : Rat) < m * 2 ^ e := by positivity
      have hpos' : (0 : Rat) < m' * 2 ^ e' := by positivity
      have hc := (isCanonical_of_unpack hu).1
      have hc' := (isCanonical_of_unpack hv).1
      rw [value, value, hu, hv, unpackedValue, unpackedValue] at h
      refine eq_of_unpack_eq ?_
      rw [hu, hv]
      cases s <;> cases s' <;> simp only [signed] at h
      · obtain ⟨rfl, rfl⟩ := hc.eq_of_eq hc' (neg_inj.mp h)
        rfl
      · linarith
      · linarith
      · obtain ⟨rfl, rfl⟩ := hc.eq_of_eq hc' h
        rfl

end CurveSketch.Binary64
