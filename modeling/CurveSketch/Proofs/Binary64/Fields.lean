import Mathlib

/-!
# The fields of a binary64 number

A binary64 number is a sign bit, eleven exponent bits and fifty-two mantissa bits.
`ofFields` says which number the fields stand for.  A finite one is
`± mantissa * 2 ^ exponent` in canonical form (`IsCanonical`): its mantissa fills 53
bits, or the exponent is the least one.

`isCanonical_of_unpack` says that unpacking gives canonical fields.  The other way,
`unpack_pack_ofCanonical` says that canonical fields survive packing, unless the
exponent is too great for eleven bits and the number becomes an infinity.
-/

namespace CurveSketch.Binary64

open Float.Model
open Float.Model.UnpackedFloat

/-- A mantissa that fills 53 bits, or has fewer and the least exponent. -/
structure IsCanonical (mantissa : Nat) (exponent : Int) : Prop where
  lt : mantissa < 2 ^ 53
  min_le : -1074 ≤ exponent
  normal : 2 ^ 52 ≤ mantissa ∨ exponent = -1074

/-- The number with the given mantissa and exponent, which is a zero if the mantissa
is. -/
def ofCanonical (sign : Sign) (m : Nat) (e : Int) : UnpackedFloat :=
  if h : m = 0 then .zero sign else .finite sign m e (Nat.pos_of_ne_zero h)

theorem ofCanonical_of_pos (sign : Sign) {m : Nat} (e : Int) (hm : 0 < m) :
    ofCanonical sign m e = .finite sign m e hm :=
  dif_neg hm.ne'

/-- The number that the three bit fields stand for. -/
def ofFields (sign : Sign) (exponent : BitVec 11) (mantissa : BitVec 52) : UnpackedFloat :=
  if exponent = -1#11 then
    if mantissa = 0#52 then .infinity sign else .notANumber
  else if exponent = 0#11 then ofCanonical sign mantissa.toNat (-1074)
  else ofCanonical sign (2 ^ 52 + mantissa.toNat) (exponent.toNat - 1075)

/-! ## Unpacking -/

/-- The implicit bit stands above the mantissa bits. -/
theorem toNat_implicitBit_append (mantissa : BitVec 52) :
    (1#1 ++ mantissa).toNat = 2 ^ 52 + mantissa.toNat := by
  rw [BitVec.toNat_append, ← Nat.shiftLeft_add_eq_or_of_lt mantissa.isLt]
  rfl

theorem unpack_eq_ofFields (bits : BitVec 64) :
    UnpackedFloat.unpack .binary64 bits =
      ofFields (Sign.ofBitVec (@unpackSign .binary64 bits)) (@unpackExponent .binary64 bits)
        (@unpackMantissa .binary64 bits) := by
  have hzero (mantissa : BitVec 52) : mantissa = 0#52 ↔ mantissa.toNat = 0 :=
    BitVec.toNat_eq.trans Iff.rfl
  have hpos (mantissa : BitVec 52) : 0 < 2 ^ 52 + mantissa.toNat :=
    Nat.add_pos_left (Nat.two_pow_pos 52) _
  simp only [UnpackedFloat.unpack, ofFields, toNat_implicitBit_append]
  split
  · rfl
  · split
    · rename_i hexponent
      simp only [ofCanonical, hzero, hexponent]
      rfl
    · rw [ofCanonical_of_pos _ _ (hpos _)]
      rfl

/-- Finite numbers have canonical fields, and an exponent of eleven bits. -/
theorem isCanonical_of_ofFields {sign s : Sign} {exponent : BitVec 11} {mantissa : BitVec 52}
    {m : Nat} {e : Int} {hm : 0 < m} (h : ofFields sign exponent mantissa = .finite s m e hm) :
    IsCanonical m e ∧ e ≤ 971 := by
  have hmantissa : mantissa.toNat < 2 ^ 52 := mantissa.isLt
  have hexponent : exponent.toNat < 2048 := exponent.isLt
  unfold ofFields at h
  split at h
  · split at h <;> cases h
  · rename_i hinf
    have hmax : exponent.toNat ≠ 2047 := fun heq => hinf (BitVec.eq_of_toNat_eq heq)
    split at h
    · unfold ofCanonical at h
      split at h <;> cases h
      exact ⟨⟨by omega, le_rfl, Or.inr rfl⟩, by omega⟩
    · rename_i hzero
      have hpos : exponent.toNat ≠ 0 := fun heq => hzero (BitVec.eq_of_toNat_eq heq)
      rw [ofCanonical_of_pos _ _ (by omega)] at h
      cases h
      exact ⟨⟨by omega, by omega, Or.inl (by omega)⟩, by omega⟩

theorem isCanonical_of_unpack {x : Float.Model} {s : Sign} {m : Nat} {e : Int} {hm : 0 < m}
    (h : x.unpack = .finite s m e hm) : IsCanonical m e ∧ e ≤ 971 := by
  rw [Float.Model.unpack, unpack_eq_ofFields] at h
  exact isCanonical_of_ofFields h

/-! ## Packing -/

theorem unpack_packComponents (sign : Sign) (exponent : BitVec 11) (mantissa : BitVec 52) :
    UnpackedFloat.unpack .binary64 (packComponents .binary64 sign exponent mantissa) =
      ofFields sign exponent mantissa := by
  rw [unpack_eq_ofFields, unpackSign_packComponents, Sign.ofBitVec_toBitVec,
    unpackExponent_packComponents, unpackMantissa_packComponents]

theorem unpack_pack_zero (sign : Sign) :
    (Float.Model.pack (.zero sign)).unpack = .zero sign :=
  unpack_packedZero

theorem unpack_pack_infinity (sign : Sign) :
    (Float.Model.pack (.infinity sign)).unpack = .infinity sign :=
  unpack_packComponents sign (-1#11) 0#52

/-- The exponent field is 1075 above the exponent, and the leading bit of the mantissa
is left out. -/
theorem ofFields_normal (sign : Sign) {m : Nat} {e : Int} (hlow : 2 ^ 52 ≤ m)
    (hhigh : m < 2 ^ 53) (hmin : -1074 ≤ e) (hmax : e ≤ 971) :
    ofFields sign (BitVec.ofNat 11 (e + 1075).toNat) (BitVec.ofNat 52 m) =
      ofCanonical sign m e := by
  have hexponent : (BitVec.ofNat 11 (e + 1075).toNat).toNat = (e + 1075).toNat := by
    rw [BitVec.toNat_ofNat]
    omega
  have hmantissa : 2 ^ 52 + (BitVec.ofNat 52 m).toNat = m := by
    rw [BitVec.toNat_ofNat]
    omega
  have hbias : ((e + 1075).toNat : Int) - 1075 = e := by omega
  have hne (b : BitVec 11) (hb : (e + 1075).toNat ≠ b.toNat) :
      BitVec.ofNat 11 (e + 1075).toNat ≠ b := by
    rintro rfl
    exact hb hexponent.symm
  have hinf : (e + 1075).toNat ≠ (-1#11 : BitVec 11).toNat := by
    show _ ≠ 2047
    omega
  have hzero : (e + 1075).toNat ≠ (0#11 : BitVec 11).toNat := by
    show _ ≠ 0
    omega
  rw [ofFields, if_neg (hne _ hinf), if_neg (hne _ hzero), hmantissa, hexponent, hbias]

theorem ofFields_subnormal (sign : Sign) {m : Nat} (hhigh : m < 2 ^ 52) :
    ofFields sign 0#11 (BitVec.ofNat 52 m) = ofCanonical sign m (-1074) := by
  have hmantissa : (BitVec.ofNat 52 m).toNat = m := by
    rw [BitVec.toNat_ofNat]
    omega
  rw [ofFields, if_neg (by decide), if_pos rfl, hmantissa]

/-- A number in canonical form is packed without loss, or is too great and becomes an
infinity. -/
theorem unpack_pack_ofCanonical (sign : Sign) {m : Nat} {e : Int} (h : IsCanonical m e) :
    (Float.Model.pack (ofCanonical sign m e)).unpack =
      if e ≤ 971 then ofCanonical sign m e else .infinity sign := by
  obtain ⟨hhigh, hmin, hnormal⟩ := h
  rcases Nat.eq_zero_or_pos m with rfl | hm
  · rw [if_pos (by omega)]
    exact unpack_pack_zero sign
  · have hbias : (e + Format.binary64.exponentBias +
        Format.binary64.mantissaBitsWithoutImplicit).toNat = (e + 1075).toNat := by
      show (e + 1023 + 52).toNat = _
      omega
    have hbits : m.log2 + 1 = Format.binary64.mantissaBits ↔ 2 ^ 52 ≤ m := by
      have hlog : m.log2 = 52 ↔ 2 ^ 52 ≤ m ∧ m < 2 ^ 53 := Nat.log2_eq_iff hm.ne'
      show m.log2 + 1 = 53 ↔ _
      omega
    have hlimit : 2 ^ Format.binary64.exponentBits ≤ (e + 1075).toNat + 1 ↔ ¬e ≤ 971 := by
      show 2048 ≤ _ ↔ _
      omega
    show UnpackedFloat.unpack .binary64 (UnpackedFloat.pack .binary64 _) = _
    rw [ofCanonical_of_pos sign e hm]
    simp only [UnpackedFloat.pack, hbias, hbits, hlimit, ite_not]
    rw [← ofCanonical_of_pos sign e hm]
    split
    · split
      · rename_i hmax hlow
        exact (unpack_packComponents sign _ _).trans
          (ofFields_normal sign hlow hhigh hmin hmax)
      · rename_i hlow
        obtain rfl : e = -1074 := hnormal.resolve_left hlow
        exact (unpack_packComponents sign _ _).trans (ofFields_subnormal sign (by omega))
    · exact unpack_packComponents sign (-1#11) 0#52

/-- Packing undoes unpacking. -/
theorem unpack_pack_of_unpack {x : Float.Model} {sign : Sign} {m : Nat} {e : Int} {hm : 0 < m}
    (h : x.unpack = .finite sign m e hm) (s : Sign) :
    (Float.Model.pack (.finite s m e hm)).unpack = .finite s m e hm := by
  obtain ⟨hcanonical, hmax⟩ := isCanonical_of_unpack h
  rw [← ofCanonical_of_pos s e hm, unpack_pack_ofCanonical s hcanonical, if_pos hmax]

end CurveSketch.Binary64
