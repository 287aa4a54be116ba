import CurveSketch.Decimal.Numeral
import Mathlib.Data.List.Basic

/-!
# The grammar of numerals

`Numeral.IsNumeral` says which texts are numerals: an optional sign, a decimal and an
optional exponent.  `Numeral.read?` takes a text apart from the left, as many digits at a
time as there are.  `Numeral.isSome_read?_iff` says that it accepts exactly the numerals.

Nothing is lost by taking many digits, because no part of a numeral starts with a digit
where the part before it could go on: a fraction starts with a point, and an exponent with
a letter.
-/

namespace CurveSketch.Numeral

/-! ## The grammar -/

/-- At most one sign. -/
inductive IsSign : List Char → Prop where
  | none : IsSign []
  | plus : IsSign ['+']
  | minus : IsSign ['-']

/-- One digit or more. -/
def IsDigits (text : List Char) : Prop :=
  text ≠ [] ∧ ∀ c ∈ text, c.isDigit = true

/-- Digits, which may have a point and more digits after them, or a point and digits. -/
inductive IsDecimal : List Char → Prop where
  | whole {digits : List Char} (hdigits : IsDigits digits) : IsDecimal digits
  | point {digits fraction : List Char} (hdigits : IsDigits digits)
      (hfraction : ∀ c ∈ fraction, c.isDigit = true) : IsDecimal (digits ++ '.' :: fraction)
  | fraction {fraction : List Char} (hfraction : IsDigits fraction) :
      IsDecimal ('.' :: fraction)

/-- Nothing, or a letter, an optional sign and digits. -/
inductive IsExponent : List Char → Prop where
  | none : IsExponent []
  | marked {letter : Char} {sign digits : List Char} (hletter : letter = 'e' ∨ letter = 'E')
      (hsign : IsSign sign) (hdigits : IsDigits digits) :
      IsExponent (letter :: (sign ++ digits))

/-- An optional sign, a decimal and an optional exponent. -/
def IsNumeral (text : List Char) : Prop :=
  ∃ sign decimal exponent, IsSign sign ∧ IsDecimal decimal ∧ IsExponent exponent ∧
    text = sign ++ (decimal ++ exponent)

/-! ## Where a part ends -/

/-- Taking as much as possible stops where it must. -/
theorem takeWhile_append_of_head {p : Char → Bool} {text rest : List Char}
    (htext : ∀ c ∈ text, p c = true) (hrest : ∀ c ∈ rest.head?, p c = false) :
    (text ++ rest).takeWhile p = text ∧ (text ++ rest).dropWhile p = rest := by
  rw [List.takeWhile_append_of_pos htext, List.dropWhile_append_of_pos htext]
  rcases rest with _ | ⟨c, rest⟩
  · simp
  · have hc : p c = false := hrest c rfl
    simp [hc]

theorem head?_exponent {exponent : List Char} (h : IsExponent exponent) {c : Char}
    (hc : c ∈ exponent.head?) : c.isDigit = false ∧ c ≠ '.' := by
  cases h with
  | none => cases hc
  | marked hletter =>
    cases hc
    rcases hletter with rfl | rfl <;> decide

/-- A decimal starts with a digit or a point. -/
theorem exists_head_decimal {decimal : List Char} (h : IsDecimal decimal) :
    ∃ c rest, decimal = c :: rest ∧ (c.isDigit = true ∨ c = '.') := by
  have hfirst {digits : List Char} (hdigits : IsDigits digits) :
      ∃ c rest, digits = c :: rest ∧ c.isDigit = true := by
    obtain ⟨c, rest, rfl⟩ := List.exists_cons_of_ne_nil hdigits.1
    exact ⟨c, rest, rfl, hdigits.2 c List.mem_cons_self⟩
  cases h with
  | whole hdigits =>
    obtain ⟨c, rest, rfl, hc⟩ := hfirst hdigits
    exact ⟨c, rest, rfl, Or.inl hc⟩
  | point hdigits =>
    obtain ⟨c, rest, rfl, hc⟩ := hfirst hdigits
    exact ⟨c, _, rfl, Or.inl hc⟩
  | fraction => exact ⟨'.', _, rfl, Or.inr rfl⟩

/-! ## Signs -/

/-- At most one sign is split off. -/
theorem exists_sign (text : List Char) :
    ∃ sign, IsSign sign ∧ text = sign ++ (splitSign text).2 := by
  unfold splitSign
  split
  · exact ⟨['-'], .minus, rfl⟩
  · exact ⟨['+'], .plus, rfl⟩
  · exact ⟨[], .none, rfl⟩

/-- The sign is split off, as what comes after it is no other one. -/
theorem splitSign_append {sign : List Char} {c : Char} {rest : List Char} (hsign : IsSign sign)
    (hc : c.isDigit = true ∨ c = '.') : (splitSign (sign ++ c :: rest)).2 = c :: rest := by
  cases hsign with
  | none =>
    rw [List.nil_append, splitSign_of_ne] <;> rintro rfl <;> revert hc <;> decide
  | plus => rfl
  | minus => rfl

/-! ## Recognition -/

theorem splitFraction_of_ne {text : List Char} (h : ∀ c ∈ text.head?, c ≠ '.') :
    splitFraction text = ([], text) := by
  unfold splitFraction
  split
  · exact absurd rfl (h '.' rfl)
  · rfl

/-- Exactly the exponents are read. -/
theorem isSome_readExponent?_iff {text : List Char} :
    (readExponent? text).isSome = true ↔ IsExponent text := by
  rcases text with _ | ⟨letter, rest⟩
  · exact iff_of_true rfl .none
  · by_cases hletter : letter = 'e' ∨ letter = 'E'
    · have hread : (readExponent? (letter :: rest)).isSome = true ↔
          IsDigits (splitSign rest).2 := by
        rw [IsDigits, ← readDigits?_isSome, readExponent?, if_pos hletter]
        rcases splitSign rest with ⟨negative, digits⟩
        cases hdigits : readDigits? digits <;> simp [hdigits]
      rw [hread]
      constructor
      · intro hdigits
        obtain ⟨sign, hsign, heq⟩ := exists_sign rest
        rw [heq]
        exact .marked hletter hsign hdigits
      · rintro (_ | ⟨_, hsign, hdigits⟩)
        obtain ⟨c, digits, rfl⟩ := List.exists_cons_of_ne_nil hdigits.1
        rw [splitSign_append hsign (Or.inl (hdigits.2 c List.mem_cons_self))]
        exact hdigits
    · rw [readExponent?, if_neg hletter]
      refine iff_of_false Bool.false_ne_true ?_
      rintro (_ | ⟨hmarked, _, _⟩)
      exact hletter hmarked

/-- Reading fails if there is no digit, or if the rest is not an exponent. -/
theorem isSome_read?_iff_parts {text : List Char} :
    (read? text).isSome = true ↔
      ¬((splitSign text).2.takeWhile Char.isDigit = [] ∧
        (splitFraction ((splitSign text).2.dropWhile Char.isDigit)).1 = []) ∧
      IsExponent (splitFraction ((splitSign text).2.dropWhile Char.isDigit)).2 := by
  rw [← isSome_readExponent?_iff]
  simp only [read?]
  split
  · rename_i hempty
    rw [Bool.and_eq_true, List.isEmpty_iff, List.isEmpty_iff] at hempty
    exact iff_of_false Bool.false_ne_true fun h => h.1 hempty
  · rename_i hdigit
    rw [Bool.and_eq_true, List.isEmpty_iff, List.isEmpty_iff] at hdigit
    rw [Option.isSome_map, and_iff_right hdigit]

/-- With a digit on one side of the point, what is split off is a decimal. -/
theorem exists_decimal {unsigned : List Char}
    (hdigit : ¬(unsigned.takeWhile Char.isDigit = [] ∧
      (splitFraction (unsigned.dropWhile Char.isDigit)).1 = [])) :
    ∃ decimal, IsDecimal decimal ∧
      unsigned = decimal ++ (splitFraction (unsigned.dropWhile Char.isDigit)).2 := by
  have hdigits (text : List Char) : ∀ c ∈ text.takeWhile Char.isDigit, c.isDigit = true :=
    fun c hc => List.all_eq_true.mp List.all_takeWhile c hc
  have hwhole := hdigits unsigned
  have hparts : unsigned.takeWhile Char.isDigit ++ unsigned.dropWhile Char.isDigit = unsigned :=
    List.takeWhile_append_dropWhile
  generalize unsigned.takeWhile Char.isDigit = whole at *
  generalize unsigned.dropWhile Char.isDigit = after at *
  subst hparts
  by_cases hpoint : ∃ rest, after = '.' :: rest
  · obtain ⟨rest, rfl⟩ := hpoint
    have hfraction := hdigits rest
    have hrest := splitFraction_point rest
    rw [splitFraction] at hdigit hrest ⊢
    by_cases hempty : whole = []
    · refine ⟨_, .fraction ⟨fun h => hdigit ⟨hempty, h⟩, hfraction⟩, ?_⟩
      rw [hempty, List.cons_append, hrest]
      rfl
    · refine ⟨_, .point ⟨hempty, hwhole⟩ hfraction, ?_⟩
      rw [List.append_assoc, List.cons_append, hrest]
  · have hne : ∀ c ∈ after.head?, c ≠ '.' := by
      rintro c hc rfl
      obtain ⟨rest, heq⟩ := List.head?_eq_some_iff.mp hc
      exact hpoint ⟨rest, heq⟩
    rw [splitFraction_of_ne hne] at hdigit ⊢
    exact ⟨whole, .whole ⟨fun h => hdigit ⟨h, rfl⟩, hwhole⟩, rfl⟩

/-- A decimal in front of an exponent has a digit, and is all that is split off. -/
theorem splitFraction_decimal {decimal exponent : List Char} (hdecimal : IsDecimal decimal)
    (hexponent : IsExponent exponent) :
    ¬((decimal ++ exponent).takeWhile Char.isDigit = [] ∧
      (splitFraction ((decimal ++ exponent).dropWhile Char.isDigit)).1 = []) ∧
    (splitFraction ((decimal ++ exponent).dropWhile Char.isDigit)).2 = exponent := by
  have hhead := @head?_exponent exponent hexponent
  cases hdecimal with
  | whole hdigits =>
    obtain ⟨htake, hdrop⟩ := takeWhile_append_of_head hdigits.2 fun c hc => (hhead hc).1
    rw [htake, hdrop, splitFraction_of_ne fun c hc => (hhead hc).2]
    exact ⟨fun h => hdigits.1 h.1, rfl⟩
  | @point digits fraction hdigits hfraction =>
    have hpoint : ∀ c ∈ ('.' :: (fraction ++ exponent)).head?, c.isDigit = false := by
      rintro c ⟨⟩
      rfl
    obtain ⟨htake, hdrop⟩ := takeWhile_append_of_head hdigits.2 hpoint
    obtain ⟨-, hrest⟩ := takeWhile_append_of_head hfraction fun c hc => (hhead hc).1
    rw [List.append_assoc, List.cons_append, htake, hdrop, splitFraction, hrest]
    exact ⟨fun h => hdigits.1 h.1, rfl⟩
  | @fraction fraction hfraction =>
    obtain ⟨htake, hrest⟩ := takeWhile_append_of_head hfraction.2 fun c hc => (hhead hc).1
    have hnone : ('.' :: (fraction ++ exponent)).dropWhile Char.isDigit =
        '.' :: (fraction ++ exponent) := rfl
    rw [List.cons_append, hnone, splitFraction, htake, hrest]
    exact ⟨fun h => hfraction.1 h.2, rfl⟩

/-- What is read after the sign. -/
theorem isSome_read?_iff_unsigned {text : List Char} :
    (read? text).isSome = true ↔ ∃ decimal exponent, IsDecimal decimal ∧ IsExponent exponent ∧
      (splitSign text).2 = decimal ++ exponent := by
  rw [isSome_read?_iff_parts]
  constructor
  · rintro ⟨hdigit, hexponent⟩
    obtain ⟨decimal, hdecimal, heq⟩ := exists_decimal hdigit
    exact ⟨decimal, _, hdecimal, hexponent, heq⟩
  · rintro ⟨decimal, exponent, hdecimal, hexponent, heq⟩
    obtain ⟨hdigit, hrest⟩ := splitFraction_decimal hdecimal hexponent
    rw [heq, hrest]
    exact ⟨hdigit, hexponent⟩

/-- Exactly the numerals are read. -/
theorem isSome_read?_iff {text : List Char} : (read? text).isSome = true ↔ IsNumeral text := by
  rw [isSome_read?_iff_unsigned]
  constructor
  · rintro ⟨decimal, exponent, hdecimal, hexponent, htext⟩
    obtain ⟨sign, hsign, heq⟩ := exists_sign text
    exact ⟨sign, decimal, exponent, hsign, hdecimal, hexponent, htext ▸ heq⟩
  · rintro ⟨sign, decimal, exponent, hsign, hdecimal, hexponent, rfl⟩
    obtain ⟨c, rest, rfl, hc⟩ := exists_head_decimal hdecimal
    exact ⟨c :: rest, exponent, hdecimal, hexponent, splitSign_append hsign hc⟩

/-- A text is no numeral if neither a digit nor a point comes after its sign. -/
theorem read?_eq_none {text : List Char} {c : Char} {rest : List Char}
    (h : (splitSign text).2 = c :: rest) (hdigit : c.isDigit = false) (hpoint : c ≠ '.') :
    read? text = none := by
  rw [← Option.not_isSome_iff_eq_none, isSome_read?_iff_unsigned]
  rintro ⟨decimal, exponent, hdecimal, -, heq⟩
  obtain ⟨c', rest', rfl, hc'⟩ := exists_head_decimal hdecimal
  obtain rfl : c = c' := (List.cons.inj (h.symm.trans heq)).1
  rcases hc' with hc' | hc'
  · rw [hdigit] at hc'
    cases hc'
  · exact hpoint hc'

end CurveSketch.Numeral
