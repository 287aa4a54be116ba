/-!
# Quoted text

How the journal quotes the text of an expression: double quotes around it, and
inside an escape for the double quote, the backslash and the control characters.
A single quote and all characters beyond ASCII stand for themselves.
-/

namespace CurveSketch.Text

/-- A control character by its number in hexadecimal, between braces. -/
def escapeByNumber (c : Char) : List Char :=
  ['\\', 'u', '\x7b'] ++ Nat.toDigits 16 c.toNat ++ ['\x7d']

/-- How a character is written between double quotes. -/
def escape (c : Char) : List Char :=
  match c with
  | '"' => ['\\', '"']
  | '\\' => ['\\', '\\']
  | '\n' => ['\\', 'n']
  | '\r' => ['\\', 'r']
  | '\t' => ['\\', 't']
  | '\x00' => ['\\', '0']
  | c => if c.toNat < 0x20 ∨ c.toNat = 0x7f then escapeByNumber c else [c]

/-- The text between double quotes. -/
def quote (text : String) : String :=
  String.ofList ('"' :: text.toList.flatMap escape ++ ['"'])

/-- Only control characters, double quotes and backslashes are escaped. -/
theorem escape_eq_self {c : Char} (visible : 0x20 ≤ c.toNat) (ne_delete : c.toNat ≠ 0x7f)
    (ne_quote : c ≠ '"') (ne_backslash : c ≠ '\\') : escape c = [c] := by
  unfold escape
  split
  · exact absurd rfl ne_quote
  · exact absurd rfl ne_backslash
  · exact absurd visible (by decide)
  · exact absurd visible (by decide)
  · exact absurd visible (by decide)
  · exact absurd visible (by decide)
  · rw [if_neg (by omega)]

end CurveSketch.Text
