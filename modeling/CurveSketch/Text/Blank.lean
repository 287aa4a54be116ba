/-!
# White space

`isBlank` is the Unicode property White_Space, and `words` cuts a text at its
blanks.  A word is never empty and never holds a blank.
-/

namespace CurveSketch.Text

/-- The Unicode property White_Space, all 25 characters. -/
def isBlank (c : Char) : Bool :=
  let n := c.toNat
  (0x09 ≤ n && n ≤ 0x0d) || n == 0x20 || n == 0x85 || n == 0xa0 || n == 0x1680
    || (0x2000 ≤ n && n ≤ 0x200a) || n == 0x2028 || n == 0x2029 || n == 0x202f
    || n == 0x205f || n == 0x3000

/-- The runs of characters between blanks, in order. -/
def words (text : List Char) : List (List Char) :=
  (text.splitOnP isBlank).filter (!·.isEmpty)

/-! ## Facts about words -/

/-- What core calls white space is blank. -/
theorem isBlank_of_isWhitespace {c : Char} (h : c.isWhitespace) : isBlank c := by
  simp [Char.isWhitespace] at h
  rcases h with ((rfl | rfl) | rfl) | rfl <;> rfl

theorem words_nil : words [] = [] := by
  simp [words]

/-- No word is empty. -/
theorem ne_nil_of_mem_words {text word : List Char} (h : word ∈ words text) : word ≠ [] := by
  intro empty
  simp [words, empty] at h

/-- A blank cuts a text in two, and nothing but the two parts matters. -/
theorem words_append_cons_of_isBlank {c : Char} (h : isBlank c) (before after : List Char) :
    words (before ++ c :: after) = words before ++ words after := by
  simp [words, List.splitOnP_append_cons before after h]

/-- A blank before a text changes nothing. -/
theorem words_cons_of_isBlank {c : Char} (h : isBlank c) (text : List Char) :
    words (c :: text) = words text := by
  simpa [words_nil] using words_append_cons_of_isBlank h [] text

/-- A text without blanks is one word. -/
theorem words_eq_singleton {text : List Char} (nonempty : text ≠ [])
    (h : ∀ c ∈ text, isBlank c = false) : words text = [text] := by
  simp [words, List.splitOnP_eq_singleton h, nonempty]

/-- A text without blanks before a blank is the first word. -/
theorem words_append_cons {word : List Char} (nonempty : word ≠ [])
    (h : ∀ d ∈ word, isBlank d = false) {c : Char} (hc : isBlank c) (text : List Char) :
    words (word ++ c :: text) = word :: words text := by
  rw [words_append_cons_of_isBlank hc, words_eq_singleton nonempty h, List.singleton_append]

end CurveSketch.Text
