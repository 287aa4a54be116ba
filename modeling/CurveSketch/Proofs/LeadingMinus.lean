import CurveSketch.Proofs.Negation

/-!
# A minus at the very beginning

A minus before which there are only parentheses that open, with or without their
functions, is read as if a zero stood before it (`Curve.read_leadingMinus`).

The two texts are written by two derivation trees.  In the tree of the text with the zero,
the zero is the whole left operand of the minus, because nothing but a minus follows it
and nothing but open parentheses stands before it.  Where this subtraction is, the other
tree has a sign (`Formula.exists_negated`).  All signs of that tree lead, so it is read as
it is meant, and `0 - e` is meant by both.
-/

namespace CurveSketch

/-! ## Parentheses that open -/

def Literal.zero : Literal := ⟨"0", 0, rfl⟩

/-- Parentheses that open one after the other, some of them after a function. -/
inductive Openings : List Token → Prop where
  | nil : Openings []
  | group {opened : List Token} (inner : Openings opened) : Openings (Token.opening :: opened)
  | call {opened : List Token} (f : Builtin) (inner : Openings opened) :
      Openings (f.token :: Token.opening :: opened)

/-- Whether the kind ends an operand. -/
def Kind.isSeparator : Kind → Bool
  | .operator _ | .comma | .closing => true
  | _ => false

namespace Openings

variable {opened before more rest : List Token} {token separator : Token}

theorem isSeparator_of_mem (h : Openings opened) (htoken : token ∈ opened) :
    token.kind.isSeparator = false := by
  induction h with
  | nil => cases htoken
  | group inner ih =>
    rcases List.mem_cons.mp htoken with rfl | hmem
    · rfl
    · exact ih hmem
  | call f inner ih =>
    rcases List.mem_cons.mp htoken with rfl | hmem
    · rfl
    · rcases List.mem_cons.mp hmem with rfl | hmem
      · rfl
      · exact ih hmem

/-- What begins with a parenthesis has the rest of the parentheses inside. -/
theorem exists_inside_group (h : Openings opened) {c : Literal}
    (heq : Token.opening :: more = opened ++ c.token :: rest) :
    ∃ inner, Openings inner ∧ opened = Token.opening :: inner ∧ more = inner ++ c.token :: rest := by
  cases h with
  | nil =>
    have hkind : Kind.opening = .constant c.value := congrArg Token.kind (List.cons.inj heq).1
    cases hkind
  | @group inner hinner => exact ⟨inner, hinner, rfl, (List.cons.inj heq).2⟩
  | @call inner f hinner =>
    have hkind : Kind.opening = .function f := congrArg Token.kind (List.cons.inj heq).1
    cases hkind

/-- What begins with a function has the rest of the parentheses inside its own. -/
theorem exists_inside_call (h : Openings opened) {f : Builtin} {c : Literal}
    (heq : f.token :: Token.opening :: more = opened ++ c.token :: rest) :
    ∃ inner, Openings inner ∧ opened = f.token :: Token.opening :: inner ∧
      more = inner ++ c.token :: rest := by
  cases h with
  | nil =>
    have hkind : Kind.function f = .constant c.value := congrArg Token.kind (List.cons.inj heq).1
    cases hkind
  | group hinner =>
    have hkind : Kind.function f = .opening := congrArg Token.kind (List.cons.inj heq).1
    cases hkind
  | @call inner g hinner =>
    obtain ⟨hf, htail⟩ := List.cons.inj heq
    exact ⟨inner, hinner, by rw [hf], (List.cons.inj htail).2⟩

/-- A separator stands behind the parentheses and the operand after them. -/
theorem exists_before_separator (h : Openings opened)
    (hseparator : separator.kind.isSeparator = true) {c : Literal}
    (heq : before ++ separator :: more = opened ++ c.token :: rest) :
    ∃ between, before = opened ++ c.token :: between ∧ rest = between ++ separator :: more := by
  have hsplit : before ++ separator :: more = (opened ++ [c.token]) ++ rest := by
    rw [heq, List.append_assoc, List.singleton_append]
  have hnot : separator ∉ opened ++ [c.token] := by
    intro hmem
    have hfalse : separator.kind.isSeparator = false := by
      rcases List.mem_append.mp hmem with hopened | hc
      · exact h.isSeparator_of_mem hopened
      · rw [List.mem_singleton.mp hc]
        rfl
    rw [hseparator] at hfalse
    cases hfalse
  rcases List.append_eq_append_iff.mp hsplit with ⟨between, hopened, hmore⟩ | ⟨between, hbefore, hrest⟩
  · cases between with
    | nil => exact ⟨[], by simpa using hopened.symm, by simpa using hmore.symm⟩
    | cons other between =>
      obtain ⟨rfl, -⟩ := List.cons.inj hmore
      exact absurd (hopened ▸ by simp) hnot
  · exact ⟨between, by simpa using hbefore, hrest⟩

/-- Nothing but a minus that separates can stand before the minus after the zero. -/
theorem exists_before_other_separator (h : Openings opened)
    (hseparator : separator.kind.isSeparator = true)
    (hminus : separator.kind ≠ .operator .subtract) {c : Literal}
    (heq : before ++ separator :: more =
      opened ++ c.token :: Operator.subtract.token :: rest) :
    ∃ between, before = opened ++ c.token :: Operator.subtract.token :: between ∧
      rest = between ++ separator :: more := by
  obtain ⟨between, hbefore, hrest⟩ := h.exists_before_separator hseparator heq
  cases between with
  | nil => exact absurd (congrArg Token.kind (List.cons.inj hrest).1).symm hminus
  | cons other between =>
    obtain ⟨rfl, rfl⟩ := List.cons.inj hrest
    exact ⟨between, hbefore, rfl⟩

end Openings

namespace Formula

variable {tier : Tier} {opened rest : List Token}

/-! ## A formula without signs among those with signs -/

/-- The same derivation tree where signs are allowed. -/
def toSigned : {tier : Tier} → Formula false tier → Formula true tier
  | _, literal c => literal c
  | _, free => free
  | _, group e => group e.toSigned
  | _, call f op unary e => call f op unary e.toSigned
  | _, callPair f op binary a b => callPair f op binary a.toSigned b.toSigned
  | _, ofPrimary e => ofPrimary e.toSigned
  | _, power base exponent => power base.toSigned exponent.toSigned
  | _, ofPower e => ofPower e.toSigned
  | _, product left op isProduct right => product left.toSigned op isProduct right.toSigned
  | _, ofProduct e => ofProduct e.toSigned
  | _, sum left op isSum right => sum left.toSigned op isSum right.toSigned

@[simp]
theorem tokens_toSigned (e : Formula false tier) : e.toSigned.tokens = e.tokens := by
  induction e with
  | negate allowed e ih => cases allowed
  | _ => simp [toSigned, tokens, *]

@[simp]
theorem curve_toSigned (e : Formula false tier) : e.toSigned.curve = e.curve := by
  induction e with
  | negate allowed e ih => cases allowed
  | _ => simp [toSigned, curve, *]

@[simp]
theorem isPlain_toSigned (e : Formula false tier) : e.toSigned.isPlain = true := by
  induction e with
  | negate allowed e ih => cases allowed
  | _ => simp [toSigned, isPlain, *]

theorem signsLead_of_isPlain {signed : Bool} (e : Formula signed tier) (h : e.isPlain = true) :
    e.signsLead = true := by
  induction e with
  | negate allowed e ih => cases h
  | _ => simp_all [isPlain, signsLead]

/-! ## The sign in place of the zero -/

/-- If nothing follows the operand behind parentheses that open, there are none, and the
formula is the operand. -/
theorem curve_of_tokens_eq_concat (e : Formula false tier) (hopened : Openings opened) {c : Literal}
    (h : e.tokens = opened ++ [c.token]) : opened = [] ∧ e.curve = Curve.constant c.value := by
  -- a separator would have to stand behind the last token
  have separated {p : Prop} {before more : List Token} {separator : Token}
      (hseparator : separator.kind.isSeparator = true)
      (heq : before ++ separator :: more = opened ++ [c.token]) : p := by
    obtain ⟨between, -, hrest⟩ := hopened.exists_before_separator hseparator heq
    simp at hrest
  induction e with
  | literal other =>
    have hsplit : [] ++ [other.token] = opened ++ [c.token] := h
    obtain ⟨rfl, htoken⟩ := List.append_inj' hsplit rfl
    have hkind : Kind.constant other.value = .constant c.value :=
      congrArg Token.kind (List.cons.inj htoken).1
    exact ⟨rfl, congrArg Curve.constant (Kind.constant.inj hkind)⟩
  | free =>
    have hsplit : [] ++ [Token.free] = opened ++ [c.token] := h
    obtain ⟨-, htoken⟩ := List.append_inj' hsplit rfl
    have hkind : Kind.variable = .constant c.value := congrArg Token.kind (List.cons.inj htoken).1
    cases hkind
  | group e ih => exact @separated _ (Token.opening :: e.tokens) [] Token.closing rfl h
  | call f op unary e ih =>
    exact @separated _ (f.token :: Token.opening :: e.tokens) [] Token.closing rfl h
  | callPair f op binary a b iha ihb =>
    exact @separated _ (f.token :: Token.opening :: a.tokens) (b.tokens ++ [Token.closing])
      Token.comma rfl h
  | ofPrimary e ih | ofPower e ih | ofProduct e ih => exact ih h
  | power base exponent ihb ihe => exact separated rfl h
  | product left op isProduct right ihl ihr => exact separated rfl h
  | sum left op isSum right ihl ihr => exact separated rfl h
  | negate allowed e ih => cases allowed

/-- If a minus follows the zero behind parentheses that open, the same is written without
the zero by a formula with a sign. -/
theorem exists_negated (e : Formula false tier) (hopened : Openings opened)
    (h : e.tokens = opened ++ Literal.zero.token :: Operator.subtract.token :: rest) :
    ∃ negated : Formula true tier, negated.tokens = opened ++ Operator.subtract.token :: rest ∧
      negated.signsLead = true ∧ negated.curve = e.curve := by
  induction e generalizing opened rest with
  | literal _ | free =>
    -- one token cannot be the zero and the minus
    have hlength := congrArg List.length h
    simp only [tokens, List.length_append, List.length_cons, List.length_nil] at hlength
    omega
  | group e ih =>
    obtain ⟨inner, hinner, rfl, hcontent⟩ := hopened.exists_inside_group h
    obtain ⟨between, he, rfl⟩ := hinner.exists_before_other_separator rfl (by rintro ⟨⟩) hcontent
    obtain ⟨negated, htokens, hlead, hcurve⟩ := ih hinner he
    exact ⟨.group negated, by simp [tokens, htokens], hlead, hcurve⟩
  | call f op unary e ih =>
    obtain ⟨inner, hinner, rfl, hcontent⟩ := hopened.exists_inside_call h
    obtain ⟨between, he, rfl⟩ := hinner.exists_before_other_separator rfl (by rintro ⟨⟩) hcontent
    obtain ⟨negated, htokens, hlead, hcurve⟩ := ih hinner he
    exact ⟨.call f op unary negated, by simp [tokens, htokens], hlead, by simp [curve, hcurve]⟩
  | callPair f op binary a b iha ihb =>
    obtain ⟨inner, hinner, rfl, hcontent⟩ := hopened.exists_inside_call h
    obtain ⟨between, ha, rfl⟩ := hinner.exists_before_other_separator rfl (by rintro ⟨⟩) hcontent
    obtain ⟨negated, htokens, hlead, hcurve⟩ := iha hinner ha
    refine ⟨.callPair f op binary negated b.toSigned, ?_, ?_, ?_⟩
    · simp [tokens, htokens]
    · simp [signsLead, hlead]
    · simp [curve, hcurve]
  | ofPrimary e ih =>
    obtain ⟨negated, htokens, hlead, hcurve⟩ := ih hopened h
    exact ⟨.ofPrimary negated, htokens, hlead, hcurve⟩
  | ofPower e ih =>
    obtain ⟨negated, htokens, hlead, hcurve⟩ := ih hopened h
    exact ⟨.ofPower negated, htokens, hlead, hcurve⟩
  | ofProduct e ih =>
    obtain ⟨negated, htokens, hlead, hcurve⟩ := ih hopened h
    exact ⟨.ofProduct negated, htokens, hlead, hcurve⟩
  | power base exponent ihb ihe =>
    obtain ⟨between, hbase, rfl⟩ := hopened.exists_before_other_separator rfl (by rintro ⟨⟩) h
    obtain ⟨negated, htokens, hlead, hcurve⟩ := ihb hopened hbase
    refine ⟨.power negated exponent.toSigned, ?_, ?_, ?_⟩
    · simp [tokens, htokens]
    · simp [signsLead, hlead]
    · simp [curve, hcurve]
  | product left op isProduct right ihl ihr =>
    have hop : op.token.kind ≠ .operator .subtract := by
      rcases isProduct with rfl | rfl <;> rintro ⟨⟩
    obtain ⟨between, hleft, rfl⟩ := hopened.exists_before_other_separator rfl hop h
    obtain ⟨negated, htokens, hlead, hcurve⟩ := ihl hopened hleft
    refine ⟨.product negated op isProduct right.toSigned, ?_, ?_, ?_⟩
    · simp [tokens, htokens]
    · simp [signsLead, hlead]
    · simp [curve, hcurve]
  | sum left op isSum right ihl ihr =>
    obtain ⟨between, hleft, hrest⟩ := hopened.exists_before_separator rfl h
    rcases between with _ | ⟨minus, between⟩
    · obtain ⟨rfl, hzero⟩ := left.curve_of_tokens_eq_concat hopened hleft
      have hop : op = .subtract :=
        Kind.operator.inj (congrArg Token.kind (List.cons.inj hrest).1.symm)
      refine ⟨.negate rfl right.toSigned, ?_, ?_, ?_⟩
      · simp [tokens, (List.cons.inj hrest).2]
      · exact right.toSigned.signsLead_of_isPlain right.isPlain_toSigned
      · rw [curve, curve, hzero, hop, curve_toSigned]
        rfl
    · obtain ⟨rfl, rfl⟩ := List.cons.inj hrest
      obtain ⟨negated, htokens, hlead, hcurve⟩ := ihl hopened hleft
      refine ⟨.sum negated op isSum right.toSigned, ?_, ?_, ?_⟩
      · simp [tokens, htokens]
      · simp [signsLead, hlead]
      · simp [curve, hcurve]
  | negate allowed e ih => cases allowed

end Formula

/-! ## From the texts to the curves -/

theorem Formula.writtenAs_of_tokens {signed : Bool} {tier : Tier} {e : Formula signed tier}
    {tokens : List Token} {text : String} (he : e.tokens = tokens)
    (h : Token.AreWrittenAs tokens text) : e.WrittenAs text := by
  rw [WrittenAs, symbols, he]
  exact h

namespace Curve

/-- A minus that only parentheses that open stand before is read as if a zero stood
before it.  What is written with the zero has to be a formula without signs. -/
theorem read_leadingMinus {opened rest : List Token} (hopened : Openings opened)
    (e : Formula false .sum)
    (he : e.tokens = opened ++ Literal.zero.token :: Operator.subtract.token :: rest)
    {text zeroText : String}
    (written : Token.AreWrittenAs (opened ++ Operator.subtract.token :: rest) text)
    (zeroWritten : Token.AreWrittenAs
      (opened ++ Literal.zero.token :: Operator.subtract.token :: rest) zeroText) :
    ∃ f g, read .delimited text = .ok f ∧ read .delimited zeroText = .ok g ∧
      ∀ x, f x = g x := by
  obtain ⟨negated, htokens, hlead, hcurve⟩ := e.exists_negated hopened he
  have hminus : read .delimited text = .ok negated.curve :=
    Formula.read_of_signsLead (Formula.writtenAs_of_tokens htokens written) hlead
  have hplain : e.signsLead = true := e.signsLead_of_isPlain e.isPlain_of_unsigned
  have hzero : read .delimited zeroText = .ok e.curve :=
    Formula.read_of_signsLead (Formula.writtenAs_of_tokens he zeroWritten) hplain
  exact ⟨negated.curve, e.curve, hminus, hzero, fun x => by rw [hcurve]⟩

/-- `max ( ( 0 - x ^ 2 - 1 ) * 2 , x )` -/
def fromZero : Formula false .sum :=
  .ofProduct (.ofPower (.ofPrimary (.maximum
    (.ofProduct (.product
      (.ofPower (.ofPrimary (.group (.minus
        (.minus (.ofProduct (.ofPower (.ofPrimary (.literal .zero))))
          (.ofPower (.power .free (.ofPrimary (.literal .two)))))
        (.ofPower (.ofPrimary (.literal .one)))))))
      .multiply (Or.inl rfl) (.ofPrimary (.literal .two))))
    (.ofProduct (.ofPower (.ofPrimary .free))))))

theorem read_leadingMinus_fromZero :
    ∃ f g, read .delimited "max ( ( - x ^ 2 - 1 ) * 2 , x )" = .ok f ∧
      read .delimited "max ( ( 0 - x ^ 2 - 1 ) * 2 , x )" = .ok g ∧ ∀ x, f x = g x := by
  have hopened : Openings [Builtin.max.token, Token.opening, Token.opening] :=
    .call .max (.group .nil)
  refine read_leadingMinus hopened fromZero rfl ?_ ?_
  · unfold Token.AreWrittenAs
    decide +kernel
  · unfold Token.AreWrittenAs
    decide +kernel

end Curve

end CurveSketch
