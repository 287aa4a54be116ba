import CurveSketch.Proofs.Meaning

/-!
# Functions without parentheses

A function need not stand before a group.  Any other expression behind it is its argument,
up to the end of what the function stands in (`Curve.read_openCall`).

The function waits below its argument, and no operator of the argument releases it, however
loosely it binds.  Only a group at the beginning of the argument would be taken for the
function's own.  So a formula that does not begin with one is a loose expression behind the
function (`Formula.loose_of_head?`), and the function comes out after all of it.
-/

namespace CurveSketch

open Calculator

variable {f : Builtin} {op : Float → Float}

/-! ## The order -/

namespace Formula

variable {signed : Bool} {tier : Tier}

/-- A function and all that stands behind it. -/
theorem loose_openCall (e : Formula signed .sum) (h : e.tokens.head? ≠ some Token.opening) :
    Loose (.level tier true true) (f.token :: e.tokens) (e.ordered ++ [f.token]) :=
  .function (.none true) rfl (e.loose_of_head? false true fun _ => h)

/-- A function and the group behind it. -/
theorem loose_groupCall (e : Formula signed .sum) :
    Loose (.level tier true false) (f.token :: Token.opening :: (e.tokens ++ [Token.closing]))
      (e.ordered ++ [f.token]) :=
  .level (.call (.none true) rfl (.none false) rfl (.argument (e.loose true)) rfl)

end Formula

/-! ## From the texts to the curves -/

namespace Curve

/-- A text is reduced in the order of the loose expression that it writes. -/
theorem read_of_loose {tokens ordered : List Token} {text : String} {g : Curve}
    (hwritten : Token.AreWrittenAs tokens text) (hne : tokens ≠ [])
    (hwritable : ∀ token ∈ tokens, token.IsWritable)
    (hloose : Loose (.level .sum true true) tokens ordered)
    (hrun : ∀ x, run x ordered [] = .ok [g x]) : read .delimited text = .ok g := by
  rw [read, Rpn.read, Token.read_of_areWrittenAs hwritten hne hwritable]
  show Rpn.arrange .delimited tokens >>= Reduction.reduce = _
  rw [arrange_of_loose hloose]
  exact reduce_of_run hrun

/-- A function that does not stand before a group is applied to all that follows it.  The
operators of its argument stay in it, even if they bind more loosely than an operator before
the function.  A function before a group is applied to the group alone. -/
theorem read_openCall (unary : f.operation = .unary op) :
    (∀ (e : Formula false .sum) (text : String), e.tokens.head? ≠ some Token.opening →
      Token.AreWrittenAs (f.token :: e.tokens) text →
      read .delimited text = .ok fun x => op (e.curve x)) ∧
    (∀ (infixOp : Operator) (left : Formula false infixOp.leftTier) (e : Formula false .sum)
      (text : String), e.tokens.head? ≠ some Token.opening →
      Token.AreWrittenAs (left.tokens ++ infixOp.token :: f.token :: e.tokens) text →
      read .delimited text = .ok fun x => infixOp.apply (left.curve x) (op (e.curve x))) ∧
    ∀ (infixOp : Operator) (e : Formula false .sum) (right : Formula false infixOp.rightTier)
      (text : String), Token.AreWrittenAs ((f.token :: Token.opening ::
        (e.tokens ++ [Token.closing])) ++ infixOp.token :: right.tokens) text →
      read .delimited text = .ok fun x => infixOp.apply (op (e.curve x)) (right.curve x) := by
  have hargument (e : Formula false .sum) (x : Float) (stack : List Float) :
      run x (e.ordered ++ [f.token]) stack = .ok (op (e.curve x) :: stack) :=
    run_call unary (e.run_ordered e.isPlain_of_unsigned x stack)
  refine ⟨?_, ?_, ?_⟩
  · intro e text he hwritten
    refine read_of_loose hwritten (List.cons_ne_nil _ _) ?_ (e.loose_openCall he) fun x =>
      hargument e x []
    rw [List.forall_mem_cons]
    exact ⟨Token.isWritable_builtin f, e.isWritable_of_mem_tokens⟩
  · intro infixOp left e text he hwritten
    have hloose : Loose (.level .sum true true) (left.tokens ++ infixOp.token ::
        f.token :: e.tokens) (left.ordered ++ (e.ordered ++ [f.token]) ++ [infixOp.token]) :=
      .binary_token infixOp infixOp.sum_le_precedence (left.loose false) (e.loose_openCall he)
    refine read_of_loose hwritten (by simp) ?_ hloose fun x => ?_
    · rw [List.forall_mem_append, List.forall_mem_cons, List.forall_mem_cons]
      exact ⟨left.isWritable_of_mem_tokens, Token.isWritable_operator infixOp,
        Token.isWritable_builtin f, e.isWritable_of_mem_tokens⟩
    · exact run_binary (left.run_ordered left.isPlain_of_unsigned x []) (hargument e x _)
  · intro infixOp e right text hwritten
    have hloose : Loose (.level .sum true true) ((f.token :: Token.opening ::
        (e.tokens ++ [Token.closing])) ++ infixOp.token :: right.tokens)
        (e.ordered ++ [f.token] ++ right.ordered ++ [infixOp.token]) :=
      .binary_token infixOp infixOp.sum_le_precedence e.loose_groupCall (right.loose true)
    refine read_of_loose hwritten (by simp) ?_ hloose fun x => ?_
    · simp only [List.forall_mem_append, List.forall_mem_cons]
      exact ⟨⟨Token.isWritable_builtin f, Token.isWritable_opening, e.isWritable_of_mem_tokens,
        Token.isWritable_closing, by simp⟩, Token.isWritable_operator infixOp,
        right.isWritable_of_mem_tokens⟩
    · exact run_binary (hargument e x []) (right.run_ordered right.isPlain_of_unsigned x _)

/-- `x + max ( ( 1 ) , x )` -/
def lifted : Formula false .sum :=
  .plus (.ofProduct (.ofPower (.ofPrimary .free)))
    (.ofPower (.ofPrimary (.maximum
      (.ofProduct (.ofPower (.ofPrimary (.group
        (.ofProduct (.ofPower (.ofPrimary (.literal .one))))))))
      (.ofProduct (.ofPower (.ofPrimary .free))))))

theorem read_openCall_lifted :
    Builtin.sin.operation = .unary Float.sin ∧ lifted.tokens.head? ≠ some Token.opening ∧
      read .delimited "sin x + max ( ( 1 ) , x )" = .ok (fun x => Float.sin (lifted.curve x)) ∧
      read .delimited "2 ^ sin x + max ( ( 1 ) , x )" =
        .ok (fun x => Operator.power.apply 2 (Float.sin (lifted.curve x))) ∧
      read .delimited "sin ( x + max ( ( 1 ) , x ) ) ^ 2" =
        .ok (fun x => Operator.power.apply (Float.sin (lifted.curve x)) 2) := by
  have unary : Builtin.sin.operation = .unary Float.sin := rfl
  have hhead : lifted.tokens.head? ≠ some Token.opening := by
    intro h
    have hkind : some Kind.variable = some Kind.opening := congrArg (Option.map Token.kind) h
    cases hkind
  obtain ⟨hopen, hbehind, hgroup⟩ := read_openCall unary
  refine ⟨unary, hhead, ?_, ?_, ?_⟩
  · refine hopen lifted _ hhead ?_
    unfold Token.AreWrittenAs
    decide +kernel
  · refine hbehind .power (.literal .two) lifted _ hhead ?_
    unfold Token.AreWrittenAs
    decide +kernel
  · refine hgroup .power lifted (.ofPrimary (.literal .two)) _ ?_
    unfold Token.AreWrittenAs
    decide +kernel

end Curve

end CurveSketch
