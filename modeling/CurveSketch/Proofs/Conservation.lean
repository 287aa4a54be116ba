import CurveSketch.Proofs.Barriers
import CurveSketch.Proofs.Groups
import Mathlib.Data.List.Induction

/-!
# No token is lost

In the middle of the conversion to reverse Polish order some tokens have their place and
others wait.  `Arrangement.terms` is what would come out if no other token followed.

* A step lets the token that it reads come in and moves no other one
  (`Rpn.terms_of_step`).  No operand ever waits, so only operators and functions are behind
  the new token.  `Collected` is a row of tokens that has come in this way.  None of them is
  lost (`Collected.perm`), the operands keep their order (`Collected.operands`), and
  whatever is read behind an operand comes out behind it (`Collected.behind`).
* A step above an open parenthesis leaves alone what is below it, until the parenthesis is
  closed (`Arrangement.exists_on_of_arranges`).  Then the tokens of the group take their
  places side by side, with the function of the group right behind them
  (`Rpn.placed_of_close`), and they keep these places (`Rpn.placed_suffix_of_step`).  So the
  tokens between two parentheses come out as one block (`Rpn.block_of_arrange`).

Both hold of all tokens that are accepted, whether they are an expression or not, and for
both meanings of commas.
-/

namespace CurveSketch

open Rpn Arrangement

/-! ## Where a token comes in -/

namespace Arrangement

/-- The operands, operators and functions, in the order in which they come out if no
other token follows. -/
def terms (s : Arrangement) : List Token :=
  s.tokens.filter (·.kind.isTerm)

/-- No operand waits. -/
def OperandsPlaced (s : Arrangement) : Prop :=
  ∀ waiting ∈ s.pending, waiting.kind.isOperand = false

/-- The token comes in, and only operators and functions are behind it. -/
def Inserts (token : Token) (before after : List Token) : Prop :=
  ∃ earlier later, before = earlier ++ later ∧ after = earlier ++ token :: later ∧
    ∀ other ∈ later, other.kind.isOperand = false

variable {s t : Arrangement} {token : Token} {leaves : Token → Bool}

@[simp]
theorem terms_release (s : Arrangement) (leaves : Token → Bool) :
    (s.release leaves).terms = s.terms := by
  rw [terms, tokens_release, terms]

@[simp]
theorem terms_releaseGroup (s : Arrangement) : s.releaseGroup.terms = s.terms :=
  terms_release s _

theorem terms_defer_of_not_isTerm (h : token.kind.isTerm = false) (s : Arrangement) :
    (s.defer token).terms = s.terms := by
  simp [terms, Arrangement.tokens, defer, h]

theorem Layered.operandsPlaced (h : s.Layered) : s.OperandsPlaced :=
  fun waiting hwaiting => Kind.isOperand_eq_false_of_canWait (h.canWait waiting hwaiting)

theorem OperandsPlaced.release (h : s.OperandsPlaced) (leaves : Token → Bool) :
    (s.release leaves).OperandsPlaced :=
  fun waiting hwaiting => h waiting (List.dropWhile_subset leaves hwaiting)

/-- A token that is placed, or waits on top of all others, is behind the tokens that
have their place and before those that wait. -/
theorem OperandsPlaced.inserts (h : s.OperandsPlaced) (htoken : token.kind.isTerm = true)
    (ht : t.tokens = s.placed.reverse ++ token :: s.pending) :
    Inserts token s.terms t.terms := by
  refine ⟨s.placed.reverse.filter (·.kind.isTerm), s.pending.filter (·.kind.isTerm), ?_, ?_, ?_⟩
  · rw [terms, Arrangement.tokens, List.filter_append]
  · simp [terms, ht, htoken]
  · intro other hother
    exact h other (List.mem_filter.mp hother).1

end Arrangement

namespace Rpn

variable {mode : CommaMode} {s t : Arrangement} {token : Token} {tokens ordered : List Token}

/-- A closing parenthesis takes the open one away, and no term. -/
theorem terms_of_close (h : close s = .ok t) : t.terms = s.terms := by
  have hopening {opening : Token} {rest : List Token}
      (hpending : s.releaseGroup.pending = opening :: rest) : opening.kind.isTerm = false :=
    Kind.isTerm_eq_false_of_isOpening (isOpening_of_pending_releaseGroup hpending)
  rw [← terms_releaseGroup s]
  rcases close_eq_ok h with
    ⟨opening, rest, hpending, -, rfl⟩ | ⟨opening, f, rest, hpending, -, rfl⟩
  · simp [terms, Arrangement.tokens, hpending, hopening hpending]
  · simp [terms, Arrangement.tokens, hpending, hopening hpending]

/-- A step lets its token come in if it is a term, and moves no other one. -/
theorem terms_of_step (hs : s.OperandsPlaced) (h : step mode s token = .ok t) :
    token.kind.isTerm = true ∧ Inserts token s.terms t.terms ∨
      token.kind.isTerm = false ∧ t.terms = s.terms := by
  cases advances_of_step h with
  | operand hkind =>
    have hterm : token.kind.isTerm = true := Kind.isTerm_of_isOperand hkind
    exact Or.inl ⟨hterm, hs.inserts hterm (tokens_place s token)⟩
  | function hkind =>
    have hterm : token.kind.isTerm = true := Kind.isTerm_of_isFunction hkind
    exact Or.inl ⟨hterm, hs.inserts hterm rfl⟩
  | opening hkind =>
    have hterm : token.kind.isTerm = false := by rw [hkind]; rfl
    exact Or.inr ⟨hterm, terms_defer_of_not_isTerm hterm s⟩
  | @operator op hkind =>
    have hterm : token.kind.isTerm = true := by rw [hkind]; rfl
    have hreleased : (s.release (yields op)).OperandsPlaced := hs.release _
    rw [← terms_release s (yields op)]
    exact Or.inl ⟨hterm, hreleased.inserts hterm rfl⟩
  | closing hkind hclose => exact Or.inr ⟨by rw [hkind]; rfl, terms_of_close hclose⟩
  | comma hkind _ hend =>
    obtain ⟨-, rfl⟩ := endArgument_eq_ok hend
    exact Or.inr ⟨by rw [hkind]; rfl, terms_releaseGroup s⟩
  | skip hkind _ => exact Or.inr ⟨by rw [hkind]; rfl, rfl⟩

end Rpn

/-! ## What has come in -/

/-- The terms of the tokens, each of which came in behind the operands before it. -/
inductive Collected : List Token → List Token → Prop where
  | nil : Collected [] []
  | term {tokens before after : List Token} {token : Token} (earlier : Collected tokens before)
      (hterm : token.kind.isTerm = true) (hinserts : Inserts token before after) :
      Collected (tokens ++ [token]) after
  | skip {tokens ordered : List Token} {token : Token} (earlier : Collected tokens ordered)
      (hterm : token.kind.isTerm = false) : Collected (tokens ++ [token]) ordered

namespace Collected

variable {tokens ordered : List Token} {a b : Token}

theorem perm (h : Collected tokens ordered) :
    ordered.Perm (tokens.filter (·.kind.isTerm)) := by
  induction h with
  | nil => exact .nil
  | @term tokens before after token earlier hterm hinserts ih =>
    obtain ⟨front, back, rfl, rfl, -⟩ := hinserts
    rw [List.filter_append, List.filter_singleton, hterm]
    have hmiddle : (front ++ token :: back).Perm ((front ++ back) ++ [token]) :=
      List.perm_middle.trans (List.perm_append_singleton token _).symm
    exact hmiddle.trans (ih.append_right _)
  | skip earlier hterm ih =>
    rw [List.filter_append, List.filter_singleton, hterm]
    simpa using ih

theorem operands (h : Collected tokens ordered) :
    ordered.filter (·.kind.isOperand) = tokens.filter (·.kind.isOperand) := by
  induction h with
  | nil => rfl
  | @term tokens before after token earlier hterm hinserts ih =>
    obtain ⟨front, back, rfl, rfl, hback⟩ := hinserts
    have hnone : back.filter (·.kind.isOperand) = [] := by
      rw [List.filter_eq_nil_iff]
      intro other hother
      simp [hback other hother]
    rw [List.filter_append, hnone, List.append_nil] at ih
    simp [List.filter_append, List.filter_cons, hnone, ih]
  | @skip tokens ordered token earlier hterm ih =>
    have hoperand : token.kind.isOperand = false := by
      rw [← Bool.not_eq_true]
      intro hoperand
      rw [Kind.isTerm_of_isOperand hoperand] at hterm
      cases hterm
    simp [List.filter_append, hoperand, ih]

/-- A pair of tokens has been read before the last token, or the last token is the second
of the two. -/
theorem pair_sublist_concat {token : Token} (h : [a, b].Sublist (tokens ++ [token])) :
    [a, b].Sublist tokens ∨ b = token ∧ a ∈ tokens := by
  obtain ⟨front, back, hpair, hfront, hback⟩ := List.sublist_append_iff.mp h
  rcases List.sublist_singleton.mp hback with rfl | rfl
  · rw [List.append_nil] at hpair
    exact Or.inl (hpair ▸ hfront)
  · have hsplit : [a] ++ [b] = front ++ [token] := hpair
    obtain ⟨rfl, hb⟩ := List.append_inj' hsplit rfl
    exact Or.inr ⟨List.singleton_inj.mp hb, List.singleton_sublist.mp hfront⟩

/-- Whatever is read behind an operand comes out behind it. -/
theorem behind (h : Collected tokens ordered) (hab : [a, b].Sublist tokens)
    (ha : a.kind.isOperand = true) (hb : b.kind.isTerm = true) : [a, b].Sublist ordered := by
  induction h with
  | nil => cases hab
  | @term tokens before after token earlier htoken hinserts ih =>
    have hperm := earlier.perm
    obtain ⟨front, back, rfl, rfl, hback⟩ := hinserts
    rcases pair_sublist_concat hab with hpair | ⟨rfl, hmem⟩
    · exact (ih hpair).trans ((List.Sublist.refl front).append (List.sublist_cons_self token back))
    · have hordered : a ∈ front ++ back :=
        hperm.mem_iff.mpr (List.mem_filter.mpr ⟨hmem, Kind.isTerm_of_isOperand ha⟩)
      have hfront : a ∈ front := by
        rcases List.mem_append.mp hordered with hfront | hother
        · exact hfront
        · rw [hback a hother] at ha
          cases ha
      have hlast : [b].Sublist (b :: back) := List.singleton_sublist.mpr List.mem_cons_self
      exact (List.singleton_sublist.mpr hfront).append hlast
  | skip earlier htoken ih =>
    rcases pair_sublist_concat hab with hpair | ⟨rfl, -⟩
    · exact ih hpair
    · rw [hb] at htoken
      cases htoken

end Collected

namespace Rpn

variable {mode : CommaMode} {s t : Arrangement} {token : Token} {tokens ordered : List Token}

theorem collected_of_arranges (h : Arranges mode .empty tokens s) : Collected tokens s.terms := by
  induction tokens using List.reverseRecOn generalizing s with
  | nil =>
    obtain rfl : empty = s := Except.ok.inj h
    exact .nil
  | append_singleton tokens token ih =>
    obtain ⟨before, hbefore, hstep⟩ := foldlM_concat_eq_ok h
    have hplaced : before.OperandsPlaced :=
      (foldlM_invariant layered_of_step layered_empty hbefore).operandsPlaced
    rcases terms_of_step hplaced hstep with ⟨hterm, hinserts⟩ | ⟨hterm, hsame⟩
    · exact .term (ih hbefore) hterm hinserts
    · rw [hsame]
      exact .skip (ih hbefore) hterm

theorem collected_of_arrange (h : arrange mode tokens = .ok ordered) :
    Collected tokens ordered := by
  have hterms := isTerm_of_mem_arrange h
  obtain ⟨s, hrun, hfinish⟩ := arrange_eq_ok_iff.mp h
  obtain ⟨-, rfl⟩ := finish_eq_ok_iff.mp hfinish
  have hcollected := collected_of_arranges hrun
  rwa [terms, List.filter_eq_self.mpr hterms] at hcollected

end Rpn

/-! ## What stands in parentheses -/

namespace Nesting

/-- Every parenthesis is matched.  Commas are no matter. -/
def Balanced (tokens : List Token) : Prop :=
  scan .positional tokens = .ok ()

theorem foldlM_of_balanced {tokens : List Token} (h : Balanced tokens) :
    tokens.foldlM (step .positional) 0 = .ok 0 := by
  obtain ⟨depth, hrun, hfinish⟩ := bind_eq_ok_iff.mp h
  unfold finish at hfinish
  split at hfinish
  · rename_i hdepth
    rw [hrun, hdepth]
  · cases hfinish

end Nesting

namespace Arrangement

variable {mode : CommaMode} {base s t u : Arrangement} {token : Token} {tokens : List Token}
  {depth : Nat}

/-- Above an open parenthesis a step leaves that parenthesis alone, unless it closes
it. -/
theorem exists_on_of_step (hbase : base.IsOpen)
    (hdepth : Nesting.step .positional u.depth token = .ok depth)
    (h : step mode (u.on base) token = .ok t) : ∃ v : Arrangement, t = v.on base ∧ v.depth = depth := by
  cases hcomma : token.kind.isComma with
  | true =>
    -- on its own the argument would have no parenthesis to end at, so `step_on` is no help
    have hkind : token.kind = .comma := Kind.eq_comma_of_isComma hcomma
    have hsame : u.depth = depth := by
      simpa [Nesting.step, hkind] using hdepth
    cases mode with
    | delimited =>
      rw [step_comma hkind] at h
      obtain ⟨-, rfl⟩ := endArgument_eq_ok h
      exact ⟨u.releaseGroup, releaseGroup_on hbase u, by rw [depth_releaseGroup, hsame]⟩
    | positional =>
      rw [step_comma_positional hkind] at h
      exact ⟨u, (Except.ok.inj h).symm, hsame⟩
  | false =>
    have hown : (step mode u token).map Arrangement.depth = .ok depth := by
      rw [step_of_not_isComma hcomma .positional, step_depth, hdepth]
    obtain ⟨v, hstep, hv⟩ := map_eq_ok_iff.mp hown
    rw [step_on hbase hstep] at h
    exact ⟨v, (Except.ok.inj h).symm, hv⟩

theorem exists_on_of_arranges (hbase : base.IsOpen)
    (hdepth : tokens.foldlM (Nesting.step .positional) u.depth = .ok depth)
    (h : Arranges mode (u.on base) tokens t) : ∃ v : Arrangement, t = v.on base ∧ v.depth = depth := by
  induction tokens generalizing u with
  | nil =>
    obtain rfl : u.on base = t := Except.ok.inj h
    exact ⟨u, rfl, Except.ok.inj hdepth⟩
  | cons token tokens ih =>
    obtain ⟨next, hstep, hrest⟩ := arranges_cons_iff.mp h
    obtain ⟨depth, hnext, hrestDepth⟩ := foldlM_cons_eq_ok_iff.mp hdepth
    obtain ⟨v, rfl, rfl⟩ := exists_on_of_step hbase hnext hstep
    exact ih hrestDepth hrest

end Arrangement

namespace Rpn

variable {mode : CommaMode} {s t u : Arrangement} {token opening closing : Token}
  {before inside after inner ordered : List Token}

/-- What has its place keeps it. -/
theorem placed_suffix_of_step (h : step mode s token = .ok t) : s.placed <:+ t.placed := by
  have hrelease (leaves : Token → Bool) : s.placed <:+ (s.release leaves).placed :=
    List.suffix_append _ _
  cases advances_of_step h with
  | operand hkind => exact List.suffix_cons token s.placed
  | function hkind | opening hkind | skip _ _ => exact List.suffix_refl s.placed
  | operator hkind => exact hrelease _
  | closing _ hclose =>
    rcases close_eq_ok hclose with ⟨opening, rest, -, -, rfl⟩ | ⟨opening, f, rest, -, -, rfl⟩
    · exact hrelease _
    · exact (hrelease _).trans (List.suffix_cons f _)
  | comma _ _ hend =>
    obtain ⟨-, rfl⟩ := endArgument_eq_ok hend
    exact hrelease _

/-- A closing parenthesis places its group, and right behind it the function below the
open parenthesis. -/
theorem placed_of_close (hgroup : t.releaseGroup = (s.defer opening).placeAll inner)
    (h : close t = .ok u) :
    ∃ owner, u.placed = (inner ++ owner).reverse ++ s.placed ∧
      ∀ f ∈ s.pending.head?, f.kind.isFunction = true → owner = [f] := by
  have without (hs : ∀ token ∈ s.pending.head?, token.kind.isFunction = false) :
      ∃ owner, u.placed = (inner ++ owner).reverse ++ s.placed ∧
        ∀ f ∈ s.pending.head?, f.kind.isFunction = true → owner = [f] := by
    rw [close_of_releaseGroup hgroup hs] at h
    obtain rfl := Except.ok.inj h
    refine ⟨[], by simp [placeAll], fun f hf hfunction => ?_⟩
    rw [hs f hf] at hfunction
    cases hfunction
  rcases hpending : s.pending with _ | ⟨below, rest⟩
  · rw [hpending] at without
    exact without fun _ hmem => by cases hmem
  · cases hf : below.kind.isFunction with
    | false =>
      rw [hpending] at without
      exact without fun _ hmem => by cases hmem; exact hf
    | true =>
      have hdefer : s = (⟨s.placed, rest⟩ : Arrangement).defer below := by
        rw [defer, ← hpending]
      rw [hdefer] at hgroup
      rw [close_of_releaseGroup_function hgroup hf] at h
      obtain rfl := Except.ok.inj h
      refine ⟨[below], rfl, ?_⟩
      rintro _ ⟨⟩ -
      rfl

/-- A function waits on top until the next token is read. -/
theorem head?_pending_of_getLast? {f : Token} (hf : f ∈ before.getLast?)
    (hfunction : f.kind.isFunction = true) (h : Arranges mode .empty before s) :
    f ∈ s.pending.head? := by
  rcases List.eq_nil_or_concat before with rfl | ⟨init, last, rfl⟩
  · cases hf
  · rw [List.concat_eq_append] at hf h
    obtain rfl : last = f := by simpa using hf
    obtain ⟨t, -, hstep⟩ := foldlM_concat_eq_ok h
    rw [step_function hfunction] at hstep
    obtain rfl := Except.ok.inj hstep
    rfl

/-- What has come in since a parenthesis was opened are the terms that have been read since. -/
theorem perm_of_arranges_on (hopening : opening.kind = .opening)
    (hbefore : Arranges mode .empty before s)
    (hinside : Arranges mode (s.defer opening) inside (u.on (s.defer opening))) :
    (u.tokens.filter (·.kind.isTerm)).Perm (inside.filter (·.kind.isTerm)) := by
  have hterm : opening.kind.isTerm = false := by rw [hopening]; rfl
  have hearlier : s.terms.Perm (before.filter (·.kind.isTerm)) :=
    (collected_of_arranges hbefore).perm
  have hall : (u.on (s.defer opening)).terms.Perm
      (before.filter (·.kind.isTerm) ++ inside.filter (·.kind.isTerm)) := by
    have hrun : Arranges mode .empty (before ++ opening :: inside) (u.on (s.defer opening)) :=
      hbefore.append (.cons (step_opening hopening) hinside)
    have hperm := (collected_of_arranges hrun).perm
    rwa [List.filter_append, List.filter_cons_of_neg (by simp [hterm])] at hperm
  have hsplit : (u.on (s.defer opening)).terms.Perm
      (s.terms ++ u.tokens.filter (·.kind.isTerm)) := by
    have hon : (u.on (s.defer opening)).terms = s.placed.reverse.filter (·.kind.isTerm) ++
        (u.tokens.filter (·.kind.isTerm) ++ s.pending.filter (·.kind.isTerm)) := by
      simp [terms, Arrangement.tokens, on, defer, hterm]
    have hown : s.terms =
        s.placed.reverse.filter (·.kind.isTerm) ++ s.pending.filter (·.kind.isTerm) :=
      List.filter_append _ _
    rw [hon, hown, List.append_assoc]
    exact List.perm_append_comm.append_left _
  have hcome := (hearlier.symm.append_right _).trans (hsplit.symm.trans hall)
  exact (List.perm_append_left_iff _).mp hcome

/-- The terms in a pair of parentheses come out side by side, and right behind them the
function before the parentheses. -/
theorem block_of_arrange
    (h : arrange mode (before ++ opening :: (inside ++ closing :: after)) = .ok ordered)
    (hopening : opening.kind = .opening) (hclosing : closing.kind = .closing)
    (hinside : Nesting.Balanced inside) :
    ∃ left block right, ordered = left ++ (block ++ right) ∧
      block.Perm (inside.filter (·.kind.isTerm)) ∧
      ∀ f ∈ before.getLast?, f.kind.isFunction = true → right.head? = some f := by
  have hterms := isTerm_of_mem_arrange h
  obtain ⟨last, hrun, hfinish⟩ := arrange_eq_ok_iff.mp h
  obtain ⟨-, rfl⟩ := finish_eq_ok_iff.mp hfinish
  obtain ⟨s, hbefore, hrest⟩ := arranges_append_iff.mp hrun
  obtain ⟨base, hstep, hrest⟩ := arranges_cons_iff.mp hrest
  obtain ⟨t, hcontent, hrest⟩ := arranges_append_iff.mp hrest
  obtain ⟨u, hclose, hafter⟩ := arranges_cons_iff.mp hrest
  rw [step_opening hopening] at hstep
  obtain rfl := Except.ok.inj hstep
  rw [step_closing hclosing] at hclose
  have hopen : (s.defer opening).IsOpen := isOpen_defer hopening
  obtain ⟨v, rfl, hdepth⟩ :=
    exists_on_of_arranges (u := empty) hopen (Nesting.foldlM_of_balanced hinside) hcontent
  have hclosed : ∀ token ∈ v.pending, token.kind.isOpening = false := by
    simpa [Arrangement.depth, List.countP_eq_zero] using hdepth
  obtain ⟨owner, hplaced, howner⟩ :=
    placed_of_close (releaseGroup_on_of_closed hopen hclosed) hclose
  have hkeep {t next : Arrangement} {token : Token} (ht : u.placed <:+ t.placed)
      (hstep : step mode t token = .ok next) : u.placed <:+ next.placed :=
    ht.trans (placed_suffix_of_step hstep)
  obtain ⟨more, hmore⟩ : u.placed <:+ last.placed :=
    @foldlM_invariant _ _ _ _ (u.placed <:+ ·.placed) hkeep _ _ _ (List.suffix_refl _) hafter
  have hordered : last.tokens =
      s.placed.reverse ++ (v.tokens ++ (owner ++ (more.reverse ++ last.pending))) := by
    rw [Arrangement.tokens, ← hmore, hplaced]
    simp
  refine ⟨s.placed.reverse, v.tokens, _, hordered, ?_, ?_⟩
  · have hblock : v.tokens.filter (·.kind.isTerm) = v.tokens := by
      refine List.filter_eq_self.mpr fun token htoken => hterms token ?_
      rw [hordered]
      simp [htoken]
    rw [← hblock]
    exact perm_of_arranges_on hopening hbefore hcontent
  · intro f hf hfunction
    rw [howner f (head?_pending_of_getLast? hf hfunction hbefore) hfunction]
    rfl

end Rpn

end CurveSketch
