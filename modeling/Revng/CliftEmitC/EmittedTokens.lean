import Revng.CliftEmitC.Spacing

/-!
# The text of an expression

What is emitted for a well-formed expression is cut into the tokens it was emitted as, unless a
negation is printed right before a minus (`lex_emitExpression`).
-/

namespace CliftEmitC

open Piece

variable {names : TypeNames} {glues : Bool}

/-- Pieces that are read back as their tokens wherever an expression may stand. -/
structure Printed (names : TypeNames) (glues : Bool) (ps : List Piece) : Prop where
  valid : AllValid ps
  spaced : SpacedBut glues ps
  first : ∃ t, ps.head? = some (.token t) ∧ names.startsExpression t = true
  last : ∃ t, ps.getLast? = some (.token t) ∧ t.endsExpression = true

namespace Printed

variable {ps : List Piece}

theorem ne_nil (h : Printed names glues ps) : ps ≠ [] := by
  rintro rfl
  obtain ⟨t, ht, -⟩ := h.first
  cases ht

theorem parenthesize (h : Printed names glues ps) (current own : OperatorPrecedence) :
    Printed names glues (parenthesize current own ps) := by
  rcases parenthesize_cases current own ps with ⟨-, heq⟩ | ⟨-, heq⟩
  · rw [heq]
    refine ⟨allValid_cons_token.mpr ⟨rfl, allValid_append.mpr ⟨h.valid,
      allValid_cons_token.mpr ⟨rfl, allValid_nil⟩⟩⟩, (spaced_cons rfl).mpr
        ((spaced_append_cons rfl).mpr ⟨h.spaced, spaced_nil⟩), ⟨_, rfl, rfl⟩,
      ⟨.punctuator .rightParenthesis, ?_, rfl⟩⟩
    rw [← List.cons_append, List.getLast?_concat]
  · rwa [heq]

theorem single {t : Token} (hvalid : t.isValid = true) (hfirst : names.startsExpression t = true)
    (hlast : t.endsExpression = true) : Printed names glues [.token t] :=
  ⟨allValid_cons_token.mpr ⟨hvalid, allValid_nil⟩, spaced_singleton, ⟨t, rfl, hfirst⟩,
    ⟨t, rfl, hlast⟩⟩

/-- An expression in front of a neutral piece. -/
theorem append_cons (h : Printed names glues ps) {q : Piece} (hq : q.isNeutral = true)
    {qs : List Piece} (hvalid : AllValid (q :: qs)) (hspaced : SpacedBut glues qs)
    (hlast : ∃ t, (q :: qs).getLast? = some (.token t) ∧ t.endsExpression = true) :
    Printed names glues (ps ++ q :: qs) := by
  obtain ⟨t, ht, hends⟩ := hlast
  refine ⟨allValid_append.mpr ⟨h.valid, hvalid⟩, (spaced_append_cons hq).mpr ⟨h.spaced, hspaced⟩,
    ?_, ⟨t, ?_, hends⟩⟩
  · rw [List.head?_append_of_ne_nil _ h.ne_nil]
    exact h.first
  · rw [List.getLast?_append, ht, Option.some_or]

end Printed

/-! ## The ends of an expression -/

theorem head?_append_of_eq_some {α : Type} {xs ys : List α} {a : α} (h : xs.head? = some a) :
    (xs ++ ys).head? = some a := by
  rw [List.head?_append, h, Option.some_or]

/-- An operand of a postfix expression does not begin with an operator. -/
theorem startsPostfix_parenthesize {current own : OperatorPrecedence} {body : List Piece}
    (hcurrent : 13 ≤ current.toNat)
    (h : 14 ≤ own.toNat → ∃ t, body.head? = some (.token t) ∧ t.startsPostfix = true) :
    ∃ t, (parenthesize current own body).head? = some (.token t) ∧ t.startsPostfix = true := by
  rcases parenthesize_cases current own body with
    ⟨-, heq⟩ | ⟨hown, heq⟩
  · rw [heq]
    exact ⟨_, rfl, rfl⟩
  · rw [heq]
    rcases hown with hlt | rfl
    · exact h (by omega)
    · exact h (by decide)

variable {e : Expression}

theorem startsPostfix_emitBody (h : 14 ≤ e.precedence.toNat) :
    ∃ t, (emitBody e).head? = some (.token t) ∧ t.startsPostfix = true := by
  have hoperand (value : Expression) (rest : List Piece) {current : OperatorPrecedence}
      (hcurrent : 13 ≤ current.toNat) (ih : 14 ≤ value.precedence.toNat →
        ∃ t, (emitBody value).head? = some (.token t) ∧ t.startsPostfix = true) :
      ∃ t, (parenthesize current value.precedence (emitBody value) ++ rest).head? =
        some (.token t) ∧ t.startsPostfix = true := by
    obtain ⟨t, ht, hstarts⟩ := startsPostfix_parenthesize hcurrent ih
    exact ⟨t, head?_append_of_eq_some ht, hstarts⟩
  induction e using Expression.induction with
  | access isIndirect value field ih => exact hoperand value _ (by decide) ih
  | subscript pointer index ih _ => exact hoperand pointer _ (by decide) ih
  | call function arguments ih _ => exact hoperand function _ (by decide) ih
  | postfixOp op operand ih => exact hoperand operand _ (by decide) ih
  | implicitCast value ih =>
    rw [Expression.emitBody_implicitCast]
    exact ih h
  | cast | prefixOp | ternary => exact absurd h (by rw [Expression.precedence]; decide)
  | infixOp op lhs rhs => exact absurd h (by rw [Expression.precedence]; cases op <;> decide)
  | _ => exact ⟨_, rfl, rfl⟩

theorem isNumber_of_getLast? (h : 14 ≤ e.precedence.toNat)
    (himmediate : e.unwrapImplicitCasts.isImmediate = false) {t : Token}
    (ht : (emitBody e).getLast? = some (.token t)) : t.isNumber = false := by
  induction e using Expression.induction with
  | immediate literal => cases himmediate
  | implicitCast value ih =>
    rw [Expression.emitBody_implicitCast] at ht
    exact ih h himmediate ht
  | cast | prefixOp | ternary => exact absurd h (by rw [Expression.precedence]; decide)
  | infixOp op lhs rhs => exact absurd h (by rw [Expression.precedence]; cases op <;> decide)
  | _ =>
    simp only [emitBody, List.getLast?_append, List.getLast?_cons, List.getLast?_nil,
      Option.getD_none, Option.getD_some, Option.some_or, Option.some.injEq, Piece.token.injEq]
      at ht
    subst ht
    rfl

/-- The last token of an operand of a postfix expression is no number. -/
theorem isNumber_parenthesize {current : OperatorPrecedence} (hcurrent : 13 ≤ current.toNat)
    (himmediate : e.unwrapImplicitCasts.isImmediate = false) {t : Token}
    (ht : (parenthesize current e.precedence (emitBody e)).getLast? = some (.token t)) :
    t.isNumber = false := by
  rcases parenthesize_cases current e.precedence (emitBody e) with
    ⟨-, heq⟩ | ⟨hown, heq⟩
  · rw [heq, ← List.cons_append, List.getLast?_concat, Option.some.injEq, Piece.token.injEq] at ht
    subst ht
    rfl
  · rw [heq] at ht
    refine isNumber_of_getLast? ?_ himmediate ht
    rcases hown with hlt | hprimary
    · omega
    · rw [hprimary]
      decide

theorem isImmediate_of_isLvalue (h : e.isLvalue = true) :
    e.unwrapImplicitCasts.isImmediate = false := by
  cases e with
  | implicitCast | immediate => cases h
  | _ => rfl

/-! ## Expressions are printed -/

theorem printed_operands {es : List Expression} (h : ∀ e ∈ es, Printed names glues (emitBody e))
    (isFirst : Bool) :
    AllValid (emitOperands isFirst es) ∧ SpacedBut glues (emitOperands isFirst es) ∧
      (isFirst = false → ∀ p ∈ (emitOperands isFirst es).head?, p.isNeutral = true) := by
  induction es generalizing isFirst with
  | nil => exact ⟨allValid_nil, spaced_nil, fun _ _ h => nomatch h⟩
  | cons e es ih =>
    obtain ⟨hvalid, hspaced, hhead⟩ := ih (fun e he => h e (List.mem_cons_of_mem _ he)) false
    have he := (h e List.mem_cons_self).parenthesize .comma e.precedence
    have hall : AllValid (parenthesize .comma e.precedence (emitBody e) ++
        emitOperands false es) := allValid_append.mpr ⟨he.valid, hvalid⟩
    have hchain : SpacedBut glues (parenthesize .comma e.precedence (emitBody e) ++
        emitOperands false es) := he.spaced.append hspaced fun _ _ q hq =>
      .inl (Piece.mayPrecede_of_right (hhead rfl q hq))
    rw [emitOperands]
    cases isFirst with
    | true => exact ⟨hall, hchain, fun h => nomatch h⟩
    | false =>
      refine ⟨allValid_cons_token.mpr ⟨rfl, hall⟩,
        (spaced_cons_cons rfl).mpr hchain, fun _ p hp => ?_⟩
      cases hp
      rfl

theorem getLast?_append_of_eq_some {α : Type} {xs ys : List α} {a : α}
    (h : ys.getLast? = some a) : (xs ++ ys).getLast? = some a := by
  rw [List.getLast?_append, h, Option.some_or]

theorem getLast?_cons_of_eq_some {α : Type} {x : α} {ys : List α} {a : α}
    (h : ys.getLast? = some a) : (x :: ys).getLast? = some a := by
  rw [List.getLast?_cons, h, Option.getD_some]

/-- A macro and its arguments. -/
theorem Printed.call {name : Text} (hname : validateIdentifier name = true)
    (hvalue : names.isType name = false) {ps : List Piece} (hvalid : AllValid ps)
    (hspaced : SpacedBut glues ps) :
    Printed names glues (word name :: punctuator .leftParenthesis ::
      (ps ++ [punctuator .rightParenthesis])) := by
  refine ⟨allValid_cons_token.mpr ⟨hname, allValid_cons_token.mpr ⟨rfl,
    allValid_append.mpr ⟨hvalid, allValid_cons_token.mpr ⟨rfl, allValid_nil⟩⟩⟩⟩,
    (spaced_cons_cons rfl).mpr ((spaced_append_cons rfl).mpr ⟨hspaced, spaced_nil⟩),
    ⟨_, rfl, ?_⟩, ⟨.punctuator .rightParenthesis, ?_, rfl⟩⟩
  · rw [TypeNames.startsExpression, hvalue]
    rfl
  · exact getLast?_cons_of_eq_some (getLast?_cons_of_eq_some
      (getLast?_append_of_eq_some rfl))

theorem isType_macros {name : String}
    (h : name ∈ ["undef", "bit_cast", "NULL", "true", "false"]) :
    names.isType name.toList = false := names.isType_macros name h

theorem printed_word {name : Text} (h : names.isValueName name = true) :
    Printed names glues [word name] := by
  rw [TypeNames.isValueName, Bool.and_eq_true] at h
  exact Printed.single h.1 h.2 rfl

theorem validateIdentifier_intrinsic {operation : Text}
    (h : operation.all isIdentifierCharacter = true) :
    validateIdentifier ("rr_".toList ++ operation) = true :=
  have hvalid : (Token.word ("rr_".toList ++ operation)).isValid = true :=
    isValid_word_append (by decide) h
  hvalid

section Types

variable {type : CType} (htype : names.isTypeWellNamed type = true)
include htype

/-- A macro whose first argument is a type. -/
theorem Printed.callType {name : Text} (hname : validateIdentifier name = true)
    (hvalue : names.isType name = false) {ps : List Piece} (hvalid : AllValid ps)
    (hspaced : SpacedBut glues ps) :
    Printed names glues (word name :: punctuator .leftParenthesis :: (emitType type ++
      (punctuator .comma :: (ps ++ [punctuator .rightParenthesis])))) := by
  have hcall : Printed names glues (word name :: punctuator .leftParenthesis ::
      ((emitType type ++ punctuator .comma :: ps) ++ [punctuator .rightParenthesis])) :=
    Printed.call hname hvalue
      (allValid_append.mpr ⟨allValid_emitType htype, allValid_cons_token.mpr ⟨rfl, hvalid⟩⟩)
      ((spaced_append_cons rfl).mpr ⟨spaced_emitType type, hspaced⟩)
  rwa [List.append_assoc, List.cons_append] at hcall

/-- A type in parentheses before an expression. -/
theorem Printed.cast {ps : List Piece} (h : Printed names glues ps) :
    Printed names glues (punctuator .leftParenthesis :: (emitType type ++
      (punctuator .rightParenthesis :: space :: ps))) := by
  obtain ⟨t, ht, hends⟩ := h.last
  refine ⟨allValid_cons_token.mpr ⟨rfl, allValid_append.mpr ⟨allValid_emitType htype,
    allValid_cons_token.mpr ⟨rfl, allValid_cons_space.mpr h.valid⟩⟩⟩, (spaced_cons rfl).mpr
      ((spaced_append_cons rfl).mpr ⟨spaced_emitType type, (spaced_cons rfl).mpr h.spaced⟩),
    ⟨_, rfl, rfl⟩, ⟨t, ?_, hends⟩⟩
  exact getLast?_cons_of_eq_some (getLast?_append_of_eq_some
    (getLast?_cons_of_eq_some (getLast?_cons_of_eq_some ht)))

end Types

/-- An expression, an operator between spaces and another expression. -/
theorem Printed.between {ps qs : List Piece} (hps : Printed names glues ps) (hqs : Printed names glues qs)
    (p : Punctuator) : Printed names glues (ps ++ space :: punctuator p :: space :: qs) := by
  obtain ⟨t, ht, hends⟩ := hqs.last
  refine hps.append_cons rfl (allValid_cons_space.mpr (allValid_cons_token.mpr ⟨rfl,
    allValid_cons_space.mpr hqs.valid⟩)) ((spaced_cons_cons rfl).mpr hqs.spaced) ⟨t, ?_, hends⟩
  exact getLast?_cons_of_eq_some (getLast?_cons_of_eq_some (getLast?_cons_of_eq_some ht))

/-- An expression that begins with an operator is a prefix expression. -/
theorem exists_prefixOp_of_head? (h : 13 ≤ e.precedence.toNat) {p : Punctuator}
    (hp : (emitBody e).head? = some (punctuator p)) (hne : p ≠ .leftParenthesis) :
    ∃ op operand, e.unwrapImplicitCasts = .prefixOp op operand ∧ p = op.getOperator := by
  have hafter (hlt : 14 ≤ e.precedence.toNat) : False := by
    obtain ⟨t, ht, hstarts⟩ := startsPostfix_emitBody hlt
    rw [hp, Option.some.injEq, Piece.token.injEq] at ht
    subst ht
    exact hne (of_decide_eq_true hstarts)
  induction e using Expression.induction with
  | implicitCast value ih =>
    rw [Expression.emitBody_implicitCast] at hp
    exact ih h hp hafter
  | prefixOp op operand =>
    cases hp
    exact ⟨op, operand, rfl, rfl⟩
  | cast type value =>
    cases hp
    exact absurd rfl hne
  | infixOp op lhs rhs => exact absurd h (by rw [Expression.precedence]; cases op <;> decide)
  | ternary => exact absurd h (by rw [Expression.precedence]; decide)
  | _ => exact (hafter (by rw [Expression.precedence]; decide)).elim

theorem exists_prefixOp_of_parenthesize {p : Punctuator}
    (hp : (parenthesize (.decrementPrecedence .unaryPrefix) e.precedence (emitBody e)).head? =
      some (punctuator p)) (hne : p ≠ .leftParenthesis) :
    ∃ op operand, e.unwrapImplicitCasts = .prefixOp op operand ∧ p = op.getOperator := by
  rcases parenthesize_cases (.decrementPrecedence .unaryPrefix) e.precedence (emitBody e) with
    ⟨-, heq⟩ | ⟨hown, heq⟩
  · rw [heq, List.head?_cons, Option.some.injEq, Piece.token.injEq, Token.punctuator.injEq] at hp
    exact absurd hp.symm hne
  · rw [heq] at hp
    refine exists_prefixOp_of_head? ?_ hp hne
    rcases hown with hlt | hprimary
    · exact hlt
    · rw [hprimary]
      decide

/-- A prefix operator and its operand. -/
theorem printed_prefixOp {op : PrefixOperation} {operand : Expression}
    (h : Printed names glues (emitBody operand)) (hlvalue : op.takesLvalue = true → operand.isLvalue = true)
    (hglue : glues = false → (Expression.prefixOp op operand).gluesMinus = false) :
    Printed names glues (emitBody (.prefixOp op operand)) := by
  have hprinted := h.parenthesize (.decrementPrecedence .unaryPrefix) operand.precedence
  obtain ⟨t, ht, hstarts⟩ := hprinted.first
  obtain ⟨last, hlast, hends⟩ := hprinted.last
  have hfirst : names.startsExpression (.punctuator op.getOperator) = true := by
    cases op <;> rfl
  rw [emitBody]
  by_cases hspace : op = .neg ∧ operand.isNegation = true
  · rw [if_pos hspace]
    exact ⟨allValid_cons_token.mpr ⟨rfl, allValid_cons_space.mpr hprinted.valid⟩,
      (spaced_cons_cons rfl).mpr hprinted.spaced, ⟨_, rfl, hfirst⟩,
      ⟨last, getLast?_cons_of_eq_some (getLast?_cons_of_eq_some hlast), hends⟩⟩
  · rw [if_neg hspace, List.nil_append]
    refine ⟨allValid_cons_token.mpr ⟨rfl, hprinted.valid⟩, List.isChain_cons.mpr
      ⟨fun q hq => ?_, hprinted.spaced⟩, ⟨_, rfl, hfirst⟩,
      ⟨last, getLast?_cons_of_eq_some hlast, hends⟩⟩
    rw [ht, Option.mem_some_iff] at hq
    subst hq
    have hvalid : t.isValid = true := by
      refine hprinted.valid t ?_
      cases hpieces : parenthesize (.decrementPrecedence .unaryPrefix) operand.precedence
          (emitBody operand) with
      | nil =>
        rw [hpieces] at ht
        cases ht
      | cons q qs =>
        rw [hpieces] at ht
        cases ht
        exact List.mem_cons_self
    have hminus (hop : op = .neg) (hfalse : glues = false) :
        t ≠ .punctuator .minus ∧ t ≠ .punctuator .minusMinus := by
      -- The operand would be a negation or a decrement under implicit casts.
      subst hop
      have hnot : operand.isNegation = false := by
        rw [Bool.eq_false_iff]
        exact fun hnegation => hspace ⟨rfl, hnegation⟩
      have hprints : operand.unwrapImplicitCasts.printsMinus = false := by
        have hglue := hglue hfalse
        rw [Expression.gluesMinus, hnot] at hglue
        exact hglue
      constructor
      · rintro rfl
        obtain ⟨op', operand', hunwrap, hop⟩ := exists_prefixOp_of_parenthesize ht (by decide)
        rw [hunwrap] at hprints
        cases op' with
        | neg => cases hprints
        | _ => cases hop
      · rintro rfl
        obtain ⟨op', operand', hunwrap, hop⟩ := exists_prefixOp_of_parenthesize ht (by decide)
        rw [hunwrap] at hprints
        cases op' with
        | decrement => cases hprints
        | _ => cases hop
    by_cases htouch : op = .neg ∧ (t = .punctuator .minus ∨ t = .punctuator .minusMinus)
    · refine .inr ⟨?_, by rw [htouch.1]; rfl, ?_⟩
      · cases glues with
        | true => rfl
        | false =>
          have hnot := hminus htouch.1 rfl
          exact (htouch.2.elim hnot.1 hnot.2).elim
      · exact htouch.2.imp (congrArg Piece.token) (congrArg Piece.token)
    refine .inl (mayPrecede_of_startsExpression hvalid hstarts (fun hop => ?_) fun hop hampersand => ?_)
    · exact not_or.mp fun hor => htouch ⟨hop, hor⟩
    · -- The address of an address is not taken.
      subst hop hampersand
      obtain ⟨op', operand', hunwrap, hop⟩ := exists_prefixOp_of_parenthesize ht (by decide)
      have hlvalue := hlvalue rfl
      cases operand with
      | implicitCast value => cases hlvalue
      | prefixOp op'' operand'' =>
        cases hunwrap
        cases op' with
        | addressof => cases hlvalue
        | _ => cases hop
      | _ => cases hunwrap

theorem printed (hwf : e.isWellFormed names = true)
    (hglue : glues = false → e.contains Expression.gluesMinus = false) :
    Printed names glues (emitBody e) := by
  induction e using Expression.induction with
  | identifier name => exact printed_word hwf
  | enumerator name => exact printed_word hwf
  | immediate literal => exact Printed.single (isValid_emitIntegerLiteral literal) rfl rfl
  | boolean value =>
    refine Printed.single ?_ ?_ rfl
    · cases value <;> decide
    · cases value with
      | true => rw [TypeNames.startsExpression, if_pos rfl, isType_macros (by decide)]; rfl
      | false =>
        rw [TypeNames.startsExpression, if_neg Bool.false_ne_true, isType_macros (by decide)]
        rfl
  | null =>
    refine Printed.single (by decide) ?_ rfl
    rw [TypeNames.startsExpression, isType_macros (by decide)]
    rfl
  | string contents => exact Printed.single hwf rfl rfl
  | undef type =>
    exact Printed.call (by decide) (isType_macros (by decide)) (allValid_emitType hwf)
      (spaced_emitType type)
  | aggregate type initializers ih =>
    rw [Expression.isWellFormed, Bool.and_eq_true, Expression.areWellFormed_eq_all,
      List.all_eq_true] at hwf
    rw [Expression.contains, Bool.or_eq_false_iff, Expression.anyContains_eq_any,
      List.any_eq_false, imp_and] at hglue
    obtain ⟨hvalid, hspaced, -⟩ := printed_operands (fun e he => ih e he (hwf.2 e he)
      fun hnot => Bool.eq_false_iff.mpr (hglue.2 hnot e he)) true
    refine ⟨allValid_cons_token.mpr ⟨rfl, allValid_append.mpr ⟨allValid_emitType hwf.1,
      allValid_cons_token.mpr ⟨rfl, allValid_cons_token.mpr ⟨rfl, allValid_append.mpr
        ⟨hvalid, allValid_cons_token.mpr ⟨rfl, allValid_nil⟩⟩⟩⟩⟩⟩, ?_, ⟨_, rfl, rfl⟩,
      ⟨.punctuator .rightBrace, ?_, rfl⟩⟩
    · exact (spaced_cons rfl).mpr ((spaced_append_cons rfl).mpr ⟨spaced_emitType type,
        (spaced_cons rfl).mpr ((spaced_append_cons rfl).mpr ⟨hspaced, spaced_nil⟩)⟩)
    · exact getLast?_cons_of_eq_some (getLast?_append_of_eq_some (getLast?_cons_of_eq_some
        (getLast?_cons_of_eq_some (getLast?_append_of_eq_some rfl))))
  | access isIndirect value field ih =>
    simp only [Expression.isWellFormed, Bool.and_eq_true, Bool.not_eq_true'] at hwf
    obtain ⟨⟨hvalue, himmediate⟩, hfield⟩ := hwf
    rw [Expression.contains, Bool.or_eq_false_iff, imp_and] at hglue
    have hprinted := (ih hvalue hglue.2).parenthesize (.decrementPrecedence .unaryPostfix)
      value.precedence
    obtain ⟨last, hlast, hends⟩ := hprinted.last
    have hp : (if isIndirect then Punctuator.arrow else .dot) = .dot ∨
        (if isIndirect then Punctuator.arrow else .dot) = .arrow := by
      cases isIndirect with
      | false => exact .inl rfl
      | true => exact .inr rfl
    rw [emitBody]
    refine ⟨allValid_append.mpr ⟨hprinted.valid, allValid_cons_token.mpr ⟨rfl,
      allValid_cons_token.mpr ⟨hfield, allValid_nil⟩⟩⟩, hprinted.spaced.append
        (List.isChain_cons_cons.mpr ⟨.inl (mayPrecede_field hp hfield), spaced_singleton⟩)
          fun q hq r hr => ?_, ?_, ⟨.word field, getLast?_append_of_eq_some rfl, rfl⟩⟩
    · rw [hlast, Option.mem_some_iff] at hq
      cases hr
      subst hq
      exact .inl (mayPrecede_of_endsExpression hends (isNumber_parenthesize (by decide) himmediate hlast)
        (hp.elim .inl fun h => .inr (.inl h)))
    · obtain ⟨t, ht, hstarts⟩ := hprinted.first
      exact ⟨t, head?_append_of_eq_some ht, hstarts⟩
  | subscript pointer index ihp ihi =>
    rw [Expression.isWellFormed, Bool.and_eq_true] at hwf
    rw [Expression.contains, Bool.or_eq_false_iff, Bool.or_eq_false_iff, imp_and, imp_and] at hglue
    have hindex := (ihi hwf.2 hglue.2.2).parenthesize .comma index.precedence
    rw [emitBody]
    refine ((ihp hwf.1 hglue.2.1).parenthesize _ _).append_cons rfl
      (allValid_cons_token.mpr ⟨rfl, allValid_append.mpr ⟨hindex.valid,
        allValid_cons_token.mpr ⟨rfl, allValid_nil⟩⟩⟩)
      ((spaced_append_cons rfl).mpr ⟨hindex.spaced, spaced_nil⟩)
      ⟨.punctuator .rightBracket, ?_, rfl⟩
    exact getLast?_cons_of_eq_some (getLast?_append_of_eq_some rfl)
  | call function arguments ihf ih =>
    rw [Expression.isWellFormed, Bool.and_eq_true, Expression.areWellFormed_eq_all,
      List.all_eq_true] at hwf
    rw [Expression.contains, Bool.or_eq_false_iff, Bool.or_eq_false_iff,
      Expression.anyContains_eq_any, List.any_eq_false, imp_and, imp_and] at hglue
    obtain ⟨hvalid, hspaced, -⟩ := printed_operands (fun e he => ih e he (hwf.2 e he)
      fun hnot => Bool.eq_false_iff.mpr (hglue.2.2 hnot e he)) true
    rw [emitBody]
    refine ((ihf hwf.1 hglue.2.1).parenthesize _ _).append_cons rfl
      (allValid_cons_token.mpr ⟨rfl, allValid_append.mpr ⟨hvalid,
        allValid_cons_token.mpr ⟨rfl, allValid_nil⟩⟩⟩)
      ((spaced_append_cons rfl).mpr ⟨hspaced, spaced_nil⟩)
      ⟨.punctuator .rightParenthesis, ?_, rfl⟩
    exact getLast?_cons_of_eq_some (getLast?_append_of_eq_some rfl)
  | postfixOp op operand ih =>
    rw [Expression.isWellFormed, Bool.and_eq_true] at hwf
    rw [Expression.contains, Bool.or_eq_false_iff, imp_and] at hglue
    have hprinted := (ih hwf.1 hglue.2).parenthesize .unaryPostfix operand.precedence
    obtain ⟨last, hlast, hends⟩ := hprinted.last
    rw [emitBody]
    refine ⟨allValid_append.mpr ⟨hprinted.valid, allValid_cons_token.mpr ⟨rfl, allValid_nil⟩⟩,
      hprinted.spaced.append spaced_singleton fun q hq r hr => ?_, ?_,
      ⟨.punctuator op.getOperator, getLast?_append_of_eq_some rfl, ?_⟩⟩
    · rw [hlast, Option.mem_some_iff] at hq
      cases hr
      subst hq
      refine .inl (mayPrecede_of_endsExpression hends (isNumber_parenthesize (by decide)
        (isImmediate_of_isLvalue hwf.2) hlast) ?_)
      cases op with
      | postIncrement => exact .inr (.inr (.inl rfl))
      | postDecrement => exact .inr (.inr (.inr rfl))
    · obtain ⟨t, ht, hstarts⟩ := hprinted.first
      exact ⟨t, head?_append_of_eq_some ht, hstarts⟩
    · cases op <;> rfl
  | implicitCast value ih =>
    rw [Expression.contains, Bool.or_eq_false_iff, imp_and] at hglue
    rw [Expression.emitBody_implicitCast]
    exact ih hwf hglue.2
  | bitCast type value ih =>
    rw [Expression.isWellFormed, Bool.and_eq_true] at hwf
    rw [Expression.contains, Bool.or_eq_false_iff, imp_and] at hglue
    have hvalue := (ih hwf.2 hglue.2).parenthesize .parentheses value.precedence
    exact Printed.callType hwf.1 (by decide) (isType_macros (by decide))
      (allValid_cons_space.mpr hvalue.valid) ((spaced_cons rfl).mpr hvalue.spaced)
  | cast type value ih =>
    rw [Expression.isWellFormed, Bool.and_eq_true] at hwf
    rw [Expression.contains, Bool.or_eq_false_iff, imp_and] at hglue
    exact Printed.cast hwf.1 ((ih hwf.2 hglue.2).parenthesize _ _)
  | prefixOp op operand ih =>
    rw [Expression.isWellFormed, Bool.and_eq_true, Bool.or_eq_true, Bool.not_eq_true'] at hwf
    rw [Expression.contains, Bool.or_eq_false_iff, imp_and] at hglue
    refine printed_prefixOp (ih hwf.1 hglue.2) (fun htakes => ?_) hglue.1
    rcases hwf.2 with hnot | hlvalue
    · rw [htakes] at hnot
      cases hnot
    · exact hlvalue
  | infixOp op lhs rhs ihl ihr =>
    simp only [Expression.isWellFormed, Bool.and_eq_true] at hwf
    rw [Expression.contains, Bool.or_eq_false_iff, Bool.or_eq_false_iff, imp_and, imp_and] at hglue
    have hlhs := ihl hwf.1.1 hglue.2.1
    have hrhs := ihr hwf.1.2 hglue.2.2
    rw [emitBody]
    by_cases hcomma : op = .comma
    · rw [if_pos hcomma, List.nil_append, hcomma]
      have hprinted := hrhs.parenthesize (if InfixOperation.comma.precedence = .assignment then
        InfixOperation.comma.precedence.decrementPrecedence else InfixOperation.comma.precedence)
        rhs.precedence
      obtain ⟨t, ht, hends⟩ := hprinted.last
      exact (hlhs.parenthesize _ _).append_cons rfl (allValid_cons_token.mpr ⟨rfl,
        allValid_cons_space.mpr hprinted.valid⟩) ((spaced_cons rfl).mpr hprinted.spaced)
        ⟨t, getLast?_cons_of_eq_some (getLast?_cons_of_eq_some ht), hends⟩
    · rw [if_neg hcomma]
      exact (hlhs.parenthesize _ _).between (hrhs.parenthesize _ _) op.getOperator
  | ternary condition lhs rhs ihc ihl ihr =>
    rw [Expression.isWellFormed, Bool.and_eq_true, Bool.and_eq_true] at hwf
    rw [Expression.contains, Bool.or_eq_false_iff, Bool.or_eq_false_iff, Bool.or_eq_false_iff,
      imp_and, imp_and, imp_and] at hglue
    have hcondition := (ihc hwf.1.1 hglue.2.1.1).parenthesize .ternary condition.precedence
    have hlhs := (ihl hwf.1.2 hglue.2.1.2).parenthesize .ternary lhs.precedence
    have hrhs := (ihr hwf.2 hglue.2.2).parenthesize (.decrementPrecedence .ternary)
      rhs.precedence
    exact hcondition.between (hlhs.between hrhs .colon) .question
  | intrinsicImmediate type literal =>
    exact Printed.callType hwf (validateIdentifier_intrinsic (by decide))
      (names.isType_intrinsic _) (allValid_cons_token.mpr
        ⟨isValid_emitIntegerLiteral literal, allValid_nil⟩) spaced_singleton
  | intrinsicCast operation type value ih =>
    rw [Expression.isWellFormed, Bool.and_eq_true, Bool.and_eq_true] at hwf
    rw [Expression.contains, Bool.or_eq_false_iff, imp_and] at hglue
    have hvalue := (ih hwf.2 hglue.2).parenthesize .primary value.precedence
    exact Printed.callType hwf.1.2 (validateIdentifier_intrinsic hwf.1.1)
      (names.isType_intrinsic _) hvalue.valid hvalue.spaced
  | usualIntrinsic operation operands ih =>
    rw [Expression.isWellFormed, Bool.and_eq_true, Expression.areWellFormed_eq_all] at hwf
    obtain ⟨hoperation, hoperands⟩ := hwf
    rw [List.all_eq_true] at hoperands
    rw [Expression.contains, Bool.or_eq_false_iff, Expression.anyContains_eq_any,
      List.any_eq_false, imp_and] at hglue
    obtain ⟨hvalid, hspaced, -⟩ := printed_operands (fun e he => ih e he (hoperands e he)
      fun hnot => Bool.eq_false_iff.mpr (hglue.2 hnot e he)) true
    exact Printed.call (validateIdentifier_intrinsic hoperation) (names.isType_intrinsic _)
      hvalid hspaced

/-- Whatever is printed, only a minus can be read together with the token after it. -/
theorem printed_touching (hwf : e.isWellFormed names = true) :
    Printed names true (emitBody e) := printed hwf nofun

/-- The text of an expression is cut into the tokens it is emitted as. -/
theorem lex_emitExpression (hwf : e.isWellFormed names = true)
    (hglue : e.contains Expression.gluesMinus = false) (current : OperatorPrecedence) :
    lex (spell (emitExpression current e)) = some (tokens (emitExpression current e)) :=
  have hprinted := (printed hwf fun _ => hglue).parenthesize current e.precedence
  lex_spell hprinted.valid hprinted.spaced.spaced

end CliftEmitC
