import Revng.CliftEmitC.Jams

/-!
# Ternary expressions that end in an assignment

Such an expression jams, and so does every expression that contains one (`jamsBody`).
-/

namespace CliftEmitC

/-- The tokens of an expression are not read to their end, neither at the level of the expression
nor as arguments of a macro. -/
structure JamsBody (names : TypeNames) (e : Expression) : Prop where
  printed : Printed names true (emitBody e)
  jams : names.JamsAs e.level (tokens (emitBody e))
  arguments : names.NoArguments .rightParenthesis (tokens (emitBody e))

namespace JamsBody

variable {names : TypeNames} {e : Expression}

theorem of_jams (hprinted : Printed names true (emitBody e))
    (hjams : names.JamsAs e.level (tokens (emitBody e))) (hlevel : 2 ≤ e.level) :
    JamsBody names e :=
  ⟨hprinted, hjams, TypeNames.noArguments_of_jams (by decide) (hjams.lower hlevel e.level_pos.2)
    hprinted.startsType⟩

theorem parenthesize (h : JamsBody names e) (current : OperatorPrecedence) {n : Nat} (hn : n ≤ 15)
    (hlevel : current.toNat < e.precedence.toNat ∨ e.precedence = .primary → n ≤ e.level) :
    names.JamsAs n (tokens (parenthesize current e.precedence (emitBody e))) := by
  rcases parenthesize_cases current e.precedence (emitBody e) with ⟨-, heq⟩ | ⟨hown, heq⟩
  · rw [heq, tokens_token, tokens_append]
    exact (TypeNames.jams_parentheses (h.jams.lower e.level_pos.1 e.level_pos.2)
      h.printed.startsType).lower hn (Nat.le_refl _)
  · rw [heq]
    exact h.jams.lower (hlevel hown) e.level_pos.2

theorem operand (h : JamsBody names e) (current : OperatorPrecedence) {n : Nat}
    (hn : n ≤ current.operandLevel) :
    names.JamsAs n (tokens (CliftEmitC.parenthesize current e.precedence (emitBody e))) :=
  h.parenthesize current (hn.trans current.operandLevel_le) fun hcurrent =>
    hn.trans (e.le_level hcurrent)

/-- An operand in a list. -/
theorem noArguments (h : JamsBody names e) {closing : Punctuator} (hclosing : closing ≠ .equals) :
    names.NoArguments closing
      (tokens (CliftEmitC.parenthesize .comma e.precedence (emitBody e))) :=
  TypeNames.noArguments_of_jams hclosing (h.operand .comma (n := 2) (by decide))
    (h.printed.parenthesize _ _).startsType

end JamsBody

section Operands

variable {names : TypeNames} {closing : Punctuator}
  (hclosing : closing = .rightParenthesis ∨ closing = .rightBrace)
include hclosing

/-- A list of operands is not read when one of them jams. -/
theorem noArguments_operands {es : List Expression}
    (h : ∀ e ∈ es, ReadsBody names e ∨ JamsBody names e) (hjams : ∃ e ∈ es, JamsBody names e) :
    names.NoArguments closing (tokens (emitOperands true es)) := by
  have hne : closing ≠ .equals := by
    rcases hclosing with rfl | rfl <;> decide
  induction es with
  | nil =>
    obtain ⟨e, he, -⟩ := hjams
    cases he
  | cons e es ih =>
    rcases h e List.mem_cons_self with hreads | hfirst
    · -- The operands up to the one that jams are read.
      cases es with
      | nil =>
        obtain ⟨e', he', hlast⟩ := hjams
        cases List.mem_singleton.mp he'
        have hnone := hlast.noArguments hne
        simpa only [emitOperands, if_true, List.nil_append, List.append_nil] using hnone
      | cons e' es =>
        have hargument := hreads.readsArgument hclosing
        by_cases hlater : ∃ e'' ∈ e' :: es, JamsBody names e''
        · have hnone := TypeNames.noArguments_cons hargument
            (ih (fun e'' he => h e'' (List.mem_cons_of_mem _ he)) hlater)
          simpa only [emitOperands, if_true, List.nil_append, tokens_append,
            Bool.false_eq_true, if_false, List.cons_append, tokens_token, tokens_space]
            using hnone
        · obtain ⟨e'', he, hjam⟩ := hjams
          rcases List.mem_cons.mp he with rfl | he
          · have hnone := (hjam.noArguments hne).append
              (tokens (emitOperands false (e' :: es)))
            simpa only [emitOperands, if_true, List.nil_append, tokens_append] using hnone
          · exact absurd ⟨e'', he, hjam⟩ hlater
    · have hnone := (hfirst.noArguments hne).append (tokens (emitOperands false es))
      simpa only [emitOperands, if_true, List.nil_append, tokens_append] using hnone

end Operands

/-! ## Every expression that contains one -/

open Expression

variable {names : TypeNames}

variable {e : Expression}

/-- The tokens of an expression are read, so those after them jam. -/
theorem noArguments_of_readsBody (h : ReadsBody names e) (hlevel : 2 ≤ e.level) {more : List Token}
    (hmore : names.NoArguments .rightParenthesis more) :
    names.NoArguments .rightParenthesis (tokens (emitBody e) ++ .punctuator .comma :: more) :=
  TypeNames.noArguments_cons (TypeNames.readsArgument (.inl rfl)
    (h.reads.lower hlevel e.level_pos.2) h.printed.startsType) hmore

/-- A comma expression is several arguments. -/
theorem noArguments_comma (hwf : e.isWellFormed names = true)
    (hternary : e.contains assignsInTernary = false) {more : List Token}
    (hmore : names.NoArguments .rightParenthesis more) :
    names.NoArguments .rightParenthesis (tokens (emitBody e) ++ .punctuator .comma :: more) := by
  have hbody := readsBody hwf hternary
  induction e using Expression.induction generalizing more with
  | implicitCast value ih =>
    rw [contains, Bool.or_eq_false_iff] at hternary
    rw [emitBody_implicitCast]
    exact ih hwf hternary.2 hmore (readsBody hwf hternary.2)
  | infixOp op lhs rhs ihl ihr =>
    by_cases hcomma : op = .comma
    · subst hcomma
      simp only [isWellFormed, Bool.and_eq_true] at hwf
      rw [contains, Bool.or_eq_false_iff, Bool.or_eq_false_iff] at hternary
      have hlhs := readsBody hwf.1.1 hternary.2.1
      have hrhs := readsBody hwf.1.2 hternary.2.2
      have hright := TypeNames.noArguments_cons (hrhs.readsArgument (.inl rfl)) hmore
      rw [tokens_emitBody_comma, List.append_assoc, List.cons_append]
      exact ihl hwf.1.1 hternary.2.1 hright hlhs
    · refine noArguments_of_readsBody hbody ?_ hmore
      show 2 ≤ op.level
      cases op <;> first | decide | exact absurd rfl hcomma
  | ternary => exact noArguments_of_readsBody hbody (show 2 ≤ 3 by decide) hmore
  | cast | prefixOp => exact noArguments_of_readsBody hbody (show 2 ≤ 14 by decide) hmore
  | _ => exact noArguments_of_readsBody hbody (show 2 ≤ 15 by decide) hmore

variable {lhs rhs : Expression}

/-- An operator between two operands, one of which jams. -/
theorem jamsBody_infixOp {op : InfixOperation}
    (hwf : (Expression.infixOp op lhs rhs).isWellFormed names = true)
    (h : JamsBody names lhs ∨ lhs.contains assignsInTernary = false ∧ JamsBody names rhs) :
    JamsBody names (.infixOp op lhs rhs) := by
  have hprinted := printed_touching hwf
  simp only [isWellFormed, Bool.and_eq_true, Bool.or_eq_true] at hwf
  have hspace : tokens (if op = .comma then [] else [Piece.space]) = [] := by
    split <;> rfl
  have hjams : names.JamsAs op.level (tokens (emitBody (.infixOp op lhs rhs))) := by
    simp only [emitBody, tokens_append, hspace, tokens_token, tokens_space, List.nil_append]
    by_cases hassign : op = .assign
    · subst hassign
      rcases h with hlhs | ⟨hternary, hrhs⟩
      · have hl := hlhs.operand .assignment (n := 3) (by decide)
        exact (hl.lower (by decide) (by decide)).append _
      · obtain ⟨isUnary, hl, hunary⟩ := (readsBody hwf.1.1 hternary).operand
          .assignment (n := 3) (by decide)
        have hlvalue : lhs.isLvalue = true := hwf.2.resolve_left (by simp)
        have hisUnary : isUnary = true := hunary
          ((isUnary_of_isLvalue hlvalue).imp_right fun hle => ⟨hle, by decide⟩)
        subst hisUnary
        exact TypeNames.jams_assign hl (hrhs.operand .comma (n := 2) (by decide))
    · have hprecedence : op.precedence ≠ .assignment := by
        cases op with
        | assign => exact absurd rfl hassign
        | _ => decide
      have hlevel : op.level ≤ op.precedence.decrementPrecedence.operandLevel := by
        cases op <;> decide
      rw [if_neg hprecedence, if_neg hprecedence]
      rcases h with hlhs | ⟨hternary, hrhs⟩
      · exact (hlhs.operand op.precedence.decrementPrecedence hlevel).append _
      · obtain ⟨_, hl, -⟩ := (readsBody hwf.1.1 hternary).operand
          op.precedence.decrementPrecedence hlevel
        refine TypeNames.jams_infixOp (InfixOperation.infixLevel_getOperator hassign) hl
          (hrhs.operand op.precedence (n := op.level + 1) ?_)
        cases op <;> decide
  by_cases hcomma : op = .comma
  · subst hcomma
    refine ⟨hprinted, hjams, ?_⟩
    rw [tokens_emitBody_comma]
    rcases h with hlhs | ⟨hternary, hrhs⟩
    · exact hlhs.arguments.append _
    · exact noArguments_comma hwf.1.1 hternary (hrhs.noArguments (by decide))
  · refine .of_jams hprinted hjams ?_
    show 2 ≤ op.level
    cases op <;> first | decide | exact absurd rfl hcomma

/-- An assignment is read at level 3 up to its `=`. -/
theorem head?_of_assign (hwf : (Expression.infixOp .assign lhs rhs).isWellFormed names = true)
    (hjams : lhs.contains assignsInTernary = true → JamsBody names lhs) (rest : List Token)
    (x : CTree × Bool × List Token) (hx : Yields (fun k => names.parseLevel k 3
      (tokens (emitBody (.infixOp .assign lhs rhs)) ++ rest)) x) :
    x.2.2.head? = some (.punctuator .equals) := by
  simp only [isWellFormed, Bool.and_eq_true] at hwf
  simp only [emitBody, tokens_append, tokens_token, tokens_space, List.append_assoc] at hx
  cases hternary : lhs.contains assignsInTernary with
  | true =>
    have hl := (hjams hternary).operand .assignment (n := 3) (by decide)
    exact (hl.jams _ x hx).2.2
  | false =>
    obtain ⟨isUnary, hl, -⟩ := (readsBody hwf.1.1 hternary).operand
      .assignment (n := 3) (by decide)
    have hread := hl.yields_before (p := .equals) (fun m hm => by
      cases hm
      decide) (tokens (parenthesize .comma rhs.precedence (emitBody rhs)) ++ rest)
    rw [← hread.unique hx]
    rfl

theorem precedence_of_isInfix {op : InfixOperation} (h : e.unwrapImplicitCasts.isInfix op = true) :
    e.precedence = op.precedence := by
  rw [← precedence_unwrapImplicitCasts]
  cases hunwrap : e.unwrapImplicitCasts with
  | infixOp op' lhs rhs =>
    rw [hunwrap, isInfix, decide_eq_true_eq] at h
    rw [precedence, h]
  | _ =>
    rw [hunwrap] at h
    cases h

/-- What is known of an expression when some ternary expression ends in an assignment. -/
structure Stops (names : TypeNames) (e : Expression) : Prop where
  body : e.contains assignsInTernary = true → JamsBody names e
  assign : e.unwrapImplicitCasts.isInfix .assign = true →
    ∀ rest x, Yields (fun k => names.parseLevel k 3 (tokens (emitBody e) ++ rest)) x →
      x.2.2.head? = some (.punctuator .equals)

/-- Only an assignment, perhaps in implicit casts, is read up to its `=`. -/
theorem Stops.of_jams (hwf : e.isWellFormed names = true)
    (hassign : e.unwrapImplicitCasts.isInfix .assign = false) (hlevel : 2 ≤ e.level)
    (h : e.contains assignsInTernary = true → names.JamsAs e.level (tokens (emitBody e))) :
    Stops names e :=
  ⟨fun hcontains => .of_jams (printed_touching hwf) (h hcontains) hlevel,
    fun hassign' => absurd (hassign.symm.trans hassign') Bool.false_ne_true⟩

theorem jamsBody_ternary {condition : Expression}
    (hwf : (Expression.ternary condition lhs rhs).isWellFormed names = true)
    (hcondition : Stops names condition) (hlhs : Stops names lhs) (hrhs : Stops names rhs)
    (h : (Expression.ternary condition lhs rhs).contains assignsInTernary = true) :
    JamsBody names (.ternary condition lhs rhs) := by
  refine .of_jams (printed_touching hwf) ?_ (show 2 ≤ 3 by decide)
  rw [isWellFormed, Bool.and_eq_true, Bool.and_eq_true] at hwf
  show names.JamsAs 3 _
  simp only [emitBody, tokens_token, tokens_space, tokens_append]
  cases hfirst : condition.contains assignsInTernary with
  | true =>
    exact (((hcondition.body hfirst).operand .ternary (n := 4) (by decide)).lower (by decide)
        (by decide)).append _
  | false =>
    obtain ⟨_, hreads, -⟩ := (readsBody hwf.1.1 hfirst).operand .ternary (n := 4) (by decide)
    cases hsecond : lhs.contains assignsInTernary with
    | true =>
      exact TypeNames.jams_ternary_lhs hreads ((hlhs.body hsecond).operand .ternary
        (n := 1) (by decide)) _
    | false =>
      obtain ⟨_, hreadsLhs, -⟩ := (readsBody hwf.1.2 hsecond).operand
        .ternary (n := 1) (by decide)
      refine TypeNames.jams_ternary_rhs hreads hreadsLhs fun rest x hx => ?_
      cases hassign : rhs.unwrapImplicitCasts.isInfix .assign with
      | true =>
        -- An assignment gets no parentheses here.
        have hprecedence := precedence_of_isInfix hassign
        rw [hprecedence] at hx
        exact hrhs.assign hassign rest x hx
      | false =>
        have hthird : rhs.contains assignsInTernary = true := by
          simpa [contains, hfirst, hsecond, assignsInTernary, hassign] using h
        exact (((hrhs.body hthird).parenthesize (.decrementPrecedence .ternary) (n := 3)
          (by decide) fun hcurrent => three_le_level hcurrent hassign).jams rest x hx).2.2

/-- An expression that contains a ternary expression that ends in an assignment jams. -/
theorem stops (hwf : e.isWellFormed names = true) : Stops names e := by
  have hoperands {es : List Expression} (hes : es.all (isWellFormed names) = true)
      (ih : ∀ e ∈ es, e.isWellFormed names = true → Stops names e)
      (h : anyContains assignsInTernary es = true) {closing : Punctuator}
      (hclosing : closing = .rightParenthesis ∨ closing = .rightBrace) :
      names.NoArguments closing (tokens (emitOperands true es)) ∧
        ∀ rest, (tokens (emitOperands true es) ++ rest).head? ≠ some (.punctuator closing) := by
    rw [List.all_eq_true] at hes
    rw [anyContains_eq_any, List.any_eq_true] at h
    refine ⟨noArguments_operands hclosing (fun e he => ?_) ?_,
      head?_emitOperands_ne hclosing ?_ fun e he => printed_touching (hes e he)⟩
    · cases hcontains : e.contains assignsInTernary with
      | true => exact .inr ((ih e he (hes e he)).body hcontains)
      | false => exact .inl (readsBody (hes e he) hcontains)
    · obtain ⟨e, he, hcontains⟩ := h
      exact ⟨e, he, (ih e he (hes e he)).body hcontains⟩
    · rintro rfl
      obtain ⟨e, he, -⟩ := h
      cases he
  induction e using Expression.induction with
  | identifier | enumerator | immediate | boolean | null | string | undef | intrinsicImmediate =>
    exact ⟨nofun, nofun⟩
  | aggregate type initializers ih =>
    refine .of_jams hwf rfl (show 2 ≤ 15 by decide) fun h => ?_
    rw [isWellFormed, Bool.and_eq_true, areWellFormed_eq_all] at hwf
    obtain ⟨hnone, hne⟩ := hoperands hwf.2 ih (by simpa [contains, assignsInTernary]
      using h) (.inr rfl)
    simp only [emitBody, tokens_token, tokens_append]
    exact TypeNames.jams_compound hwf.1 hnone hne _
  | access isIndirect value field ih =>
    refine .of_jams hwf rfl (show 2 ≤ 15 by decide) fun h => ?_
    rw [isWellFormed, Bool.and_eq_true, Bool.and_eq_true] at hwf
    have hvalue := (ih hwf.1.1).body (by simpa [contains, assignsInTernary] using h)
    simp only [emitBody, tokens_append]
    exact (hvalue.operand (.decrementPrecedence .unaryPostfix) (n := 15) (by decide)).append _
  | subscript pointer index ihp ihi =>
    refine .of_jams hwf rfl (show 2 ≤ 15 by decide) fun h => ?_
    rw [isWellFormed, Bool.and_eq_true] at hwf
    simp only [emitBody, tokens_token, tokens_append]
    cases hpointer : pointer.contains assignsInTernary with
    | true =>
      exact (((ihp hwf.1).body hpointer).operand
        (.decrementPrecedence .unaryPostfix) (n := 15) (by decide)).append _
    | false =>
      have hindex := (ihi hwf.2).body (by
        simpa [contains, assignsInTernary, hpointer] using h)
      obtain ⟨_, hreads, -⟩ := (readsBody hwf.1 hpointer).operand
        (.decrementPrecedence .unaryPostfix) (n := 15) (by decide)
      exact TypeNames.jams_subscript hreads (hindex.operand .comma (n := 1) (by decide)) _
  | call function arguments ihf ih =>
    refine .of_jams hwf rfl (show 2 ≤ 15 by decide) fun h => ?_
    rw [isWellFormed, Bool.and_eq_true, areWellFormed_eq_all] at hwf
    simp only [emitBody, tokens_token, tokens_append]
    cases hfunction : function.contains assignsInTernary with
    | true =>
      exact (((ihf hwf.1).body hfunction).operand
        (.decrementPrecedence .unaryPostfix) (n := 15) (by decide)).append _
    | false =>
      obtain ⟨hnone, hne⟩ := hoperands hwf.2 ih (by
        simpa [contains, assignsInTernary, hfunction] using h) (.inl rfl)
      obtain ⟨_, hreads, -⟩ := (readsBody hwf.1 hfunction).operand
        (.decrementPrecedence .unaryPostfix) (n := 15) (by decide)
      exact TypeNames.jams_call hreads hnone hne _
  | postfixOp op operand ih =>
    refine .of_jams hwf rfl (show 2 ≤ 15 by decide) fun h => ?_
    rw [isWellFormed, Bool.and_eq_true] at hwf
    have hoperand := (ih hwf.1).body (by simpa [contains, assignsInTernary] using h)
    simp only [emitBody, tokens_append]
    exact (hoperand.operand .unaryPostfix (n := 15) (by decide)).append _
  | implicitCast value ih =>
    have hprinted := printed_touching hwf
    obtain ⟨hbody, hassign⟩ := ih hwf
    refine ⟨fun h => ?_, ?_⟩
    · obtain ⟨-, hjams, harguments⟩ := hbody (by simpa [contains, assignsInTernary] using h)
      refine ⟨hprinted, ?_, ?_⟩
      · rw [emitBody_implicitCast]
        exact hjams
      · rw [emitBody_implicitCast]
        exact harguments
    · rw [emitBody_implicitCast]
      exact hassign
  | bitCast type value ih =>
    refine .of_jams hwf rfl (show 2 ≤ 15 by decide) fun h => ?_
    rw [isWellFormed, Bool.and_eq_true] at hwf
    have hvalue := (ih hwf.2).body (by simpa [contains, assignsInTernary] using h)
    simp only [emitBody, value.parenthesize_parentheses, tokens_token, tokens_space,
      tokens_append]
    exact TypeNames.jams_macro hwf.1 _ hvalue.arguments _
  | cast type value ih =>
    refine .of_jams hwf rfl (show 2 ≤ 14 by decide) fun h => ?_
    rw [isWellFormed, Bool.and_eq_true] at hwf
    have hvalue := (ih hwf.2).body (by simpa [contains, assignsInTernary] using h)
    simp only [emitBody, tokens_token, tokens_space, tokens_append]
    exact TypeNames.jams_cast hwf.1 (hvalue.operand (.decrementPrecedence .unaryPrefix)
      (n := 14) (by decide))
      ((hvalue.printed.parenthesize _ _).head?_ne rfl)
  | prefixOp op operand ih =>
    refine .of_jams hwf rfl (show 2 ≤ 14 by decide) fun h => ?_
    rw [isWellFormed, Bool.and_eq_true] at hwf
    have hoperand := (ih hwf.1).body (by simpa [contains, assignsInTernary] using h)
    have hspace : tokens (if op = .neg ∧ operand.isNegation then [Piece.space] else []) = [] := by
      split <;> rfl
    simp only [emitBody, tokens_token, tokens_append, hspace, List.nil_append]
    refine TypeNames.jams_prefixOp (hoperand.operand (.decrementPrecedence .unaryPrefix)
      (n := 14) (by decide)) ?_
    cases op <;> rfl
  | infixOp op lhs rhs ihl ihr =>
    have hwf' := hwf
    simp only [isWellFormed, Bool.and_eq_true] at hwf'
    have hlhs := ihl hwf'.1.1
    refine ⟨fun h => jamsBody_infixOp hwf ?_, fun hassign => ?_⟩
    · cases hfirst : lhs.contains assignsInTernary with
      | true => exact .inl (hlhs.body hfirst)
      | false =>
        exact .inr ⟨rfl, (ihr hwf'.1.2).body (by
          simpa [contains, assignsInTernary, hfirst] using h)⟩
    · have hop : op = .assign := of_decide_eq_true hassign
      subst hop
      exact head?_of_assign hwf hlhs.body
  | ternary condition lhs rhs ihc ihl ihr =>
    have hwf' := hwf
    rw [isWellFormed, Bool.and_eq_true, Bool.and_eq_true] at hwf'
    exact ⟨jamsBody_ternary hwf (ihc hwf'.1.1) (ihl hwf'.1.2)
      (ihr hwf'.2), fun h => absurd h Bool.false_ne_true⟩
  | intrinsicCast operation type value ih =>
    refine .of_jams hwf rfl (show 2 ≤ 15 by decide) fun h => ?_
    rw [isWellFormed, Bool.and_eq_true, Bool.and_eq_true] at hwf
    have hvalue := (ih hwf.2).body (by simpa [contains, assignsInTernary] using h)
    have hjams := hvalue.operand .primary (n := 2) (by decide)
    simp only [emitBody, emitIntrinsicMacro, tokens_token, tokens_append]
    exact TypeNames.jams_macro hwf.1.2 _ (TypeNames.noArguments_of_jams (by decide) hjams
      (hvalue.printed.parenthesize _ _).startsType) _
  | usualIntrinsic operation operands ih =>
    refine .of_jams hwf rfl (show 2 ≤ 15 by decide) fun h => ?_
    rw [isWellFormed, Bool.and_eq_true, areWellFormed_eq_all] at hwf
    obtain ⟨hnone, hne⟩ := hoperands hwf.2 ih (by simpa [contains, assignsInTernary]
      using h) (.inl rfl)
    simp only [emitBody, emitIntrinsicMacro, tokens_token, tokens_append]
    exact TypeNames.jams_call (TypeNames.reads_word _) hnone hne _

end CliftEmitC
