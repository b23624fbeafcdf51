import Revng.CliftEmitC.EmittedTokens
import Revng.CliftEmitC.Reading

/-!
# Reading an expression back

The tree that an expression stands for (`tree`), and the tree that the grammar of C gives for the
tokens it is emitted as (`readTree`).  They are the same but for the operand of a bit cast: the
macro takes a comma expression for several arguments.

The grammar gives a tree when no ternary expression ends in an assignment
(`reads_emitBody`).
-/

namespace CliftEmitC

/-! ## Trees of expressions -/

/-- The arguments that an expression is taken for when it is not in parentheses. -/
def CTree.splitComma : CTree → List CTree
  | .infixOp .comma lhs rhs => splitComma lhs ++ [rhs]
  | tree => [tree]

namespace Expression

mutual

/-- The tree that an expression stands for.  An implicit cast is not seen. -/
def tree : Expression → CTree
  | identifier name | enumerator name => .word name
  | immediate literal => .number (emitIntegerLiteral literal)
  | boolean value => .word (if value then "true".toList else "false".toList)
  | null => .word "NULL".toList
  | string contents => .string contents
  | undef type => .call (.word "undef".toList) [.typeName (tokens (emitType type))]
  | aggregate type initializers => .compound (tokens (emitType type)) (trees initializers)
  | access isIndirect value field => .member (if isIndirect then .arrow else .dot) (tree value) field
  | subscript pointer index => .subscript (tree pointer) (tree index)
  | call function arguments => .call (tree function) (trees arguments)
  | postfixOp op operand => .postfixOp op.getOperator (tree operand)
  | implicitCast value => tree value
  | bitCast type value =>
      .call (.word "bit_cast".toList) [.typeName (tokens (emitType type)), tree value]
  | cast type value => .cast (tokens (emitType type)) (tree value)
  | prefixOp op operand => .prefixOp op.getOperator (tree operand)
  | infixOp op lhs rhs => .infixOp op.getOperator (tree lhs) (tree rhs)
  | ternary condition lhs rhs => .ternary (tree condition) (tree lhs) (tree rhs)
  | intrinsicImmediate type literal =>
      .call (.word ("rr_".toList ++ "imm".toList))
        [.typeName (tokens (emitType type)), .number (emitIntegerLiteral literal)]
  | intrinsicCast operation type value =>
      .call (.word ("rr_".toList ++ operation)) [.typeName (tokens (emitType type)), tree value]
  | usualIntrinsic operation operands => .call (.word ("rr_".toList ++ operation)) (trees operands)

def trees : List Expression → List CTree
  | [] => []
  | e :: es => tree e :: trees es

end

mutual

/-- The tree that the tokens of an expression are read as. -/
def readTree : Expression → CTree
  | identifier name | enumerator name => .word name
  | immediate literal => .number (emitIntegerLiteral literal)
  | boolean value => .word (if value then "true".toList else "false".toList)
  | null => .word "NULL".toList
  | string contents => .string contents
  | undef type => .call (.word "undef".toList) [.typeName (tokens (emitType type))]
  | aggregate type initializers => .compound (tokens (emitType type)) (readTrees initializers)
  | access isIndirect value field =>
      .member (if isIndirect then .arrow else .dot) (readTree value) field
  | subscript pointer index => .subscript (readTree pointer) (readTree index)
  | call function arguments => .call (readTree function) (readTrees arguments)
  | postfixOp op operand => .postfixOp op.getOperator (readTree operand)
  | implicitCast value => readTree value
  | bitCast type value =>
      .call (.word "bit_cast".toList)
        (.typeName (tokens (emitType type)) :: (readTree value).splitComma)
  | cast type value => .cast (tokens (emitType type)) (readTree value)
  | prefixOp op operand => .prefixOp op.getOperator (readTree operand)
  | infixOp op lhs rhs => .infixOp op.getOperator (readTree lhs) (readTree rhs)
  | ternary condition lhs rhs => .ternary (readTree condition) (readTree lhs) (readTree rhs)
  | intrinsicImmediate type literal =>
      .call (.word ("rr_".toList ++ "imm".toList))
        [.typeName (tokens (emitType type)), .number (emitIntegerLiteral literal)]
  | intrinsicCast operation type value =>
      .call (.word ("rr_".toList ++ operation))
        [.typeName (tokens (emitType type)), readTree value]
  | usualIntrinsic operation operands =>
      .call (.word ("rr_".toList ++ operation)) (readTrees operands)

def readTrees : List Expression → List CTree
  | [] => []
  | e :: es => readTree e :: readTrees es

end

theorem trees_eq_map (es : List Expression) : trees es = es.map tree := by
  induction es with
  | nil => rfl
  | cons e es ih => rw [trees, ih, List.map_cons]

theorem readTrees_eq_map (es : List Expression) : readTrees es = es.map readTree := by
  induction es with
  | nil => rfl
  | cons e es ih => rw [readTrees, ih, List.map_cons]

end Expression

/-! ## Tokens of pieces -/

@[simp] theorem tokens_append (ps qs : List Piece) : tokens (ps ++ qs) = tokens ps ++ tokens qs :=
  List.filterMap_append

@[simp] theorem tokens_token (t : Token) (ps : List Piece) :
    tokens (.token t :: ps) = t :: tokens ps := rfl

@[simp] theorem tokens_space (ps : List Piece) : tokens (.space :: ps) = tokens ps := rfl

@[simp] theorem tokens_nil : tokens [] = [] := rfl

/-! ## Types -/

namespace CType

/-- How many parentheses are open at the place of a name. -/
def depth (isPointee : Bool) : CType → Nat
  | named _ _ => 0
  | pointer _ pointee => depth true pointee
  | foreignPointer _ _ _ => 0
  | array element _ => depth false element + if isPointee then 1 else 0

end CType

namespace TypeNames

variable {names : TypeNames}

theorem spans_constPieces (isConst : Bool) (d : Nat) : Spans d (tokens (constPieces isConst)) d := by
  cases isConst with
  | false => exact spans_nil
  | true => exact spans_word _

theorem spans_emitAfter (isPointee : Bool) (type : CType) (d : Nat) :
    Spans (d + type.depth isPointee) (tokens (emitAfter isPointee type)) d := by
  induction type generalizing isPointee with
  | named isConst name => exact spans_nil
  | pointer isConst pointee ih => exact ih true
  | foreignPointer isConst size pointee ih => exact spans_nil
  | array element extent ih =>
    have helement : Spans (d + element.depth false) (.punctuator .leftBracket ::
        .number (Numeral.writeDigits 10 extent) :: .punctuator .rightBracket ::
          tokens (emitAfter false element)) d :=
      (spans_punctuator (by decide) (by decide) (by decide)).append ((spans_number _).append
        ((spans_punctuator (by decide) (by decide) (by decide)).append (ih false)))
    cases isPointee with
    | false => exact helement
    | true => exact spans_right.append helement

theorem spans_emitBefore (isPointee : Bool) (type : CType) (d : Nat) :
    Spans d (tokens (emitBefore isPointee type).1) (d + type.depth isPointee) := by
  induction type generalizing isPointee d with
  | named isConst name =>
    rw [emitBefore, tokens_append]
    exact (spans_constPieces isConst d).append (spans_word name)
  | pointer isConst pointee ih =>
    show Spans d (tokens ((emitBefore true pointee).1 ++
      ((if (emitBefore true pointee).2 = true then [Piece.space] else []) ++
        (Piece.punctuator .star :: constPieces isConst)))) _
    have hspace : tokens (if (emitBefore true pointee).2 = true then [Piece.space] else []) = [] := by
      split <;> rfl
    rw [tokens_append, tokens_append, hspace, List.nil_append]
    exact (ih true d).append ((spans_punctuator (by decide) (by decide) (by decide)).append
      (spans_constPieces isConst _))
  | foreignPointer isConst size pointee ih =>
    rw [emitBefore]
    simp only [tokens_append, tokens_token, tokens_nil]
    exact (spans_constPieces isConst d).append ((spans_word _).append (spans_left.append
      ((ih false _).append ((spans_emitAfter false pointee _).append spans_right))))
  | array element extent ih =>
    cases isPointee with
    | false => exact ih false d
    | true =>
      show Spans d (tokens ((emitBefore false element).1 ++
        [Piece.punctuator .leftParenthesis])) _
      rw [tokens_append]
      exact (ih false d).append spans_left

theorem parseTypeName_emitType (type : CType) {p : Punctuator} (hp : p = .comma ∨ p = .rightParenthesis)
    (rest : List Token) :
    parseTypeName 0 (tokens (emitType type) ++ .punctuator p :: rest) =
      (tokens (emitType type), .punctuator p :: rest) := by
  have hspans : Spans 0 (tokens (emitType type)) 0 := by
    rw [emitType, tokens_append]
    exact (spans_emitBefore false type 0).append (spans_emitAfter false type 0)
  have hstop : parseTypeName 0 (.punctuator p :: rest) = ([], .punctuator p :: rest) := by
    rcases hp with rfl | rfl <;> rfl
  rw [hspans, hstop, List.append_nil]

theorem startsType_emitBefore {type : CType} (h : names.isTypeWellNamed type = true)
    (isPointee : Bool) (rest : List Token) :
    names.startsType (tokens (emitBefore isPointee type).1 ++ rest) = true := by
  induction type generalizing isPointee rest with
  | named isConst name =>
    rw [isTypeWellNamed, Bool.and_eq_true] at h
    cases isConst with
    | false => exact h.2
    | true => exact names.isType_const
  | pointer isConst pointee ih =>
    show names.startsType (tokens ((emitBefore true pointee).1 ++ _) ++ rest) = true
    rw [tokens_append, List.append_assoc]
    exact ih h true _
  | foreignPointer isConst size pointee ih =>
    cases isConst with
    | false => exact names.isType_foreignPointer size
    | true => exact names.isType_const
  | array element extent ih =>
    cases isPointee with
    | false => exact ih h false rest
    | true =>
      show names.startsType (tokens ((emitBefore false element).1 ++ _) ++ rest) = true
      rw [tokens_append, List.append_assoc]
      exact ih h false _

theorem startsType_emitType {type : CType} (h : names.isTypeWellNamed type = true)
    (rest : List Token) : names.startsType (tokens (emitType type) ++ rest) = true := by
  rw [emitType, tokens_append, List.append_assoc]
  exact startsType_emitBefore h false _

section Types

variable {type : CType} (htype : names.isTypeWellNamed type = true) {text : List Token}
  {tree : CTree} {isUnary : Bool}
include htype

theorem reads_cast (h : names.ReadsAs 14 text tree isUnary)
    (hbrace : ∀ rest, (text ++ rest).head? ≠ some (.punctuator .leftBrace)) :
    names.ReadsAs 14
      (.punctuator .leftParenthesis :: (tokens (emitType type) ++
        .punctuator .rightParenthesis :: text))
      (.cast (tokens (emitType type)) tree) false := by
  refine reads_fourteen fun rest hquiet => ?_
  have hbelow : Below 14 rest := fun p hp m hm =>
    (hquiet p hp m hm).elim id fun heq => absurd (heq.1 ▸ hm) (continuation_ne_fourteen p)
  refine .of_succ (fun k => ?_) ((h.reads.yields hbelow).bind
    (h := fun (x : CTree × Bool × List Token) _ =>
      some (CTree.cast (tokens (emitType type)) x.1, false, x.2.2)) ⟨0, fun _ _ => rfl⟩)
  rw [List.cons_append, List.append_assoc, List.cons_append, parseUnary,
    startsType_emitType htype, if_pos rfl, parseTypeName_emitType type (.inr rfl)]
  show (if (text ++ rest).head? = some (.punctuator .leftBrace) then _ else _) = _
  rw [if_neg (hbrace rest)]
  rfl

theorem reads_compound {initializers : List Token} {trees : List CTree}
    (hinitializers : ∀ rest, Yields (fun k => names.parseArguments k .rightBrace
      (initializers ++ .punctuator .rightBrace :: rest)) (trees, rest)) :
    names.ReadsAs 15
      (.punctuator .leftParenthesis :: (tokens (emitType type) ++
        .punctuator .rightParenthesis :: .punctuator .leftBrace ::
          (initializers ++ [.punctuator .rightBrace])))
      (.compound (tokens (emitType type)) trees) true := by
  refine reads_primary (fun rest => ?_) fun k rest => ?_
  · refine .of_succ (fun k => ?_) ((hinitializers rest).bind
      (h := fun (x : List CTree × List Token) _ =>
        some (CTree.compound (tokens (emitType type)) x.1, x.2)) ⟨0, fun _ _ => rfl⟩)
    rw [List.cons_append, List.append_assoc, List.cons_append, List.cons_append, List.append_assoc,
      parsePrimary, startsType_emitType htype, if_pos rfl,
      parseTypeName_emitType type (.inr rfl)]
    rfl
  · rw [List.cons_append, List.append_assoc, List.cons_append, List.cons_append, List.append_assoc,
      parseUnary, startsType_emitType htype, if_pos rfl, parseTypeName_emitType type (.inr rfl)]
    rfl

end Types

/-! ## Arguments -/

/-- The tokens are one argument of a list that ends with the bracket. -/
def ReadsArgument (names : TypeNames) (closing : Punctuator) (text : List Token) (tree : CTree) :
    Prop :=
  ∀ p rest, p = .comma ∨ p = closing →
    Yields (fun k => names.parseArgument k (text ++ .punctuator p :: rest))
      (tree, .punctuator p :: rest)

theorem readsArgument_type {type : CType} (htype : names.isTypeWellNamed type = true) :
    names.ReadsArgument .rightParenthesis (tokens (emitType type))
      (.typeName (tokens (emitType type))) := by
  refine fun p rest hp => .of_some fun k => ?_
  rw [parseArgument, startsType_emitType htype, if_pos rfl, parseTypeName_emitType type hp]

section Arguments

variable {closing : Punctuator} (hclosing : closing = .rightParenthesis ∨ closing = .rightBrace)
  {text : List Token} {tree : CTree}
include hclosing

theorem readsArgument {isUnary : Bool} (h : names.ReadsAs 2 text tree isUnary)
    (hstart : ∀ rest, names.startsType (text ++ rest) = false) :
    names.ReadsArgument closing text tree := by
  intro p rest hp
  have hcontinuation : ∀ m, continuation p = some m → m < 2 := by
    intro m hm
    rcases hclosing with rfl | rfl <;> rcases hp with rfl | rfl <;> cases hm <;> decide
  refine .of_succ (fun k => ?_) ((h.yields_before hcontinuation rest).bind
    (h := fun (x : CTree × Bool × List Token) _ => some (x.1, x.2.2)) ⟨0, fun _ _ => rfl⟩)
  rw [parseArgument, hstart, if_neg Bool.false_ne_true]
  rfl

theorem yields_last (h : names.ReadsArgument closing text tree) (rest : List Token) :
    Yields (fun k => names.parseMoreArguments k closing (text ++ .punctuator closing :: rest))
      ([tree], rest) := by
  have hne : ¬closing = .comma := by
    rcases hclosing with rfl | rfl <;> decide
  refine .of_succ (fun k => ?_) ((h closing rest (.inr rfl)).bind
    (h := fun (x : CTree × List Token) k =>
      if x.2.head? = some (.punctuator .comma) then
        (names.parseMoreArguments k closing x.2.tail).bind fun y => some (x.1 :: y.1, y.2)
      else (expect closing x.2).bind fun rest => some ([x.1], rest)) ⟨0, fun k _ => ?_⟩)
  · rw [parseMoreArguments]
    rfl
  · show (if _ then _ else (expect closing (.punctuator closing :: rest)).bind _) = _
    rw [if_neg (by simpa using hne), expect, if_pos rfl, Option.bind_some]

omit hclosing in
theorem yields_cons (h : names.ReadsArgument closing text tree) {more : List Token}
    {trees : List CTree} {rest : List Token}
    (hmore : Yields (fun k => names.parseMoreArguments k closing more) (trees, rest)) :
    Yields (fun k => names.parseMoreArguments k closing (text ++ .punctuator .comma :: more))
      (tree :: trees, rest) := by
  have hright : Yields (fun k => (names.parseMoreArguments k closing more).bind
      fun y => some (tree :: y.1, y.2)) (tree :: trees, rest) :=
    hmore.bind (h := fun (y : List CTree × List Token) _ => some (tree :: y.1, y.2))
      ⟨0, fun _ _ => rfl⟩
  refine .of_succ (fun k => ?_) ((h .comma more (.inl rfl)).bind
    (h := fun (x : CTree × List Token) k =>
      if x.2.head? = some (.punctuator .comma) then
        (names.parseMoreArguments k closing x.2.tail).bind fun y => some (x.1 :: y.1, y.2)
      else (expect closing x.2).bind fun rest => some ([x.1], rest)) hright)
  rw [parseMoreArguments]
  rfl

omit hclosing in
/-- A list that is not empty. -/
theorem yields_parseArguments (hne : ∀ rest, (text ++ rest).head? ≠ some (.punctuator closing))
    {more : List Token} {trees : List CTree} {rest : List Token}
    (h : Yields (fun k => names.parseMoreArguments k closing (text ++ more)) (trees, rest)) :
    Yields (fun k => names.parseArguments k closing (text ++ more)) (trees, rest) := by
  refine .of_succ (fun k => ?_) h
  rw [parseArguments, if_neg (hne more)]

omit hclosing in
theorem yields_parseArguments_nil (rest : List Token) :
    Yields (fun k => names.parseArguments k closing (.punctuator closing :: rest)) ([], rest) := by
  refine .of_some fun k => ?_
  rw [parseArguments, List.head?_cons, if_pos rfl, List.tail_cons]

end Arguments

section Macros

variable {type : CType} (htype : names.isTypeWellNamed type = true) (name : Text)
include htype

theorem head?_emitType_ne (p : Punctuator) (rest : List Token) :
    (tokens (emitType type) ++ rest).head? ≠ some (.punctuator p) := by
  have hstart := startsType_emitType htype rest
  intro hhead
  cases htext : tokens (emitType type) ++ rest with
  | nil =>
    rw [htext] at hhead
    cases hhead
  | cons t text =>
    rw [htext, List.head?_cons, Option.some.injEq] at hhead
    rw [htext, hhead] at hstart
    cases hstart

/-- A macro of a type. -/
theorem reads_macroType :
    names.ReadsAs 15 (.word name :: .punctuator .leftParenthesis ::
      (tokens (emitType type) ++ [.punctuator .rightParenthesis]))
      (.call (.word name) [.typeName (tokens (emitType type))]) true :=
  reads_call (reads_word name) fun rest =>
    yields_parseArguments (head?_emitType_ne htype _)
      (yields_last (.inl rfl) (readsArgument_type htype) rest)

/-- A macro of a type and of more arguments. -/
theorem reads_macroMore {more : List Token} {trees : List CTree}
    (hmore : ∀ rest, Yields (fun k => names.parseMoreArguments k .rightParenthesis
      (more ++ .punctuator .rightParenthesis :: rest)) (trees, rest)) :
    names.ReadsAs 15 (.word name :: .punctuator .leftParenthesis ::
      (tokens (emitType type) ++ (.punctuator .comma :: (more ++ [.punctuator .rightParenthesis]))))
      (.call (.word name) (.typeName (tokens (emitType type)) :: trees)) true := by
  have harguments (rest : List Token) : Yields (fun k => names.parseArguments k .rightParenthesis
      ((tokens (emitType type) ++ .punctuator .comma :: more) ++
        .punctuator .rightParenthesis :: rest))
      (.typeName (tokens (emitType type)) :: trees, rest) := by
    rw [List.append_assoc, List.cons_append]
    exact yields_parseArguments (head?_emitType_ne htype .rightParenthesis)
      (yields_cons (readsArgument_type htype) (hmore rest))
  have hcall := reads_call (reads_word name) harguments
  rwa [List.append_assoc, List.cons_append] at hcall

end Macros

end TypeNames

/-! ## Levels of expressions -/

def InfixOperation.level : InfixOperation → Nat
  | assign => 2
  | op => (infixLevel op.getOperator).getD 1

theorem InfixOperation.infixLevel_getOperator {op : InfixOperation} (h : op ≠ .assign) :
    infixLevel op.getOperator = some op.level := by
  cases op with
  | assign => exact absurd rfl h
  | _ => rfl

/-- The least level of the grammar that an operand without parentheses is of. -/
def OperatorPrecedence.operandLevel (current : OperatorPrecedence) : Nat :=
  if current.toNat ≤ 1 then current.toNat + 1 else min (current.toNat + 2) 15

theorem OperatorPrecedence.operandLevel_le (current : OperatorPrecedence) :
    current.operandLevel ≤ 15 := by
  rw [operandLevel]
  split_ifs <;> omega

namespace Expression

/-- The level of the grammar that the expression is of without parentheses. -/
def level : Expression → Nat
  | implicitCast value => level value
  | cast _ _ | prefixOp _ _ => 14
  | infixOp op _ _ => op.level
  | ternary _ _ _ => 3
  | _ => 15

/-- It is a unary expression of the grammar. -/
def isUnary : Expression → Bool
  | implicitCast value => isUnary value
  | cast _ _ | infixOp _ _ _ | ternary _ _ _ => false
  | _ => true

theorem level_bounds (e : Expression) :
    (e.precedence.toNat ≤ 2 → e.precedence.toNat ≤ e.level) ∧
      (3 ≤ e.precedence.toNat → e.level = min (e.precedence.toNat + 1) 15) := by
  induction e using Expression.induction with
  | infixOp op lhs rhs => rw [precedence, level]; cases op <;> decide
  | implicitCast value ih => exact ih
  | _ => simp [precedence, level, OperatorPrecedence.toNat]

/-- An expression that needs no parentheses is of a level that is high enough. -/
theorem le_level {current : OperatorPrecedence} {e : Expression}
    (h : current.toNat < e.precedence.toNat ∨ e.precedence = .primary) :
    current.operandLevel ≤ e.level := by
  obtain ⟨hsmall, hlarge⟩ := e.level_bounds
  rw [OperatorPrecedence.operandLevel]
  rcases h with hlt | hprimary
  · split_ifs <;> omega
  · rw [hprimary] at hlarge
    rw [hlarge (by decide)]
    show _ ≤ 15
    split_ifs <;> omega

/-- Such an expression is an assignment or of a level above it. -/
theorem three_le_level {e : Expression}
    (h : OperatorPrecedence.comma.toNat < e.precedence.toNat ∨ e.precedence = .primary)
    (hassign : e.unwrapImplicitCasts.isInfix .assign = false) : 3 ≤ e.level := by
  induction e using Expression.induction with
  | infixOp op lhs rhs =>
    rw [precedence] at h
    rw [level]
    cases op with
    | assign => cases hassign
    | comma => exact absurd h (by decide)
    | _ => decide
  | implicitCast value ih => exact ih h hassign
  | _ => simp [level]

theorem level_pos (e : Expression) : 1 ≤ e.level ∧ e.level ≤ 15 := by
  induction e using Expression.induction with
  | infixOp op lhs rhs => rw [level]; cases op <;> decide
  | implicitCast value ih => exact ih
  | _ => simp [level]

/-- An lvalue is a unary expression, or it is put in parentheses. -/
theorem isUnary_of_isLvalue {e : Expression} (h : e.isLvalue = true) :
    e.isUnary = true ∨ e.precedence.toNat ≤ 2 := by
  cases e with
  | infixOp op lhs rhs =>
    rw [isLvalue, Bool.or_eq_true, Bool.and_eq_true, decide_eq_true_eq, decide_eq_true_eq] at h
    rcases h with rfl | ⟨rfl, -⟩
    · exact .inr (Nat.le_refl 2)
    · exact .inr (Nat.le_succ 1)
  | implicitCast | cast | ternary => cases h
  | _ => exact .inl rfl

end Expression

namespace Printed

variable {names : TypeNames} {glues : Bool} {ps : List Piece} (h : Printed names glues ps)
include h

theorem exists_tokens : ∃ t more, tokens ps = t :: more ∧ names.startsExpression t = true := by
  obtain ⟨t, ht, hstarts⟩ := h.first
  cases ps with
  | nil => cases ht
  | cons p ps =>
    cases ht
    exact ⟨t, tokens ps, rfl, hstarts⟩

theorem startsType (rest : List Token) : names.startsType (tokens ps ++ rest) = false := by
  obtain ⟨t, more, heq, hstarts⟩ := h.exists_tokens
  rw [heq]
  cases t with
  | word name =>
    rw [TypeNames.startsExpression, Bool.not_eq_true'] at hstarts
    exact hstarts
  | _ => rfl

theorem head?_ne {p : Punctuator} (hp : names.startsExpression (.punctuator p) = false)
    (rest : List Token) : (tokens ps ++ rest).head? ≠ some (.punctuator p) := by
  obtain ⟨t, more, heq, hstarts⟩ := h.exists_tokens
  rw [heq, List.cons_append, List.head?_cons, ne_eq, Option.some.injEq]
  rintro rfl
  rw [hp] at hstarts
  cases hstarts

end Printed

/-- A list that is not empty does not begin with the bracket that closes it. -/
theorem head?_emitOperands_ne {names : TypeNames} {closing : Punctuator}
    (hclosing : closing = .rightParenthesis ∨ closing = .rightBrace) {es : List Expression}
    (hes : es ≠ []) (h : ∀ e ∈ es, Printed names true (emitBody e)) (rest : List Token) :
    (tokens (emitOperands true es) ++ rest).head? ≠ some (.punctuator closing) := by
  cases es with
  | nil => exact absurd rfl hes
  | cons e es =>
    have hprinted := (h e List.mem_cons_self).parenthesize .comma e.precedence
    have hstart : names.startsExpression (.punctuator closing) = false := by
      rcases hclosing with rfl | rfl <;> rfl
    simp only [emitOperands, if_true, List.nil_append, tokens_append, List.append_assoc]
    exact hprinted.head?_ne hstart _

/-! ## Every expression is read -/

/-- The tokens of an expression are read as its tree, at the level of the expression and as
arguments of a macro. -/
structure ReadsBody (names : TypeNames) (e : Expression) : Prop where
  printed : Printed names true (emitBody e)
  reads : names.ReadsAs e.level (tokens (emitBody e)) e.readTree e.isUnary
  last : ∀ rest, Yields (fun k => names.parseMoreArguments k .rightParenthesis
    (tokens (emitBody e) ++ .punctuator .rightParenthesis :: rest)) (e.readTree.splitComma, rest)
  more : ∀ text trees rest,
    Yields (fun k => names.parseMoreArguments k .rightParenthesis text) (trees, rest) →
    Yields (fun k => names.parseMoreArguments k .rightParenthesis
      (tokens (emitBody e) ++ .punctuator .comma :: text)) (e.readTree.splitComma ++ trees, rest)

namespace ReadsBody

variable {names : TypeNames} {e : Expression}

/-- An expression that is one argument. -/
theorem of_reads (hprinted : Printed names true (emitBody e))
    (hreads : names.ReadsAs e.level (tokens (emitBody e)) e.readTree e.isUnary)
    (hlevel : 2 ≤ e.level) (hsplit : e.readTree.splitComma = [e.readTree]) :
    ReadsBody names e := by
  have hargument : names.ReadsArgument .rightParenthesis (tokens (emitBody e)) e.readTree :=
    TypeNames.readsArgument (.inl rfl) (hreads.lower hlevel e.level_pos.2) hprinted.startsType
  refine ⟨hprinted, hreads, fun rest => ?_, fun text trees rest htext => ?_⟩
  · rw [hsplit]
    exact TypeNames.yields_last (.inl rfl) hargument rest
  · rw [hsplit]
    exact TypeNames.yields_cons hargument htext

/-- An expression in parentheses, or not, at a level. -/
theorem parenthesize (h : ReadsBody names e) (current : OperatorPrecedence) {n : Nat} (hn : n ≤ 15)
    (hlevel : current.toNat < e.precedence.toNat ∨ e.precedence = .primary → n ≤ e.level) :
    ∃ isUnary, names.ReadsAs n (tokens (parenthesize current e.precedence (emitBody e)))
      e.readTree isUnary ∧ (e.isUnary = true ∨ e.precedence.toNat ≤ 2 ∧ 2 ≤ current.toNat →
        isUnary = true) := by
  rcases parenthesize_cases current e.precedence (emitBody e) with ⟨-, heq⟩ | ⟨hown, heq⟩
  · refine ⟨true, ?_, fun _ => rfl⟩
    rw [heq, tokens_token, tokens_append]
    exact (TypeNames.reads_parentheses (h.reads.lower e.level_pos.1 e.level_pos.2)
      h.printed.startsType).lower hn (Nat.le_refl _)
  · refine ⟨e.isUnary, ?_, fun hunary => hunary.elim id fun hle => ?_⟩
    · rw [heq]
      exact h.reads.lower (hlevel hown) e.level_pos.2
    · rcases hown with hlt | hprimary
      · omega
      · rw [hprimary] at hle
        exact absurd hle.1 (by decide)

theorem operand (h : ReadsBody names e) (current : OperatorPrecedence) {n : Nat}
    (hn : n ≤ current.operandLevel) :
    ∃ isUnary, names.ReadsAs n (tokens (CliftEmitC.parenthesize current e.precedence (emitBody e)))
      e.readTree isUnary ∧ (e.isUnary = true ∨ e.precedence.toNat ≤ 2 ∧ 2 ≤ current.toNat →
        isUnary = true) :=
  h.parenthesize current (hn.trans current.operandLevel_le) fun hcurrent =>
    hn.trans (e.le_level hcurrent)

theorem readsArgument (h : ReadsBody names e) {closing : Punctuator}
    (hclosing : closing = .rightParenthesis ∨ closing = .rightBrace) :
    names.ReadsArgument closing (tokens (CliftEmitC.parenthesize .comma e.precedence (emitBody e)))
      e.readTree := by
  obtain ⟨isUnary, hreads, -⟩ := h.operand .comma (n := 2) (by decide)
  exact TypeNames.readsArgument hclosing hreads (h.printed.parenthesize _ _).startsType

variable {closing : Punctuator} (hclosing : closing = .rightParenthesis ∨ closing = .rightBrace)
include hclosing

/-- The operands in a list are read one by one. -/
theorem yields_operands (e : Expression) (es : List Expression)
    (h : ∀ e' ∈ e :: es, ReadsBody names e') (rest : List Token) :
    Yields (fun k => names.parseMoreArguments k closing
      (tokens (emitOperands true (e :: es)) ++ .punctuator closing :: rest))
      (Expression.readTrees (e :: es), rest) := by
  induction es generalizing e with
  | nil =>
    have hargument := (h e List.mem_cons_self).readsArgument hclosing
    have hyields := TypeNames.yields_last hclosing hargument rest
    simp only [emitOperands, if_true, List.nil_append, List.append_nil, Expression.readTrees]
    exact hyields
  | cons e' es ih =>
    have hargument := (h e List.mem_cons_self).readsArgument hclosing
    have hyields := TypeNames.yields_cons hargument
      (ih e' fun e'' he => h e'' (List.mem_cons_of_mem _ he))
    simp only [emitOperands, if_true, List.nil_append, tokens_append, Bool.false_eq_true,
      if_false, List.cons_append, tokens_token, tokens_space, List.append_assoc,
      Expression.readTrees] at hyields ⊢
    exact hyields

theorem yields_arguments (es : List Expression) (h : ∀ e ∈ es, ReadsBody names e)
    (rest : List Token) :
    Yields (fun k => names.parseArguments k closing
      (tokens (emitOperands true es) ++ .punctuator closing :: rest))
      (Expression.readTrees es, rest) := by
  cases es with
  | nil => exact TypeNames.yields_parseArguments_nil rest
  | cons e es =>
    refine TypeNames.yields_parseArguments (fun more => ?_) (yields_operands hclosing e es h rest)
    exact head?_emitOperands_ne hclosing (List.cons_ne_nil e es)
      (fun e' he' => (h e' he').printed) more

end ReadsBody

variable {names : TypeNames}

/-- The left operand of a comma is not put in parentheses. -/
theorem tokens_emitBody_comma (lhs rhs : Expression) :
    tokens (emitBody (.infixOp .comma lhs rhs)) = tokens (emitBody lhs) ++
      .punctuator .comma :: tokens (parenthesize .comma rhs.precedence (emitBody rhs)) := by
  rw [emitBody]
  show tokens (parenthesize .parentheses lhs.precedence (emitBody lhs) ++ _) = _
  rw [lhs.parenthesize_parentheses, tokens_append]
  rfl

/-- An infix expression and its operands. -/
theorem readsBody_infixOp {op : InfixOperation} {lhs rhs : Expression}
    (hprinted : Printed names true (emitBody (.infixOp op lhs rhs))) (hlhs : ReadsBody names lhs)
    (hrhs : ReadsBody names rhs) (hlvalue : op = .assign → lhs.isLvalue = true) :
    ReadsBody names (.infixOp op lhs rhs) := by
  have hspace : tokens (if op = .comma then [] else [Piece.space]) = [] := by
    split <;> rfl
  have hreads : names.ReadsAs op.level (tokens (emitBody (.infixOp op lhs rhs)))
      (.infixOp op.getOperator lhs.readTree rhs.readTree) false := by
    simp only [emitBody, tokens_append, hspace, tokens_token, tokens_space, List.nil_append]
    by_cases hassign : op = .assign
    · subst hassign
      obtain ⟨isUnary, hl, hunary⟩ := hlhs.operand .assignment (n := 3) (by decide)
      obtain ⟨_, hr, -⟩ := hrhs.operand .comma (n := 2) (by decide)
      have hisUnary : isUnary = true := hunary
        ((Expression.isUnary_of_isLvalue (hlvalue rfl)).imp_right fun hle => ⟨hle, by decide⟩)
      subst hisUnary
      exact TypeNames.reads_assign hl hr
    · have hprecedence : op.precedence ≠ .assignment := by
        cases op with
        | assign => exact absurd rfl hassign
        | _ => decide
      rw [if_neg hprecedence, if_neg hprecedence]
      obtain ⟨_, hl, -⟩ := hlhs.operand op.precedence.decrementPrecedence (n := op.level)
        (by cases op <;> decide)
      obtain ⟨_, hr, -⟩ := hrhs.operand op.precedence (n := op.level + 1)
        (by cases op <;> decide)
      exact TypeNames.reads_infixOp (InfixOperation.infixLevel_getOperator hassign) hl hr
  by_cases hcomma : op = .comma
  · -- Both operands are arguments of a macro that has the whole as its operand.
    subst hcomma
    have hargument := hrhs.readsArgument (.inl rfl)
    refine ⟨hprinted, hreads, fun rest => ?_, fun text trees rest htext => ?_⟩
    · rw [tokens_emitBody_comma, List.append_assoc, List.cons_append]
      exact hlhs.more _ _ rest (TypeNames.yields_last (.inl rfl) hargument rest)
    · rw [tokens_emitBody_comma, List.append_assoc, List.cons_append]
      have hmore := hlhs.more _ _ rest (TypeNames.yields_cons hargument htext)
      show Yields _ ((lhs.readTree.splitComma ++ [rhs.readTree]) ++ trees, rest)
      rwa [List.append_assoc, List.singleton_append]
  · refine .of_reads hprinted hreads ?_ ?_
    · show 2 ≤ op.level
      cases op <;> first | decide | exact absurd rfl hcomma
    · cases op with
      | comma => exact absurd rfl hcomma
      | _ => rfl

/-- Without a bit cast of a comma expression and a ternary expression that ends in an assignment,
the tokens are read as the tree. -/
theorem readsBody {e : Expression} (hwf : e.isWellFormed names = true)
    (hternary : e.contains Expression.assignsInTernary = false) : ReadsBody names e := by
  induction e using Expression.induction with
  | identifier name | enumerator name | null | boolean value =>
    exact .of_reads (printed_touching hwf) (TypeNames.reads_word _) (show 2 ≤ 15 by decide) rfl
  | immediate literal =>
    exact .of_reads (printed_touching hwf) (TypeNames.reads_number _) (show 2 ≤ 15 by decide) rfl
  | string contents =>
    exact .of_reads (printed_touching hwf) (TypeNames.reads_string _) (show 2 ≤ 15 by decide) rfl
  | undef type =>
    refine .of_reads (printed_touching hwf) ?_ (show 2 ≤ 15 by decide) rfl
    rw [emitBody, tokens_token, tokens_token, tokens_append]
    exact TypeNames.reads_macroType hwf _
  | aggregate type initializers ih =>
    refine .of_reads (printed_touching hwf) ?_ (show 2 ≤ 15 by decide) rfl
    rw [Expression.isWellFormed, Bool.and_eq_true, Expression.areWellFormed_eq_all,
      List.all_eq_true] at hwf
    rw [Expression.contains, Bool.or_eq_false_iff, Expression.anyContains_eq_any,
      List.any_eq_false] at hternary
    simp only [emitBody, tokens_token, tokens_append, tokens_nil]
    refine TypeNames.reads_compound hwf.1 fun rest =>
      ReadsBody.yields_arguments (.inr rfl) initializers (fun e he => ?_) rest
    exact ih e he (hwf.2 e he) (Bool.eq_false_iff.mpr (hternary.2 e he))
  | access isIndirect value field ih =>
    refine .of_reads (printed_touching hwf) ?_ (show 2 ≤ 15 by decide) rfl
    rw [Expression.isWellFormed, Bool.and_eq_true, Bool.and_eq_true] at hwf
    rw [Expression.contains, Bool.or_eq_false_iff] at hternary
    have hvalue := ih hwf.1.1 hternary.2
    obtain ⟨isUnary, hreads, -⟩ := hvalue.operand (.decrementPrecedence .unaryPostfix)
      (n := 15) (by decide)
    simp only [emitBody, tokens_token, tokens_append, tokens_nil]
    refine TypeNames.reads_member hreads ?_ field
    cases isIndirect with
    | false => exact .inl rfl
    | true => exact .inr rfl
  | subscript pointer index ihp ihi =>
    refine .of_reads (printed_touching hwf) ?_ (show 2 ≤ 15 by decide) rfl
    rw [Expression.isWellFormed, Bool.and_eq_true] at hwf
    rw [Expression.contains, Bool.or_eq_false_iff, Bool.or_eq_false_iff] at hternary
    have hpointer := ihp hwf.1 hternary.2.1
    have hindex := ihi hwf.2 hternary.2.2
    obtain ⟨isUnary, hreads, -⟩ := hpointer.operand (.decrementPrecedence .unaryPostfix)
      (n := 15) (by decide)
    obtain ⟨isUnary', hreads', -⟩ := hindex.operand .comma (n := 1) (by decide)
    simp only [emitBody, tokens_token, tokens_append, tokens_nil]
    exact TypeNames.reads_subscript hreads hreads'
  | call function arguments ihf ih =>
    refine .of_reads (printed_touching hwf) ?_ (show 2 ≤ 15 by decide) rfl
    rw [Expression.isWellFormed, Bool.and_eq_true, Expression.areWellFormed_eq_all,
      List.all_eq_true] at hwf
    rw [Expression.contains, Bool.or_eq_false_iff, Bool.or_eq_false_iff,
      Expression.anyContains_eq_any, List.any_eq_false] at hternary
    have hfunction := ihf hwf.1 hternary.2.1
    obtain ⟨isUnary, hreads, -⟩ := hfunction.operand (.decrementPrecedence .unaryPostfix)
      (n := 15) (by decide)
    simp only [emitBody, tokens_token, tokens_append, tokens_nil]
    refine TypeNames.reads_call hreads fun rest =>
      ReadsBody.yields_arguments (.inl rfl) arguments (fun e he => ?_) rest
    exact ih e he (hwf.2 e he) (Bool.eq_false_iff.mpr (hternary.2.2 e he))
  | postfixOp op operand ih =>
    refine .of_reads (printed_touching hwf) ?_ (show 2 ≤ 15 by decide) rfl
    rw [Expression.isWellFormed, Bool.and_eq_true] at hwf
    rw [Expression.contains, Bool.or_eq_false_iff] at hternary
    have hoperand := ih hwf.1 hternary.2
    obtain ⟨isUnary, hreads, -⟩ := hoperand.operand .unaryPostfix (n := 15) (by decide)
    simp only [emitBody, tokens_token, tokens_append, tokens_nil]
    refine TypeNames.reads_postfixOp hreads ?_
    cases op with
    | postIncrement => exact .inl rfl
    | postDecrement => exact .inr rfl
  | implicitCast value ih =>
    have hprinted := printed_touching hwf
    rw [Expression.contains, Bool.or_eq_false_iff] at hternary
    have hvalue := ih hwf hternary.2
    refine ⟨hprinted, ?_, ?_, ?_⟩
    · rw [Expression.emitBody_implicitCast]
      exact hvalue.reads
    · rw [Expression.emitBody_implicitCast]
      exact hvalue.last
    · rw [Expression.emitBody_implicitCast]
      exact hvalue.more
  | bitCast type value ih =>
    refine .of_reads (printed_touching hwf) ?_ (show 2 ≤ 15 by decide) rfl
    rw [Expression.isWellFormed, Bool.and_eq_true] at hwf
    rw [Expression.contains, Bool.or_eq_false_iff] at hternary
    have hvalue := ih hwf.2 hternary.2
    simp only [emitBody, value.parenthesize_parentheses, tokens_token, tokens_space, tokens_append,
      tokens_nil]
    exact TypeNames.reads_macroMore hwf.1 _ hvalue.last
  | cast type value ih =>
    refine .of_reads (printed_touching hwf) ?_ (show 2 ≤ 14 by decide) rfl
    rw [Expression.isWellFormed, Bool.and_eq_true] at hwf
    rw [Expression.contains, Bool.or_eq_false_iff] at hternary
    have hvalue := ih hwf.2 hternary.2
    obtain ⟨isUnary, hreads, -⟩ := hvalue.operand (.decrementPrecedence .unaryPrefix)
      (n := 14) (by decide)
    simp only [emitBody, tokens_token, tokens_space, tokens_append]
    exact TypeNames.reads_cast hwf.1 hreads
      ((hvalue.printed.parenthesize _ _).head?_ne rfl)
  | prefixOp op operand ih =>
    refine .of_reads (printed_touching hwf) ?_ (show 2 ≤ 14 by decide) rfl
    rw [Expression.isWellFormed, Bool.and_eq_true, Bool.or_eq_true, Bool.not_eq_true'] at hwf
    rw [Expression.contains, Bool.or_eq_false_iff] at hternary
    have hoperand := ih hwf.1 hternary.2
    obtain ⟨isUnary, hreads, hunary⟩ := hoperand.operand (.decrementPrecedence .unaryPrefix)
      (n := 14) (by decide)
    have hspace : tokens (if op = .neg ∧ operand.isNegation then [Piece.space] else []) = [] := by
      split <;> rfl
    simp only [emitBody, tokens_token, tokens_append, hspace, List.nil_append]
    refine TypeNames.reads_prefixOp hreads ?_ fun hop => hunary ?_
    · cases op <;> rfl
    · have hlvalue : operand.isLvalue = true := by
        rcases hwf.2 with hnot | hlvalue
        · cases op with
          | increment | decrement => cases hnot
          | _ => rcases hop with hop | hop <;> cases hop
        · exact hlvalue
      exact (Expression.isUnary_of_isLvalue hlvalue).imp_right fun hle => ⟨hle, by decide⟩
  | infixOp op lhs rhs ihl ihr =>
    have hprinted := printed_touching hwf
    simp only [Expression.isWellFormed, Bool.and_eq_true, Bool.or_eq_true] at hwf
    rw [Expression.contains, Bool.or_eq_false_iff, Bool.or_eq_false_iff] at hternary
    exact readsBody_infixOp hprinted (ihl hwf.1.1 hternary.2.1)
      (ihr hwf.1.2 hternary.2.2) fun hop => hwf.2.resolve_left (by simp [hop])
  | ternary condition lhs rhs ihc ihl ihr =>
    refine .of_reads (printed_touching hwf) ?_ (show 2 ≤ 3 by decide) rfl
    rw [Expression.isWellFormed, Bool.and_eq_true, Bool.and_eq_true] at hwf
    rw [Expression.contains, Bool.or_eq_false_iff, Bool.or_eq_false_iff, Bool.or_eq_false_iff]
      at hternary
    have hcondition := ihc hwf.1.1 hternary.2.1.1
    have hlhs := ihl hwf.1.2 hternary.2.1.2
    have hrhs := ihr hwf.2 hternary.2.2
    obtain ⟨_, hreads, -⟩ := hcondition.operand .ternary (n := 4) (by decide)
    obtain ⟨_, hreadsLhs, -⟩ := hlhs.operand .ternary (n := 1) (by decide)
    obtain ⟨_, hreadsRhs, -⟩ := hrhs.parenthesize (.decrementPrecedence .ternary) (n := 3)
      (by decide) fun hcurrent => Expression.three_le_level hcurrent hternary.1
    simp only [emitBody, tokens_token, tokens_space, tokens_append]
    exact TypeNames.reads_ternary hreads hreadsLhs hreadsRhs
  | intrinsicImmediate type literal =>
    refine .of_reads (printed_touching hwf) ?_ (show 2 ≤ 15 by decide) rfl
    simp only [emitBody, emitIntrinsicMacro, tokens_token, tokens_append, tokens_nil]
    exact TypeNames.reads_macroMore hwf _ fun rest => TypeNames.yields_last (.inl rfl)
      (TypeNames.readsArgument (.inl rfl)
        ((TypeNames.reads_number _).lower (by decide) (Nat.le_refl 15)) fun _ => rfl) rest
  | intrinsicCast operation type value ih =>
    refine .of_reads (printed_touching hwf) ?_ (show 2 ≤ 15 by decide) rfl
    rw [Expression.isWellFormed, Bool.and_eq_true, Bool.and_eq_true] at hwf
    rw [Expression.contains, Bool.or_eq_false_iff] at hternary
    have hvalue := ih hwf.2 hternary.2
    obtain ⟨isUnary, hreads, -⟩ := hvalue.operand .primary (n := 2) (by decide)
    simp only [emitBody, emitIntrinsicMacro, tokens_token, tokens_append, tokens_nil]
    exact TypeNames.reads_macroMore hwf.1.2 _ fun rest => TypeNames.yields_last (.inl rfl)
      (TypeNames.readsArgument (.inl rfl) hreads
        (hvalue.printed.parenthesize _ _).startsType) rest
  | usualIntrinsic operation operands ih =>
    refine .of_reads (printed_touching hwf) ?_ (show 2 ≤ 15 by decide) rfl
    rw [Expression.isWellFormed, Bool.and_eq_true, Expression.areWellFormed_eq_all] at hwf
    obtain ⟨-, hoperands⟩ := hwf
    rw [List.all_eq_true] at hoperands
    rw [Expression.contains, Bool.or_eq_false_iff, Expression.anyContains_eq_any,
      List.any_eq_false] at hternary
    simp only [emitBody, emitIntrinsicMacro, tokens_token, tokens_append, tokens_nil]
    refine TypeNames.reads_call (TypeNames.reads_word _) fun rest =>
      ReadsBody.yields_arguments (.inl rfl) operands (fun e he => ?_) rest
    exact ih e he (hoperands e he) (Bool.eq_false_iff.mpr (hternary.2 e he))

end CliftEmitC
