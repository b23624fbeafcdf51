import Revng.CliftEmitC.Token
import Revng.Lib.Numeral

/-!
# Emitting expressions

An expression of Clift and the pieces that the backend emits for it.  `emitBody` is the part
that the emit function of each operation prints, at the precedence of the operation.
`emitExpression` puts parentheses around it when that precedence is not above the ambient one.

An operation with the intrinsic mark is a macro with arguments.  An implicit cast is not
printed at all.
-/

namespace CliftEmitC

/-! ## Types -/

/-- A type, as far as its text needs it. -/
inductive CType where
  | named (isConst : Bool) (name : Text)
  | pointer (isConst : Bool) (pointee : CType)
  | foreignPointer (isConst : Bool) (size : Nat) (pointee : CType)
  | array (element : CType) (extent : Nat)
  deriving DecidableEq, Repr

namespace Piece

abbrev word (name : Text) : Piece := .token (.word name)

abbrev number (digits : Text) : Piece := .token (.number digits)

abbrev string (contents : Text) : Piece := .token (.string contents)

abbrev punctuator (p : Punctuator) : Piece := .token (.punctuator p)

end Piece

open Piece

def constPieces (isConst : Bool) : List Piece :=
  if isConst then [word "const".toList, space] else []

def getForeignPointerMacroName (size : Nat) : Text :=
  "pointer".toList ++ (Numeral.writeDigits 10 (size * 8) ++ "_t".toList)

/-- The syntax after the place of a name, outermost first. -/
def emitAfter (isPointee : Bool) : CType → List Piece
  | .named _ _ => []
  | .pointer _ pointee => emitAfter true pointee
  | .foreignPointer _ _ _ => []
  | .array element extent =>
      (if isPointee then [punctuator .rightParenthesis] else []) ++
        ([punctuator .leftBracket, number (Numeral.writeDigits 10 extent),
          punctuator .rightBracket] ++ emitAfter false element)

/-- The syntax before the place of a name, innermost first, and whether a space is needed. -/
def emitBefore (isPointee : Bool) : CType → List Piece × Bool
  | .named isConst name => (constPieces isConst ++ [word name], true)
  | .pointer isConst pointee =>
      let (pieces, needSpace) := emitBefore true pointee
      (pieces ++ ((if needSpace then [space] else []) ++
        (punctuator .star :: constPieces isConst)), false)
  | .foreignPointer isConst size pointee =>
      (constPieces isConst ++ (word (getForeignPointerMacroName size) ::
        punctuator .leftParenthesis :: ((emitBefore false pointee).1 ++ (emitAfter false pointee ++
          [punctuator .rightParenthesis]))), true)
  | .array element _ =>
      let (pieces, needSpace) := emitBefore false element
      if isPointee then (pieces ++ [punctuator .leftParenthesis], false) else (pieces, needSpace)

def emitType (type : CType) : List Piece := (emitBefore false type).1 ++ emitAfter false type

/-! ## Literals -/

inductive Radix where
  | binary
  | octal
  | decimal
  | hexadecimal
  deriving DecidableEq, Repr

inductive CStandardType where
  | int
  | long
  | longLong
  deriving DecidableEq, Repr

structure IntegerLiteral where
  value : Nat
  isUnsigned : Bool
  minimumType : CStandardType
  radix : Radix
  deriving DecidableEq, Repr

def getCIntegerLiteralSuffix (isUnsigned : Bool) : CStandardType → Text
  | .int => if isUnsigned then ['U'] else []
  | .long => if isUnsigned then ['U', 'L'] else ['L']
  | .longLong => if isUnsigned then ['U', 'L', 'L'] else ['L', 'L']

/-- A value is written without a sign. -/
def emitIntegerLiteral (literal : IntegerLiteral) : Text :=
  let digits := match literal.radix with
    | .binary => '0' :: 'b' :: Numeral.writeDigits 2 literal.value
    | .octal => '0' :: Numeral.writeDigits 8 literal.value
    | .decimal => Numeral.writeDigits 10 literal.value
    | .hexadecimal => '0' :: 'x' :: Numeral.writeDigits 16 literal.value
  digits ++ getCIntegerLiteralSuffix literal.isUnsigned literal.minimumType

/-! ## Operators -/

inductive OperatorPrecedence where
  | parentheses
  | comma
  | assignment
  | or
  | and
  | bitor
  | bitxor
  | bitand
  | equality
  | relational
  | shift
  | additive
  | multiplicative
  | unaryPrefix
  | unaryPostfix
  | primary
  deriving DecidableEq, Repr

namespace OperatorPrecedence

abbrev ternary : OperatorPrecedence := assignment

def toNat : OperatorPrecedence → Nat
  | parentheses => 0
  | comma => 1
  | assignment => 2
  | or => 3
  | and => 4
  | bitor => 5
  | bitxor => 6
  | bitand => 7
  | equality => 8
  | relational => 9
  | shift => 10
  | additive => 11
  | multiplicative => 12
  | unaryPrefix => 13
  | unaryPostfix => 14
  | primary => 15

/-- The next lower precedence.  The lowest one is never asked for it. -/
def decrementPrecedence : OperatorPrecedence → OperatorPrecedence
  | parentheses => parentheses
  | comma => parentheses
  | assignment => comma
  | or => assignment
  | and => or
  | bitor => and
  | bitxor => bitor
  | bitand => bitxor
  | equality => bitand
  | relational => equality
  | shift => relational
  | additive => shift
  | multiplicative => additive
  | unaryPrefix => multiplicative
  | unaryPostfix => unaryPrefix
  | primary => unaryPostfix

theorem toNat_decrementPrecedence (p : OperatorPrecedence) :
    p.decrementPrecedence.toNat = p.toNat - 1 := by
  cases p <;> rfl

end OperatorPrecedence

inductive PrefixOperation where
  | neg
  | bitwiseNot
  | logicalNot
  | increment
  | decrement
  | addressof
  | indirection
  deriving DecidableEq, Repr

inductive PostfixOperation where
  | postIncrement
  | postDecrement
  deriving DecidableEq, Repr

inductive InfixOperation where
  | mul
  | sdiv
  | udiv
  | srem
  | urem
  | add
  | sub
  | ptrAdd
  | ptrSub
  | ptrDiff
  | shl
  | shr
  | sar
  | scmpLt
  | ucmpLt
  | scmpGt
  | ucmpGt
  | scmpLe
  | ucmpLe
  | scmpGe
  | ucmpGe
  | cmpEq
  | cmpNe
  | bitwiseAnd
  | bitwiseXor
  | bitwiseOr
  | logicalAnd
  | logicalOr
  | assign
  | comma
  deriving DecidableEq, Repr

def PrefixOperation.getOperator : PrefixOperation → Punctuator
  | neg => .minus
  | bitwiseNot => .tilde
  | logicalNot => .exclaim
  | increment => .plusPlus
  | decrement => .minusMinus
  | addressof => .ampersand
  | indirection => .star

def PostfixOperation.getOperator : PostfixOperation → Punctuator
  | postIncrement => .plusPlus
  | postDecrement => .minusMinus

def InfixOperation.getOperator : InfixOperation → Punctuator
  | mul => .star
  | sdiv | udiv => .slash
  | srem | urem => .percent
  | add | ptrAdd => .plus
  | sub | ptrSub | ptrDiff => .minus
  | shl => .lessLess
  | shr | sar => .greaterGreater
  | scmpLt | ucmpLt => .less
  | scmpGt | ucmpGt => .greater
  | scmpLe | ucmpLe => .lessEquals
  | scmpGe | ucmpGe => .greaterEquals
  | cmpEq => .equalsEquals
  | cmpNe => .exclaimEquals
  | bitwiseAnd => .ampersand
  | bitwiseXor => .caret
  | bitwiseOr => .pipe
  | logicalAnd => .ampersandAmpersand
  | logicalOr => .pipePipe
  | assign => .equals
  | comma => .comma

def InfixOperation.precedence : InfixOperation → OperatorPrecedence
  | mul | sdiv | udiv | srem | urem => .multiplicative
  | add | sub | ptrAdd | ptrSub | ptrDiff => .additive
  | shl | shr | sar => .shift
  | scmpLt | ucmpLt | scmpGt | ucmpGt | scmpLe | ucmpLe | scmpGe | ucmpGe => .relational
  | cmpEq | cmpNe => .equality
  | bitwiseAnd => .bitand
  | bitwiseXor => .bitxor
  | bitwiseOr => .bitor
  | logicalAnd => .and
  | logicalOr => .or
  | assign => .assignment
  | comma => .comma

/-! ## Expressions -/

/-- An expression.  A bit cast between types that C casts between is a `cast`, any other one is
a `bitCast`. -/
inductive Expression where
  | identifier (name : Text)
  | enumerator (name : Text)
  | immediate (literal : IntegerLiteral)
  | boolean (value : Bool)
  | null
  | string (contents : Text)
  | undef (type : CType)
  | aggregate (type : CType) (initializers : List Expression)
  | access (isIndirect : Bool) (value : Expression) (field : Text)
  | subscript (pointer index : Expression)
  | call (function : Expression) (arguments : List Expression)
  | postfixOp (op : PostfixOperation) (operand : Expression)
  | implicitCast (value : Expression)
  | bitCast (type : CType) (value : Expression)
  | cast (type : CType) (value : Expression)
  | prefixOp (op : PrefixOperation) (operand : Expression)
  | infixOp (op : InfixOperation) (lhs rhs : Expression)
  | ternary (condition lhs rhs : Expression)
  | intrinsicImmediate (type : CType) (literal : IntegerLiteral)
  | intrinsicCast (operation : Text) (type : CType) (value : Expression)
  | usualIntrinsic (operation : Text) (operands : List Expression)

namespace Expression

/-- The expression under implicit casts. -/
def unwrapImplicitCasts : Expression → Expression
  | implicitCast value => unwrapImplicitCasts value
  | e => e

/-- The precedence in `getExpressionEmitInfo`. -/
def precedence : Expression → OperatorPrecedence
  | identifier _ | enumerator _ | immediate _ | boolean _ | null | string _ | undef _ => .primary
  | aggregate _ _ => .primary
  | access _ _ _ | subscript _ _ | call _ _ | postfixOp _ _ => .unaryPostfix
  | implicitCast value => precedence value
  | bitCast _ _ => .unaryPostfix
  | cast _ _ | prefixOp _ _ => .unaryPrefix
  | infixOp op _ _ => op.precedence
  | ternary _ _ _ => .ternary
  | intrinsicImmediate _ _ | intrinsicCast _ _ _ | usualIntrinsic _ _ => .primary

/-- Induction over an expression, with its operands as a list. -/
@[elab_as_elim]
theorem induction {motive : Expression → Prop} (identifier : ∀ name, motive (.identifier name))
    (enumerator : ∀ name, motive (.enumerator name))
    (immediate : ∀ literal, motive (.immediate literal))
    (boolean : ∀ value, motive (.boolean value)) (null : motive .null)
    (string : ∀ contents, motive (.string contents)) (undef : ∀ type, motive (.undef type))
    (aggregate : ∀ type initializers, (∀ e ∈ initializers, motive e) →
      motive (.aggregate type initializers))
    (access : ∀ isIndirect value field, motive value → motive (.access isIndirect value field))
    (subscript : ∀ pointer index, motive pointer → motive index →
      motive (.subscript pointer index))
    (call : ∀ function arguments, motive function → (∀ e ∈ arguments, motive e) →
      motive (.call function arguments))
    (postfixOp : ∀ op operand, motive operand → motive (.postfixOp op operand))
    (implicitCast : ∀ value, motive value → motive (.implicitCast value))
    (bitCast : ∀ type value, motive value → motive (.bitCast type value))
    (cast : ∀ type value, motive value → motive (.cast type value))
    (prefixOp : ∀ op operand, motive operand → motive (.prefixOp op operand))
    (infixOp : ∀ op lhs rhs, motive lhs → motive rhs → motive (.infixOp op lhs rhs))
    (ternary : ∀ condition lhs rhs, motive condition → motive lhs → motive rhs →
      motive (.ternary condition lhs rhs))
    (intrinsicImmediate : ∀ type literal, motive (.intrinsicImmediate type literal))
    (intrinsicCast : ∀ operation type value, motive value →
      motive (.intrinsicCast operation type value))
    (usualIntrinsic : ∀ operation operands, (∀ e ∈ operands, motive e) →
      motive (.usualIntrinsic operation operands)) (e : Expression) : motive e :=
  @Expression.rec motive (fun es => ∀ e ∈ es, motive e) identifier enumerator immediate boolean
    null string undef aggregate access subscript call postfixOp implicitCast bitCast cast prefixOp
    infixOp ternary intrinsicImmediate intrinsicCast usualIntrinsic (fun _ h => nomatch h)
    (fun _ _ hhead htail e he => (List.mem_cons.mp he).elim (· ▸ hhead) (htail e)) e

/-- A negation or a decrement, also one that is printed as a macro. -/
def isNegation : Expression → Bool
  | prefixOp op _ => op = .neg ∨ op = .decrement
  | usualIntrinsic operation _ => operation = "neg".toList ∨ operation = "dec".toList
  | _ => false

/-- The text of the expression begins with a minus when it is not in parentheses. -/
def printsMinus : Expression → Bool
  | prefixOp op _ => op = .neg ∨ op = .decrement
  | _ => false

/-! ### Kinds of subexpressions -/

/-- A negation of an implicit cast of an expression that begins with a minus. -/
def gluesMinus : Expression → Bool
  | prefixOp op operand =>
      op = .neg && (!operand.isNegation && operand.unwrapImplicitCasts.printsMinus)
  | _ => false

def isInfix (op : InfixOperation) : Expression → Bool
  | infixOp op' _ _ => op' = op
  | _ => false

/-- A bit cast whose operand is a comma expression. -/
def splitsArgument : Expression → Bool
  | bitCast _ value => value.unwrapImplicitCasts.isInfix .comma
  | _ => false

/-- A ternary expression whose last operand is an assignment. -/
def assignsInTernary : Expression → Bool
  | ternary _ _ rhs => rhs.unwrapImplicitCasts.isInfix .assign
  | _ => false

section Contains

variable (p : Expression → Bool)

mutual

/-- Some subexpression is of the kind. -/
def contains (e : Expression) : Bool :=
  p e || match e with
    | identifier _ | enumerator _ | immediate _ | boolean _ | null | string _ | undef _ => false
    | aggregate _ initializers => anyContains initializers
    | access _ value _ => contains value
    | subscript pointer index => contains pointer || contains index
    | call function arguments => contains function || anyContains arguments
    | postfixOp _ operand => contains operand
    | implicitCast value => contains value
    | bitCast _ value => contains value
    | cast _ value => contains value
    | prefixOp _ operand => contains operand
    | infixOp _ lhs rhs => contains lhs || contains rhs
    | ternary condition lhs rhs => contains condition || contains lhs || contains rhs
    | intrinsicImmediate _ _ => false
    | intrinsicCast _ _ value => contains value
    | usualIntrinsic _ operands => anyContains operands

def anyContains : List Expression → Bool
  | [] => false
  | e :: es => contains e || anyContains es

end

theorem anyContains_eq_any (es : List Expression) : anyContains p es = es.any (contains p) := by
  induction es with
  | nil => rfl
  | cons e es ih => rw [anyContains, ih, List.any_cons]

end Contains

end Expression

def parenthesize (current own : OperatorPrecedence) (body : List Piece) : List Piece :=
  if own.toNat ≤ current.toNat ∧ own ≠ .primary then
    punctuator .leftParenthesis :: (body ++ [punctuator .rightParenthesis])
  else body

def emitIntrinsicMacro (operation : Text) : Piece := word ("rr_".toList ++ operation)

mutual

/-- What the emit function of an expression prints, at the precedence of the expression. -/
def emitBody : Expression → List Piece
  | .identifier name | .enumerator name => [word name]
  | .immediate literal => [number (emitIntegerLiteral literal)]
  | .boolean value => [word (if value then "true".toList else "false".toList)]
  | .null => [word "NULL".toList]
  | .string contents => [string contents]
  | .undef type =>
      word "undef".toList :: punctuator .leftParenthesis ::
        (emitType type ++ [punctuator .rightParenthesis])
  | .aggregate type initializers =>
      punctuator .leftParenthesis :: (emitType type ++ (punctuator .rightParenthesis ::
        punctuator .leftBrace :: (emitOperands true initializers ++ [punctuator .rightBrace])))
  | .access isIndirect value field =>
      parenthesize (.decrementPrecedence .unaryPostfix) value.precedence (emitBody value) ++
        [punctuator (if isIndirect then .arrow else .dot), word field]
  | .subscript pointer index =>
      parenthesize (.decrementPrecedence .unaryPostfix) pointer.precedence (emitBody pointer) ++
        (punctuator .leftBracket :: (parenthesize .comma index.precedence (emitBody index) ++
          [punctuator .rightBracket]))
  | .call function arguments =>
      parenthesize (.decrementPrecedence .unaryPostfix) function.precedence (emitBody function) ++
        (punctuator .leftParenthesis :: (emitOperands true arguments ++
          [punctuator .rightParenthesis]))
  | .postfixOp op operand =>
      parenthesize .unaryPostfix operand.precedence (emitBody operand) ++
        [punctuator op.getOperator]
  | .implicitCast value =>
      -- Implicit casts under this one are skipped by the same rule.
      parenthesize value.precedence.decrementPrecedence value.precedence (emitBody value)
  | .bitCast type value =>
      word "bit_cast".toList :: punctuator .leftParenthesis :: (emitType type ++
        (punctuator .comma :: space ::
          (parenthesize .parentheses value.precedence (emitBody value) ++
            [punctuator .rightParenthesis])))
  | .cast type value =>
      punctuator .leftParenthesis :: (emitType type ++ (punctuator .rightParenthesis :: space ::
        parenthesize (.decrementPrecedence .unaryPrefix) value.precedence (emitBody value)))
  | .prefixOp op operand =>
      punctuator op.getOperator :: ((if op = .neg ∧ operand.isNegation then [space] else []) ++
        parenthesize (.decrementPrecedence .unaryPrefix) operand.precedence (emitBody operand))
  | .infixOp op lhs rhs =>
      -- Assignment operators are right-associative.
      let lhsPrecedence := if op.precedence = .assignment then op.precedence
        else op.precedence.decrementPrecedence
      let rhsPrecedence := if op.precedence = .assignment then op.precedence.decrementPrecedence
        else op.precedence
      parenthesize lhsPrecedence lhs.precedence (emitBody lhs) ++
        ((if op = .comma then [] else [space]) ++ (punctuator op.getOperator :: space ::
          parenthesize rhsPrecedence rhs.precedence (emitBody rhs)))
  | .ternary condition lhs rhs =>
      parenthesize .ternary condition.precedence (emitBody condition) ++
        (space :: punctuator .question :: space ::
          (parenthesize .ternary lhs.precedence (emitBody lhs) ++
            (space :: punctuator .colon :: space ::
              parenthesize (.decrementPrecedence .ternary) rhs.precedence (emitBody rhs))))
  | .intrinsicImmediate type literal =>
      emitIntrinsicMacro "imm".toList :: punctuator .leftParenthesis :: (emitType type ++
        [punctuator .comma, number (emitIntegerLiteral literal), punctuator .rightParenthesis])
  | .intrinsicCast operation type value =>
      emitIntrinsicMacro operation :: punctuator .leftParenthesis :: (emitType type ++
        (punctuator .comma :: (parenthesize .primary value.precedence (emitBody value) ++
          [punctuator .rightParenthesis])))
  | .usualIntrinsic operation operands =>
      emitIntrinsicMacro operation :: punctuator .leftParenthesis ::
        (emitOperands true operands ++ [punctuator .rightParenthesis])

/-- The operands in an argument list or an initializer list. -/
def emitOperands (isFirst : Bool) : List Expression → List Piece
  | [] => []
  | operand :: operands =>
      (if isFirst then [] else [punctuator .comma, space]) ++
        (parenthesize .comma operand.precedence (emitBody operand) ++
          emitOperands false operands)

end

/-- The expression at an ambient precedence. -/
def emitExpression (current : OperatorPrecedence) (e : Expression) : List Piece :=
  parenthesize current e.precedence (emitBody e)

theorem parenthesize_cases (current own : OperatorPrecedence) (body : List Piece) :
    (own.toNat ≤ current.toNat ∧ parenthesize current own body =
      punctuator .leftParenthesis :: (body ++ [punctuator .rightParenthesis])) ∨
    ((current.toNat < own.toNat ∨ own = .primary) ∧ parenthesize current own body = body) := by
  unfold parenthesize
  split
  next h => exact .inl ⟨h.1, rfl⟩
  next h =>
    refine .inr ⟨?_, rfl⟩
    rw [not_and_or, not_le, not_not] at h
    exact h

/-- No parentheses are printed at the precedence right below. -/
theorem parenthesize_decrementPrecedence {own : OperatorPrecedence} (h : 0 < own.toNat)
    (body : List Piece) : parenthesize own.decrementPrecedence own body = body := by
  rw [parenthesize, if_neg]
  rintro ⟨hle, -⟩
  rw [OperatorPrecedence.toNat_decrementPrecedence] at hle
  omega

namespace Expression

theorem precedence_pos (e : Expression) : 0 < e.precedence.toNat := by
  induction e using Expression.induction with
  | infixOp op lhs rhs =>
    rw [precedence]
    cases op <;> decide
  | implicitCast value ih => exact ih
  | _ => exact Nat.succ_pos _

/-- The lowest precedence never asks for parentheses. -/
theorem parenthesize_parentheses (e : Expression) (body : List Piece) :
    parenthesize .parentheses e.precedence body = body := by
  rw [parenthesize, if_neg]
  rintro ⟨hle, -⟩
  exact Nat.lt_irrefl 0 (Nat.lt_of_lt_of_le e.precedence_pos hle)

theorem precedence_unwrapImplicitCasts (e : Expression) :
    e.unwrapImplicitCasts.precedence = e.precedence := by
  induction e using Expression.induction with
  | implicitCast value ih => exact ih
  | _ => rfl

/-- An implicit cast is printed as nothing. -/
theorem emitBody_implicitCast (value : Expression) :
    emitBody (.implicitCast value) = emitBody value := by
  rw [emitBody, parenthesize_decrementPrecedence value.precedence_pos]

theorem emitBody_unwrapImplicitCasts (e : Expression) :
    emitBody e.unwrapImplicitCasts = emitBody e := by
  induction e using Expression.induction with
  | implicitCast value ih =>
    rw [emitBody_implicitCast]
    exact ih
  | _ => rfl

end Expression

end CliftEmitC
