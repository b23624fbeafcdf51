import Revng.CliftEmitC.Token

/-!
# Emitting statements

The body of a statement is a region of operations.  It is printed in braces unless it consists of one
simple statement, and a block that it consists of is printed as the region itself.  The braces of a
chain of `else if` are elided all at once (`mayElideIfStatementBraces`).

Operations that are not printed may stand anywhere in a region, and they count when a region is asked
for its only operation or its last one.

An expression, a declaration and the value of a case are one token each.

A statement has comments, and a label and a variable have one of their own, which is empty where the
operation has none.  Each comment is a line of its own.
-/

namespace CliftEmitC

/-! ## Statements -/

/-- The comments of the statement are not printed here, that of the variable is. -/
inductive ForInitializer (ε δ : Type) where
  | expressionStatement (expression : ε)
  | localVariable (comment : Text) (declaration : δ)

structure Label where
  name : Text
  comment : Text

/-- The labels that a loop assigns. -/
structure LoopLabels where
  breakLabel : Option Label
  continueLabel : Option Label

mutual

/-- A statement of Clift over its expressions, declarations and case values, with its comments. -/
inductive Statement (ε δ ν : Type) where
  | makeLabel (label : Label)
  | require
  | assignLabel (comments : List Text) (label : Label)
  | localVariable (comments : List Text) (comment : Text) (declaration : δ)
  | expressionStatement (comments : List Text) (expression : ε)
  | goto (comments : List Text) (label : Label)
  /-- Without a label it is a plain `break`. -/
  | breakTo (comments : List Text) (label : Option Label)
  | continueTo (comments : List Text) (label : Option Label)
  | returnOp (comments : List Text) (result : Option ε)
  | ifOp (comments : List Text) (condition : ε) (thenRegion elseRegion : List (Statement ε δ ν))
  | switchOp (comments : List Text) (condition : ε) (cases : Cases ε δ ν)
  | forOp (comments : List Text) (labels : LoopLabels) (initializer : Option (ForInitializer ε δ))
      (condition expression : Option ε) (body : List (Statement ε δ ν))
  | whileOp (comments : List Text) (labels : LoopLabels) (condition : ε)
      (body : List (Statement ε δ ν))
  | doWhile (comments : List Text) (labels : LoopLabels) (body : List (Statement ε δ ν))
      (condition : ε)
  | blockStatement (comments : List Text) (block : List (Statement ε δ ν))

/-- The regions of a switch with the values of each.  The one of the default case comes last. -/
inductive Cases (ε δ ν : Type) where
  | nil
  | default (region : List (Statement ε δ ν))
  | case (value : ν) (values : List ν) (region : List (Statement ε δ ν)) (cases : Cases ε δ ν)

end

/-! ## Tokens -/

inductive StatementKeyword where
  | «if» | «else» | «switch» | case | default | «for» | while | «do»
  | goto | breakTo | continueTo | «break» | «continue» | «return»
  deriving DecidableEq, Repr

inductive StatementToken (ε δ ν : Type) where
  | keyword (k : StatementKeyword)
  | identifier (name : Text)
  | leftParenthesis
  | rightParenthesis
  | leftBrace
  | rightBrace
  | colon
  | semicolon
  | expression (expression : ε)
  | declaration (declaration : δ)
  | value (value : ν)

inductive StatementPiece (ε δ ν : Type) where
  | space
  | newline
  /-- A line comment with its newline. -/
  | lineComment (text : Text)
  | token (t : StatementToken ε δ ν)

variable {ε δ ν : Type}

/-! ## Properties of operations and regions -/

namespace Statement

def isVisible : Statement ε δ ν → Bool
  | makeLabel _ => false
  | require => false
  | _ => true

/-- The operation has the trait that no statement but a label may follow it. -/
def isNoFallthrough : Statement ε δ ν → Bool
  | goto _ _ => true
  | breakTo _ _ => true
  | continueTo _ _ => true
  | returnOp _ _ => true
  | _ => false

def isIf : Statement ε δ ν → Bool
  | ifOp _ _ _ _ => true
  | _ => false

def isAssignLabel : Statement ε δ ν → Bool
  | assignLabel _ _ => true
  | _ => false

def isLocalVariable : Statement ε δ ν → Bool
  | localVariable _ _ _ => true
  | _ => false

def mayElideBraces : Statement ε δ ν → Bool
  | expressionStatement _ _ => true
  | goto _ _ => true
  | returnOp _ _ => true
  | breakTo _ _ => true
  | continueTo _ _ => true
  | _ => false

/-- The comments that belong to the point in the code (`getComments`). -/
def comments : Statement ε δ ν → List Text
  | makeLabel _ => []
  | require => []
  | assignLabel comments _ => comments
  | localVariable comments _ _ => comments
  | expressionStatement comments _ => comments
  | goto comments _ => comments
  | breakTo comments _ => comments
  | continueTo comments _ => comments
  | returnOp comments _ => comments
  | ifOp comments _ _ _ => comments
  | switchOp comments _ _ => comments
  | forOp comments _ _ _ _ _ => comments
  | whileOp comments _ _ _ => comments
  | doWhile comments _ _ _ => comments
  | blockStatement comments _ => comments

end Statement

open Statement

def hasFallthrough (region : List (Statement ε δ ν)) : Bool :=
  match region.getLast? with
  | some s => !s.isNoFallthrough
  | none => true

def mayElideRegionBraces : List (Statement ε δ ν) → Bool
  | [s] => s.mayElideBraces
  | _ => false

/-- The region consists of an `if` statement. -/
def isElseIf : List (Statement ε δ ν) → Bool
  | [s] => s.isIf
  | _ => false

def mayElideIfStatementBraces : Statement ε δ ν → Bool
  | ifOp _ _ thenRegion elseRegion =>
      mayElideRegionBraces thenRegion &&
        match elseRegion with
        | [] => true
        | [elseIf] =>
            if elseIf.isIf then mayElideIfStatementBraces elseIf else elseIf.mayElideBraces
        | _ => false
  | _ => false

/-- A label stands before a statement, which a declaration is not. -/
def labelRequiresEmptyExpression (following : List (Statement ε δ ν)) : Bool :=
  match following.find? isVisible with
  | some s => s.isLocalVariable
  | none => true

/-! ## Parts of statements -/

section

open StatementPiece

abbrev Pieces (ε δ ν : Type) : Type := List (StatementPiece ε δ ν)

def emitKeyword (k : StatementKeyword) : StatementPiece ε δ ν := token (.keyword k)

def emitComments (comments : List Text) : Pieces ε δ ν := comments.map lineComment

/-- The comment of a label or a variable, if it has one. -/
def emitEntityComment (comment : Text) : Pieces ε δ ν :=
  if comment = [] then [] else [lineComment comment]

def emitLabelStatementImpl (label : Label) (requiresEmptyExpression : Bool) : Pieces ε δ ν :=
  emitEntityComment label.comment ++ token (.identifier label.name) :: token .colon ::
    ((if requiresEmptyExpression then [space, token .semicolon] else []) ++ [newline])

/-- A newline before a declaration or a label, unless a similar statement is before it. -/
def emitSeparator (previous : Option (Statement ε δ ν)) (isSimilar : Statement ε δ ν → Bool) :
    Pieces ε δ ν :=
  match previous with
  | some s => if isSimilar s then [] else [newline]
  | none => []

def emitLabeledJump (k : StatementKeyword) (label : Label) : Pieces ε δ ν :=
  [emitKeyword k, space, token (.identifier label.name), token .semicolon, newline]

def emitPlainJump (k : StatementKeyword) : Pieces ε δ ν :=
  [emitKeyword k, token .semicolon, newline]

def emitReturnStatement (result : Option ε) : Pieces ε δ ν :=
  emitKeyword .«return» ::
    ((match result with
    | some e => [space, token (.expression e)]
    | none => []) ++ [token .semicolon, newline])

def emitImplicitBlockStatement (emitBlock : Bool) (region : Pieces ε δ ν) : Pieces ε δ ν :=
  if emitBlock then space :: token .leftBrace :: newline :: (region ++ [token .rightBrace])
  else newline :: region

/-- A keyword with a condition. -/
def emitHead (k : StatementKeyword) (condition : ε) : Pieces ε δ ν :=
  [emitKeyword k, space, token .leftParenthesis, token (.expression condition),
    token .rightParenthesis]

/-- The else region, which is the next statement of a chain or a block. -/
def emitElse (emitBlocks : Bool) (elseRegion : List (Statement ε δ ν))
    (elseIf elseBlock : Pieces ε δ ν) : Pieces ε δ ν :=
  if elseRegion.isEmpty then []
  else (if emitBlocks then [space] else []) ++ emitKeyword .«else» ::
    (if isElseIf elseRegion then space :: elseIf else elseBlock)

def emitCaseValues (value : ν) (values : List ν) : Pieces ε δ ν :=
  emitKeyword .case :: space :: token (.value value) :: token .colon ::
    values.flatMap fun value =>
      [newline, emitKeyword .case, space, token (.value value), token .colon]

/-- The region of a case, which is printed as given, and a `break` if it has a fallthrough. -/
def emitCaseRegion (region : List (Statement ε δ ν)) (text : Pieces ε δ ν) : Pieces ε δ ν :=
  let emitBlock := !mayElideRegionBraces region
  emitImplicitBlockStatement emitBlock text ++
    ((if emitBlock then (if hasFallthrough region then [space] else [newline]) else []) ++
      (if hasFallthrough region then emitPlainJump .«break» else []))

/-- Whether the body of a loop is printed in braces. -/
def loopBodyHasBraces (labels : LoopLabels) (body : List (Statement ε δ ν)) : Bool :=
  labels.continueLabel.isSome || !mayElideRegionBraces body

/-- The body of a loop, which is printed as given, with the label to continue at its end. -/
def emitLoopBody (labels : LoopLabels) (body : List (Statement ε δ ν)) (text : Pieces ε δ ν) :
    Pieces ε δ ν :=
  emitImplicitBlockStatement (loopBodyHasBraces labels body)
    (match labels.continueLabel with
    | some label => text ++ newline :: emitLabelStatementImpl label true
    | none => text)

def emitBreakLabelStatement (labels : LoopLabels) (following : List (Statement ε δ ν)) :
    Pieces ε δ ν :=
  match labels.breakLabel with
  | some label => emitLabelStatementImpl label (labelRequiresEmptyExpression following)
  | none => []

def emitOptionalExpression : Option ε → Pieces ε δ ν
  | some e => [space, token (.expression e)]
  | none => []

def emitForInitializer : Option (ForInitializer ε δ) → Pieces ε δ ν
  | some (.localVariable comment d) =>
      emitEntityComment comment ++ [token (.declaration d), token .semicolon]
  | some (.expressionStatement e) => [token (.expression e), token .semicolon, newline]
  | none => [token .semicolon]

def emitForHead (initializer : Option (ForInitializer ε δ)) (condition expression : Option ε) :
    Pieces ε δ ν :=
  emitKeyword .«for» :: space :: token .leftParenthesis ::
    (emitForInitializer initializer ++
      (emitOptionalExpression condition ++ token .semicolon ::
        (emitOptionalExpression expression ++ [token .rightParenthesis])))

/-! ## Statements and regions -/

mutual

/-- What is printed of a statement after its comments (`emitStatement`), with the one printed before
it and the operations after it in the region.  In a chain of `else if` the first statement has decided
whether blocks are emitted, and the others have no comments. -/
def emitStatementImpl (chain : Option Bool) (previous : Option (Statement ε δ ν))
    (following : List (Statement ε δ ν)) : Statement ε δ ν → Pieces ε δ ν
  | makeLabel _ => []
  | require => []
  | assignLabel _ label =>
      emitSeparator previous isAssignLabel ++
        emitLabelStatementImpl label (labelRequiresEmptyExpression following)
  | localVariable _ comment d =>
      emitSeparator previous (fun s => s.isLocalVariable || s.isAssignLabel) ++
        (emitEntityComment comment ++ [token (.declaration d), token .semicolon, newline])
  | expressionStatement _ e => [token (.expression e), token .semicolon, newline]
  | goto _ label => emitLabeledJump .goto label
  | breakTo _ (some label) => emitLabeledJump .breakTo label
  | breakTo _ none => emitPlainJump .«break»
  | continueTo _ (some label) => emitLabeledJump .continueTo label
  | continueTo _ none => emitPlainJump .«continue»
  | returnOp _ result => emitReturnStatement result
  | ifOp comments condition thenRegion elseRegion =>
      let emitBlocks :=
        chain.getD !mayElideIfStatementBraces (ifOp comments condition thenRegion elseRegion)
      let elseIf :=
        match elseRegion with
        | [elseIf] => emitStatementImpl (some emitBlocks) none [] elseIf
        | _ => []
      emitHead .«if» condition ++
        (emitImplicitBlockStatement emitBlocks (emitStatementRegion true none thenRegion) ++
          (emitElse emitBlocks elseRegion elseIf (emitImplicitBlockStatement emitBlocks
            (emitStatementRegion true none elseRegion)) ++
            (if chain.isNone && emitBlocks then [newline] else [])))
  | switchOp _ condition cases =>
      emitHead .«switch» condition ++
        (space :: token .leftBrace :: newline ::
          (emitCases cases ++ [token .rightBrace, newline]))
  | forOp _ labels initializer condition expression body =>
      emitForHead initializer condition expression ++
        (emitLoopBody labels body (emitStatementRegion true none body) ++
          ((if loopBodyHasBraces labels body then [newline] else []) ++
            emitBreakLabelStatement labels following))
  | whileOp _ labels condition body =>
      emitHead .while condition ++
        (emitLoopBody labels body (emitStatementRegion true none body) ++
          ((if loopBodyHasBraces labels body then [newline] else []) ++
            emitBreakLabelStatement labels following))
  | doWhile _ labels body condition =>
      emitKeyword .«do» ::
        (emitLoopBody labels body (emitStatementRegion true none body) ++
          ((if loopBodyHasBraces labels body then [space] else []) ++
            (emitHead .while condition ++
              (token .semicolon :: newline :: emitBreakLabelStatement labels following))))
  | blockStatement _ block =>
      token .leftBrace :: newline ::
        (emitStatementRegion false none block ++ [token .rightBrace, newline])

/-- The statements of a region.  With `opened` a block that it consists of is printed in its place. -/
def emitStatementRegion (opened : Bool) (previous : Option (Statement ε δ ν)) :
    List (Statement ε δ ν) → Pieces ε δ ν
  | [] => []
  | s :: rest =>
      match opened, s, rest with
      | true, blockStatement _ block, [] => emitStatementRegion false none block
      | _, s, rest =>
          if s.isVisible then
            emitComments s.comments ++ emitStatementImpl none previous rest s ++
              emitStatementRegion false (some s) rest
          else emitStatementRegion false previous rest

def emitCases : Cases ε δ ν → Pieces ε δ ν
  | .nil => []
  | .default region =>
      emitKeyword .default :: token .colon ::
        emitCaseRegion region (emitStatementRegion true none region)
  | .case value values region cases =>
      emitCaseValues value values ++
        (emitCaseRegion region (emitStatementRegion true none region) ++ emitCases cases)

end

/-- A statement of a region. -/
def emitStatement (previous : Option (Statement ε δ ν)) (following : List (Statement ε δ ν))
    (s : Statement ε δ ν) : Pieces ε δ ν :=
  emitComments s.comments ++ emitStatementImpl none previous following s

/-- The next statement of a chain. -/
def emitElseIf (emitBlocks : Bool) : List (Statement ε δ ν) → Pieces ε δ ν
  | [elseIf] => emitStatementImpl (some emitBlocks) none [] elseIf
  | _ => []

theorem emitStatementImpl_ifOp {comments : List Text} {condition : ε}
    {thenRegion elseRegion : List (Statement ε δ ν)}
    (chain : Option Bool) (previous : Option (Statement ε δ ν))
    (following : List (Statement ε δ ν)) {emitBlocks : Bool}
    (h : chain.getD (!mayElideIfStatementBraces (.ifOp comments condition thenRegion elseRegion)) =
      emitBlocks) :
    emitStatementImpl chain previous following (.ifOp comments condition thenRegion elseRegion) =
      emitHead .«if» condition ++
        (emitImplicitBlockStatement emitBlocks (emitStatementRegion true none thenRegion) ++
          (emitElse emitBlocks elseRegion (emitElseIf emitBlocks elseRegion)
            (emitImplicitBlockStatement emitBlocks (emitStatementRegion true none elseRegion)) ++
              (if chain.isNone && emitBlocks then [newline] else []))) := by
  subst h
  match elseRegion with
  | [] => rfl
  | [_] => rfl
  | _ :: _ :: _ => rfl

/-- A region in which no block is opened. -/
theorem emitStatementRegion_false (previous : Option (Statement ε δ ν)) (s : Statement ε δ ν)
    (region : List (Statement ε δ ν)) :
    emitStatementRegion false previous (s :: region) =
      if s.isVisible then
        emitStatement previous region s ++ emitStatementRegion false (some s) region
      else emitStatementRegion false previous region := rfl

theorem emitStatementRegion_cons {s : Statement ε δ ν} {region : List (Statement ε δ ν)}
    (opened : Bool) (previous : Option (Statement ε δ ν))
    (h : ∀ comments block, s = .blockStatement comments block → region ≠ []) :
    emitStatementRegion opened previous (s :: region) =
      emitStatementRegion false previous (s :: region) := by
  cases opened with
  | false => rfl
  | true =>
    cases s with
    | blockStatement comments block =>
      cases region with
      | nil => exact absurd rfl (h comments block rfl)
      | cons s' region => rfl
    | _ => rfl

/-- The body of a function. -/
def emitFunctionBody (body : List (Statement ε δ ν)) : Pieces ε δ ν :=
  token .leftBrace :: newline :: (emitStatementRegion false none body ++ [token .rightBrace, newline])

end

end CliftEmitC
