import Revng.CliftEmitC.Statements

/-!
# The grammar of C statements

A parser for the statements of C by recursive descent, where an `else` belongs to the nearest `if`
that is still open.  A label stands before a statement and a declaration stands only in a block.
The jumps of Clift are macros for `goto`.

What is parsed is read as statements of Clift.  The regions of a switch lie between its case labels,
each with the `break` at its end.
-/

namespace CliftEmitC

variable {ε δ ν : Type}

/-! ## Statements of C -/

inductive CStatement (ε δ ν : Type) where
  | label (name : Text) (statement : CStatement ε δ ν)
  /-- Without a value it is the default case. -/
  | case (value : Option ν) (statement : CStatement ε δ ν)
  | compound (items : List (CStatement ε δ ν))
  /-- Only an item of a block. -/
  | declaration (declaration : δ)
  | expression (expression : Option ε)
  | ifThen (condition : ε) (thenStatement : CStatement ε δ ν)
  | ifElse (condition : ε) (thenStatement elseStatement : CStatement ε δ ν)
  | switch (condition : ε) (body : CStatement ε δ ν)
  | while (condition : ε) (body : CStatement ε δ ν)
  | doWhile (body : CStatement ε δ ν) (condition : ε)
  | for (initializer : Option (ForInitializer ε δ)) (condition expression : Option ε)
      (body : CStatement ε δ ν)
  | goto (label : Text)
  | breakTo (label : Option Text)
  | continueTo (label : Option Text)
  | return (result : Option ε)

/-! ## The parser -/

def StatementPiece.token? : StatementPiece ε δ ν → Option (StatementToken ε δ ν)
  | token t => some t
  | _ => none

/-- The tokens among the pieces. -/
def statementTokens (pieces : Pieces ε δ ν) : List (StatementToken ε δ ν) :=
  pieces.filterMap StatementPiece.token?

@[simp] theorem statementTokens_space (ps : Pieces ε δ ν) :
    statementTokens (.space :: ps) = statementTokens ps := rfl

@[simp] theorem statementTokens_newline (ps : Pieces ε δ ν) :
    statementTokens (.newline :: ps) = statementTokens ps := rfl

@[simp] theorem statementTokens_lineComment (text : Text) (ps : Pieces ε δ ν) :
    statementTokens (.lineComment text :: ps) = statementTokens ps := rfl

@[simp] theorem statementTokens_token (t : StatementToken ε δ ν) (ps : Pieces ε δ ν) :
    statementTokens (.token t :: ps) = t :: statementTokens ps := rfl

@[simp] theorem statementTokens_keyword (k : StatementKeyword) (ps : Pieces ε δ ν) :
    statementTokens (emitKeyword k :: ps) = StatementToken.keyword k :: statementTokens ps := rfl

@[simp] theorem statementTokens_append (ps qs : Pieces ε δ ν) :
    statementTokens (ps ++ qs) = statementTokens ps ++ statementTokens qs := List.filterMap_append

@[simp] theorem statementTokens_emitComments (comments : List Text) (ps : Pieces ε δ ν) :
    statementTokens (emitComments comments ++ ps) = statementTokens ps := by
  induction comments with
  | nil => rfl
  | cons text comments ih => exact ih

@[simp] theorem statementTokens_emitEntityComment (comment : Text) (ps : Pieces ε δ ν) :
    statementTokens (emitEntityComment comment ++ ps) = statementTokens ps := by
  rw [emitEntityComment]
  split_ifs <;> rfl

section

open StatementToken

def expectToken (expected : StatementToken ε δ ν → Bool) :
    List (StatementToken ε δ ν) → Option (List (StatementToken ε δ ν))
  | t :: rest => if expected t then some rest else none
  | [] => none

def isSemicolon : StatementToken ε δ ν → Bool
  | semicolon => true
  | _ => false

def isRightParenthesis : StatementToken ε δ ν → Bool
  | rightParenthesis => true
  | _ => false

def parseOptionalExpression :
    List (StatementToken ε δ ν) → Option ε × List (StatementToken ε δ ν)
  | expression e :: rest => (some e, rest)
  | text => (none, text)

def parseForInitializer : List (StatementToken ε δ ν) →
    Option (ForInitializer ε δ) × List (StatementToken ε δ ν)
  | expression e :: rest => (some (.expressionStatement e), rest)
  | declaration d :: rest => (some (.localVariable [] d), rest)
  | text => (none, text)

/-- The two parts of a `for` statement before its body, and a semicolon after the first. -/
def parseForHead (text : List (StatementToken ε δ ν)) : Option ((Option (ForInitializer ε δ) ×
    Option ε × Option ε) × List (StatementToken ε δ ν)) := do
  let (initializer, text) := parseForInitializer text
  let text ← expectToken isSemicolon text
  let (condition, text) := parseOptionalExpression text
  let text ← expectToken isSemicolon text
  let (e, text) := parseOptionalExpression text
  let text ← expectToken isRightParenthesis text
  some ((initializer, condition, e), text)

/-- What comes after an `else` that the text begins with. -/
def afterElse? : List (StatementToken ε δ ν) → Option (List (StatementToken ε δ ν))
  | keyword .«else» :: text => some text
  | _ => none

mutual

def parseStatement : Nat → List (StatementToken ε δ ν) →
    Option (CStatement ε δ ν × List (StatementToken ε δ ν))
  | 0, _ => none
  | fuel + 1, identifier name :: colon :: text => do
      let (s, rest) ← parseStatement fuel text
      some (.label name s, rest)
  | fuel + 1, keyword .case :: value v :: colon :: text => do
      let (s, rest) ← parseStatement fuel text
      some (.case (some v) s, rest)
  | fuel + 1, keyword .default :: colon :: text => do
      let (s, rest) ← parseStatement fuel text
      some (.case none s, rest)
  | fuel + 1, leftBrace :: text => do
      let (items, rest) ← parseItems fuel text
      some (.compound items, rest)
  | _ + 1, semicolon :: rest => some (.expression none, rest)
  | _ + 1, expression e :: semicolon :: rest => some (.expression (some e), rest)
  | fuel + 1, keyword .«if» :: leftParenthesis :: expression e :: rightParenthesis :: text => do
      let (s, rest) ← parseStatement fuel text
      match afterElse? rest with
      | some text => do
          let (s', rest) ← parseStatement fuel text
          some (.ifElse e s s', rest)
      | none => some (.ifThen e s, rest)
  | fuel + 1, keyword .«switch» :: leftParenthesis :: expression e :: rightParenthesis :: text => do
      let (s, rest) ← parseStatement fuel text
      some (.switch e s, rest)
  | fuel + 1, keyword .while :: leftParenthesis :: expression e :: rightParenthesis :: text => do
      let (s, rest) ← parseStatement fuel text
      some (.while e s, rest)
  | fuel + 1, keyword .«do» :: text => do
      let (s, rest) ← parseStatement fuel text
      match rest with
      | keyword .while :: leftParenthesis :: expression e :: rightParenthesis :: semicolon :: rest =>
          some (.doWhile s e, rest)
      | _ => none
  | fuel + 1, keyword .«for» :: leftParenthesis :: text => do
      let ((initializer, condition, e), text) ← parseForHead text
      let (s, rest) ← parseStatement fuel text
      some (.for initializer condition e s, rest)
  | _ + 1, keyword .goto :: identifier label :: semicolon :: rest => some (.goto label, rest)
  | _ + 1, keyword .breakTo :: identifier label :: semicolon :: rest =>
      some (.breakTo (some label), rest)
  | _ + 1, keyword .continueTo :: identifier label :: semicolon :: rest =>
      some (.continueTo (some label), rest)
  | _ + 1, keyword .«break» :: semicolon :: rest => some (.breakTo none, rest)
  | _ + 1, keyword .«continue» :: semicolon :: rest => some (.continueTo none, rest)
  | _ + 1, keyword .«return» :: semicolon :: rest => some (.return none, rest)
  | _ + 1, keyword .«return» :: expression e :: semicolon :: rest => some (.return (some e), rest)
  | _ + 1, _ => none

/-- The items of a block, up to its right brace. -/
def parseItems : Nat → List (StatementToken ε δ ν) →
    Option (List (CStatement ε δ ν) × List (StatementToken ε δ ν))
  | 0, _ => none
  | _ + 1, rightBrace :: rest => some ([], rest)
  | fuel + 1, declaration d :: semicolon :: text => do
      let (items, rest) ← parseItems fuel text
      some (.declaration d :: items, rest)
  | fuel + 1, text => do
      let (s, text) ← parseStatement fuel text
      let (items, rest) ← parseItems fuel text
      some (s :: items, rest)

end

end

/-! ## Reading statements of Clift -/

/-- What stands in the body of a switch. -/
inductive SwitchItem (ε δ ν : Type) where
  | caseLabel (value : Option ν)
  | statement (s : Statement ε δ ν)

/-- The region without a block that it consists of. -/
def withoutBlock : List (Statement ε δ ν) → List (Statement ε δ ν)
  | [.blockStatement _ block] => block
  | region => region

def SwitchItem.toStatement? : SwitchItem ε δ ν → Option (Statement ε δ ν)
  | caseLabel _ => none
  | statement s => some s

def toRegion? (items : List (SwitchItem ε δ ν)) : Option (List (Statement ε δ ν)) :=
  (items.mapM SwitchItem.toStatement?).map withoutBlock

/-- The statements of a case, without a block that they consist of but for a `break`. -/
def openCase : List (Statement ε δ ν) → List (Statement ε δ ν)
  | [.blockStatement _ block, .breakTo comments none] => block ++ [.breakTo comments none]
  | region => withoutBlock region

/-- The statements before the first label, and the cases.  Labels that nothing stands between are
those of one region, and the default case is the last one. -/
def toCases? : List (SwitchItem ε δ ν) → Option (List (Statement ε δ ν) × Cases ε δ ν)
  | [] => some ([], .nil)
  | .statement s :: items => do
      let (region, cases) ← toCases? items
      some (s :: region, cases)
  | .caseLabel (some v) :: items => do
      match ← toCases? items with
      | ([], .case v' vs region cases) => some ([], .case v (v' :: vs) region cases)
      | (region, cases) => some ([], .case v [] (openCase region) cases)
  | .caseLabel none :: items => do
      match ← toCases? items with
      | (region, .nil) => some ([], .default (openCase region))
      | _ => none

/-- The cases of a switch, all of whose statements have a label before them. -/
def readCases? (items : List (SwitchItem ε δ ν)) : Option (Cases ε δ ν) := do
  match ← toCases? items with
  | ([], cases) => some cases
  | _ => none

/-- A label as jumps name it. -/
def Label.named (name : Text) : Label := ⟨name, []⟩

namespace CStatement

mutual

/-- The statements of Clift that it stands for, with the case labels that are not those of a switch
inside. -/
def read : CStatement ε δ ν → Option (List (SwitchItem ε δ ν))
  | label name s => do
      let items ← s.read
      some (.statement (.assignLabel [] (.named name)) :: items)
  | case value s => do
      let items ← s.read
      some (.caseLabel value :: items)
  | compound body => do
      let items ← readAll body
      let region ← toRegion? items
      some [.statement (.blockStatement [] region)]
  | declaration d => some [.statement (.localVariable [] [] d)]
  | expression none => some []
  | expression (some e) => some [.statement (.expressionStatement [] e)]
  | ifThen condition s => do
      let items ← s.read
      let region ← toRegion? items
      some [.statement (.ifOp [] condition region [])]
  | ifElse condition s s' => do
      let items ← s.read
      let region ← toRegion? items
      let items' ← s'.read
      let region' ← toRegion? items'
      some [.statement (.ifOp [] condition region region')]
  | switch condition (compound body) => do
      let items ← readAll body
      let cases ← readCases? items
      some [.statement (.switchOp [] condition cases)]
  | switch _ _ => none
  | «while» condition s => do
      let items ← s.read
      let region ← toRegion? items
      some [.statement (.whileOp [] ⟨none, none⟩ condition region)]
  | doWhile s condition => do
      let items ← s.read
      let region ← toRegion? items
      some [.statement (.doWhile [] ⟨none, none⟩ region condition)]
  | «for» initializer condition e s => do
      let items ← s.read
      let region ← toRegion? items
      some [.statement (.forOp [] ⟨none, none⟩ initializer condition e region)]
  | goto name => some [.statement (.goto [] (.named name))]
  | breakTo name => some [.statement (.breakTo [] (name.map .named))]
  | continueTo name => some [.statement (.continueTo [] (name.map .named))]
  | «return» result => some [.statement (.returnOp [] result)]

def readAll : List (CStatement ε δ ν) → Option (List (SwitchItem ε δ ν))
  | [] => some []
  | s :: body => do
      let items ← s.read
      let items' ← readAll body
      some (items ++ items')

end

/-! ## Falling off the end -/

mutual

/-- What comes after the statement may be reached from its end.  Only jumps rule it out. -/
def mayComplete : CStatement ε δ ν → Bool
  | label _ s => s.mayComplete
  | case _ s => s.mayComplete
  | compound body => mayCompleteAll body
  | goto _ => false
  | breakTo _ => false
  | continueTo _ => false
  | «return» _ => false
  | _ => true

def mayCompleteAll : List (CStatement ε δ ν) → Bool
  | [] => true
  | [s] => s.mayComplete
  | _ :: s :: body => mayCompleteAll (s :: body)

end

def isBreak : CStatement ε δ ν → Bool
  | breakTo none => true
  | _ => false

/-- The statement without the case labels before it, if there are some. -/
def unlabeled? : CStatement ε δ ν → Option (CStatement ε δ ν)
  | case _ (case value s) => unlabeled? (case value s)
  | case _ s => some s
  | _ => none

/-- The statements before the first case label, and those of each case. -/
def splitCases : List (CStatement ε δ ν) → List (CStatement ε δ ν) × List (List (CStatement ε δ ν))
  | [] => ([], [])
  | s :: body =>
      let (first, cases) := splitCases body
      match s.unlabeled? with
      | some s => ([], (s :: first) :: cases)
      | none => (s :: first, cases)

/-- At the end of a case there is at most one `break`, and there is one unless the end is not
reached. -/
def IsClosedCase (body : List (CStatement ε δ ν)) : Prop :=
  ∃ region breaks, body = region ++ breaks ∧ (∀ s ∈ region.getLast?, s.isBreak = false) ∧
    ((∃ s, breaks = [s] ∧ s.isBreak = true) ∨ (breaks = [] ∧ mayCompleteAll region = false))

mutual

/-- No case of a switch in the statement runs into the next one. -/
def ClosesCases : CStatement ε δ ν → Prop
  | label _ s => s.ClosesCases
  | case _ s => s.ClosesCases
  | compound body => ClosesCasesAll body
  | ifThen _ s => s.ClosesCases
  | ifElse _ s s' => s.ClosesCases ∧ s'.ClosesCases
  | switch _ (compound body) =>
      ClosesCasesAll body ∧ ∀ case ∈ (splitCases body).2, IsClosedCase case
  | switch _ _ => False
  | «while» _ s => s.ClosesCases
  | doWhile s _ => s.ClosesCases
  | «for» _ _ _ s => s.ClosesCases
  | _ => True

def ClosesCasesAll : List (CStatement ε δ ν) → Prop
  | [] => True
  | s :: body => s.ClosesCases ∧ ClosesCasesAll body

end

end CStatement

/-! ## Statements without what is not read -/

def Label.withoutComment (label : Label) : Label := .named label.name

def LoopLabels.atBreak (labels : LoopLabels) : List (Statement ε δ ν) :=
  match labels.breakLabel with
  | some label => [.assignLabel [] label.withoutComment]
  | none => []

def LoopLabels.atContinue (labels : LoopLabels) : List (Statement ε δ ν) :=
  match labels.continueLabel with
  | some label => [.assignLabel [] label.withoutComment]
  | none => []

def ForInitializer.withoutComment : ForInitializer ε δ → ForInitializer ε δ
  | expressionStatement e => expressionStatement e
  | localVariable _ d => localVariable [] d

/-- The one `break` at the end of a case that has a fallthrough. -/
def caseBreak (region : List (Statement ε δ ν)) : List (Statement ε δ ν) :=
  if hasFallthrough region then [.breakTo [] none] else []

mutual

/-- The statement without comments, without what is not printed and without redundant blocks.  The
labels of a loop are assigned where they are the target of a jump: after the loop, and at the end of
its body.  A case gets its `break`. -/
def Statement.normalize : Statement ε δ ν → List (Statement ε δ ν)
  | .makeLabel _ => []
  | .require => []
  | .assignLabel _ label => [.assignLabel [] label.withoutComment]
  | .localVariable _ _ d => [.localVariable [] [] d]
  | .expressionStatement _ e => [.expressionStatement [] e]
  | .goto _ label => [.goto [] label.withoutComment]
  | .breakTo _ label => [.breakTo [] (label.map .withoutComment)]
  | .continueTo _ label => [.continueTo [] (label.map .withoutComment)]
  | .returnOp _ result => [.returnOp [] result]
  | .ifOp _ condition thenRegion elseRegion =>
      [.ifOp [] condition (withoutBlock (normalizeRegion true thenRegion))
        (withoutBlock (normalizeRegion true elseRegion))]
  | .switchOp _ condition cases => [.switchOp [] condition (normalizeCases cases)]
  | .forOp _ labels initializer condition expression body =>
      .forOp [] ⟨none, none⟩ (initializer.map .withoutComment) condition expression
        (withoutBlock (normalizeRegion true body ++ labels.atContinue)) :: labels.atBreak
  | .whileOp _ labels condition body =>
      .whileOp [] ⟨none, none⟩ condition
        (withoutBlock (normalizeRegion true body ++ labels.atContinue)) :: labels.atBreak
  | .doWhile _ labels body condition =>
      .doWhile [] ⟨none, none⟩ (withoutBlock (normalizeRegion true body ++ labels.atContinue))
        condition :: labels.atBreak
  | .blockStatement _ block =>
      [.blockStatement [] (withoutBlock (normalizeRegion false block))]

/-- With `opened` a block that the region consists of stands for the region. -/
def normalizeRegion (opened : Bool) : List (Statement ε δ ν) → List (Statement ε δ ν)
  | [] => []
  | s :: rest =>
      match opened, s, rest with
      | true, .blockStatement _ block, [] => normalizeRegion false block
      | _, s, rest => s.normalize ++ normalizeRegion false rest

def normalizeCases : Cases ε δ ν → Cases ε δ ν
  | .nil => .nil
  | .default region => .default (withoutBlock (normalizeRegion true region) ++ caseBreak region)
  | .case value values region cases =>
      .case value values (withoutBlock (normalizeRegion true region) ++ caseBreak region)
        (normalizeCases cases)

end

end CliftEmitC
