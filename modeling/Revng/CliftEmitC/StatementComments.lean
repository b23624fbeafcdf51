import Revng.CliftEmitC.StatementLayout
import Revng.CliftEmitC.StatementWeight
import Revng.PTML.Comments

/-!
# Comments between statements

A comment is a line of its own, and one that ends in a backslash takes the next line into it.  What a
compiler reads of the pieces is `readTokens`, and `keepsLines` says that no line with a token is lost.
Otherwise the tokens that are read weigh less than the ones that are printed
(`laidOut_emitFunctionBody`).
-/

namespace CliftEmitC

open StatementPiece Statement

variable {ε δ ν : Type}

/-! ## The reader -/

/-- The comment is given to the emitter with a newline behind it. -/
def commentStrings (comment : Text) : List Text := [comment, ['\n']]

/-- The next line is a part of the comment. -/
def takesNextLine (comment : Text) : Bool :=
  decide (PTML.EndsInBackslash (commentStrings comment).flatten)

/-- The tokens that are read, from inside of a comment or not. -/
def readTokens : Bool → Pieces ε δ ν → List (StatementToken ε δ ν)
  | _, [] => []
  | inComment, space :: ps => readTokens inComment ps
  | _, newline :: ps => readTokens false ps
  | _, lineComment text :: ps => readTokens (takesNextLine text) ps
  | true, token _ :: ps => readTokens true ps
  | false, token t :: ps => t :: readTokens false ps

section Text

open CTrivia (skip splice)

/-- The text of the pieces, where the tokens are spelled as given. -/
def layoutText (spell : StatementToken ε δ ν → Text) : Pieces ε δ ν → Text
  | [] => []
  | space :: ps => ' ' :: layoutText spell ps
  | newline :: ps => '\n' :: layoutText spell ps
  | lineComment text :: ps => PTML.comment .line (commentStrings text) ++ layoutText spell ps
  | token t :: ps => spell t ++ layoutText spell ps

/-- A spelling is in one line and does not begin like whitespace or a comment. -/
structure IsSpelling (spell : StatementToken ε δ ν → Text) : Prop where
  begins : ∀ t, ∃ c rest, spell t = c :: rest ∧ CTrivia.Mode.between.step c = none
  line : ∀ t, '\n' ∉ spell t
  backslash : ∀ t, (spell t).getLast? ≠ some '\\'

def readMode (inComment : Bool) : CTrivia.Mode := if inComment then .line else .between

theorem skip_comment (inComment : Bool) (comment after : Text) :
    skip (readMode inComment) (splice (PTML.comment .line (commentStrings comment) ++ after)) =
      skip (readMode (takesNextLine comment)) (splice after) := by
  have hmode : skip (readMode (takesNextLine comment)) (splice after) =
      if PTML.EndsInBackslash (commentStrings comment).flatten then skip .line (splice after)
      else skip .between (splice after) := by
    rw [readMode, takesNextLine]
    split_ifs <;> simp_all
  rw [hmode]
  cases inComment with
  | false => exact PTML.skip_comment_line _ after
  | true =>
    -- the slashes are a part of the comment before
    rw [PTML.comment_line, List.cons_append, List.cons_append,
      CTrivia.splice_cons_of_ne (by decide), CTrivia.splice_cons_of_ne (by decide),
      List.append_assoc]
    exact PTML.skip_prefixed (commentStrings comment).flatten List.not_mem_nil after

/-- The tokens that are read are those of the text: after comments and whitespace it goes on with the
first of them. -/
theorem skip_layoutText {spell : StatementToken ε δ ν → Text} (h : IsSpelling spell)
    (inComment : Bool) (ps : Pieces ε δ ν) :
    (readTokens inComment ps = [] ∧
        skip (readMode inComment) (splice (layoutText spell ps)) = some []) ∨
      ∃ t rest, readTokens inComment ps = t :: readTokens false rest ∧
        skip (readMode inComment) (splice (layoutText spell ps)) =
          some (spell t ++ splice (layoutText spell rest)) := by
  induction ps generalizing inComment with
  | nil =>
    cases inComment <;> exact .inl ⟨rfl, rfl⟩
  | cons p ps ih =>
    cases p with
    | space =>
      rw [layoutText, CTrivia.splice_cons_of_ne (by decide)]
      cases inComment with
      | false => exact ih false
      | true => exact ih true
    | newline =>
      rw [layoutText, CTrivia.splice_cons_of_ne (by decide)]
      cases inComment <;> exact ih false
    | lineComment comment =>
      rw [layoutText, skip_comment]
      cases inComment <;> exact ih (takesNextLine comment)
    | token t =>
      have hsplice : splice (spell t ++ layoutText spell ps) =
          spell t ++ splice (layoutText spell ps) := by
        rw [CTrivia.splice_append fun hlast => absurd hlast (h.backslash t),
          CTrivia.splice_line (h.line t)]
      rw [layoutText, hsplice]
      cases inComment with
      | false =>
        obtain ⟨c, rest, hspell, hstep⟩ := h.begins t
        refine .inr ⟨t, ps, rfl, ?_⟩
        rw [hspell, List.cons_append, readMode, if_neg nofun, skip, hstep]
        rfl
      | true =>
        have hskip : skip (readMode true) (spell t ++ splice (layoutText spell ps)) =
            skip (readMode true) (splice (layoutText spell ps)) :=
          CTrivia.skip_append (CTrivia.run_line (h.line t)) _
        rw [hskip]
        exact ih true

end Text

/-! ## Bodies that keep their lines -/

/-- The last comment takes what comes after it. -/
def takesStatement (comments : List Text) : Bool := comments.getLast?.any takesNextLine

/-- A newline or another comment comes before the first word of the statement. -/
def Statement.isDetached (previous : Option (Statement ε δ ν)) : Statement ε δ ν → Bool
  | assignLabel _ label => previous.any (!·.isAssignLabel) || !label.comment.isEmpty
  | localVariable _ comment _ =>
      previous.any (fun s => !(s.isLocalVariable || s.isAssignLabel)) || !comment.isEmpty
  | _ => false

/-- The comments of the statement do not take its first line. -/
def Statement.keepsComments (previous : Option (Statement ε δ ν)) (s : Statement ε δ ν) : Bool :=
  s.isDetached previous || !takesStatement s.comments

def keepsLabel (label : Option Label) : Bool := label.all (!takesNextLine ·.comment)

def ForInitializer.keepsLines : ForInitializer ε δ → Bool
  | expressionStatement _ => true
  | localVariable comment _ => !takesNextLine comment

mutual

/-- No comment inside of the statement takes a line with a token. -/
def Statement.keepsLines : Statement ε δ ν → Bool
  | .assignLabel _ label => !takesNextLine label.comment
  | .localVariable _ comment _ => !takesNextLine comment
  | .ifOp _ _ thenRegion elseRegion =>
      regionKeepsLines true none thenRegion &&
        match elseRegion with
        | [elseIf] =>
            -- the comments of a chained statement are not printed
            if elseIf.isIf then elseIf.keepsLines else regionKeepsLines true none [elseIf]
        | elseRegion => regionKeepsLines true none elseRegion
  | .switchOp _ _ cases => casesKeepLines cases
  | .forOp _ labels initializer _ _ body =>
      initializer.all ForInitializer.keepsLines && (regionKeepsLines true none body &&
        keepsLabel labels.continueLabel && keepsLabel labels.breakLabel)
  | .whileOp _ labels _ body =>
      regionKeepsLines true none body && keepsLabel labels.continueLabel &&
        keepsLabel labels.breakLabel
  | .doWhile _ labels body _ =>
      regionKeepsLines true none body && keepsLabel labels.continueLabel &&
        keepsLabel labels.breakLabel
  | .blockStatement _ block => regionKeepsLines false none block
  | _ => true

def regionKeepsLines (opened : Bool) (previous : Option (Statement ε δ ν)) :
    List (Statement ε δ ν) → Bool
  | [] => true
  | s :: rest =>
      match opened, s, rest with
      | true, .blockStatement _ block, [] => regionKeepsLines false none block
      | _, s, rest =>
          if s.isVisible then
            s.keepsComments previous && s.keepsLines && regionKeepsLines false (some s) rest
          else regionKeepsLines false previous rest

def casesKeepLines : Cases ε δ ν → Bool
  | .nil => true
  | .default region => regionKeepsLines true none region
  | .case _ _ region cases => regionKeepsLines true none region && casesKeepLines cases

end

/-! ## Tokens that are kept -/

/-- All tokens of the pieces are read.  Otherwise some weight is lost. -/
def KeepsTokens : Bool → Pieces ε δ ν → Prop
  | true, ps => ∀ rest, readTokens false (ps ++ rest) = statementTokens ps ++ readTokens false rest
  | false, ps => ∀ rest, textWeight (readTokens false (ps ++ rest)) <
      textWeight (statementTokens ps) + textWeight (readTokens false rest)

/-- The weight of the tokens up to a newline or a comment. -/
def lineWeight : Pieces ε δ ν → Int
  | space :: ps => lineWeight ps
  | token t :: ps => t.weight + lineWeight ps
  | _ => 0

/-- The first line of the pieces has tokens, whatever comes after them. -/
def StartsLine (ps : Pieces ε δ ν) : Prop := ∀ rest, 0 < lineWeight (ps ++ rest)

/-- The pieces begin with the rest of a line. -/
def EndsLine (ps : Pieces ε δ ν) : Prop := ∀ rest, 0 ≤ lineWeight (ps ++ rest)

section

variable {ps qs : Pieces ε δ ν} {keeps keeps' : Bool}

theorem KeepsTokens.weight_le (h : KeepsTokens keeps ps) (rest : Pieces ε δ ν) :
    textWeight (readTokens false (ps ++ rest)) ≤
      textWeight (statementTokens ps) + textWeight (readTokens false rest) := by
  cases keeps with
  | true =>
    have hread := congrArg textWeight (h rest)
    rw [textWeight_append] at hread
    omega
  | false => exact Int.le_of_lt (h rest)

theorem KeepsTokens.append (h : KeepsTokens keeps ps) (h' : KeepsTokens keeps' qs) :
    KeepsTokens (keeps && keeps') (ps ++ qs) := by
  cases keeps with
  | true =>
    cases keeps' with
    | true =>
      intro rest
      rw [List.append_assoc, h, h', statementTokens_append, List.append_assoc]
    | false =>
      intro rest
      have hlost := h' rest
      rw [List.append_assoc, h, statementTokens_append, textWeight_append, textWeight_append]
      omega
  | false =>
    intro rest
    have hlost := h (qs ++ rest)
    have hle := h'.weight_le rest
    rw [List.append_assoc, statementTokens_append, textWeight_append]
    omega

/-- A comment that takes the line loses its weight. -/
theorem weight_readTokens (ps : Pieces ε δ ν) :
    textWeight (readTokens true ps) + lineWeight ps = textWeight (readTokens false ps) := by
  induction ps with
  | nil => rfl
  | cons p ps ih =>
    cases p with
    | space => exact ih
    | newline => exact Int.add_zero _
    | lineComment text => exact Int.add_zero _
    | token t =>
      simp only [readTokens, lineWeight, textWeight, ← ih]
      omega

theorem KeepsTokens.congr (h : KeepsTokens keeps ps)
    (hread : ∀ rest, readTokens false (qs ++ rest) = readTokens false (ps ++ rest))
    (htokens : statementTokens qs = statementTokens ps) : KeepsTokens keeps qs := by
  cases keeps <;>
  · intro rest
    rw [hread, htokens]
    exact h rest

/-- Comments before a line take it, unless a newline or another comment comes first. -/
theorem KeepsTokens.comments (h : KeepsTokens keeps ps) {takes isDetached : Bool}
    (hcomments : ∀ rest, readTokens false (qs ++ rest) = readTokens takes rest)
    (htokens : statementTokens (qs ++ ps) = statementTokens ps)
    (hstarts : isDetached = false → StartsLine ps)
    (hdetached : isDetached = true →
      ∀ rest, readTokens true (ps ++ rest) = readTokens false (ps ++ rest)) :
    KeepsTokens ((isDetached || !takes) && keeps) (qs ++ ps) := by
  have hread : ∀ rest, readTokens false (qs ++ ps ++ rest) = readTokens takes (ps ++ rest) := by
    intro rest
    rw [List.append_assoc, hcomments]
  cases takes with
  | false =>
    rw [Bool.not_false, Bool.or_true, Bool.true_and]
    exact h.congr hread htokens
  | true =>
    cases isDetached with
    | true => exact h.congr (fun rest => (hread rest).trans (hdetached rfl rest)) htokens
    | false =>
      intro rest
      have hle := h.weight_le rest
      have hpos := hstarts rfl rest
      have hline := weight_readTokens (ps ++ rest)
      rw [hread, htokens]
      omega

theorem readTokens_emitComments (comments : List Text) (ps : Pieces ε δ ν) :
    readTokens false (emitComments comments ++ ps) = readTokens (takesStatement comments) ps := by
  induction comments with
  | nil => rfl
  | cons comment comments ih =>
    cases comments with
    | nil => rfl
    | cons comment' comments => exact ih

end

/-! ## Layout -/

/-- The words do not touch, and the tokens are kept. -/
structure LaidOut (keeps : Bool) (ps : Pieces ε δ ν) : Prop where
  apart : IsApart ps
  keeps : KeepsTokens keeps ps

namespace LaidOut

variable {ps qs : Pieces ε δ ν} {keeps keeps' : Bool}

theorem append (h : LaidOut keeps ps) (h' : LaidOut keeps' qs) :
    LaidOut (keeps && keeps') (ps ++ qs) := ⟨h.apart.append h'.apart, h.keeps.append h'.keeps⟩

theorem append_true (h : LaidOut keeps ps) (h' : LaidOut true qs) : LaidOut keeps (ps ++ qs) := by
  rw [← Bool.and_true keeps]
  exact h.append h'

theorem ite (h : LaidOut keeps ps) (h' : LaidOut keeps qs) (b : Bool) :
    LaidOut keeps (if b then ps else qs) := by
  cases b with
  | true => exact h
  | false => exact h'

theorem nil : LaidOut true ([] : Pieces ε δ ν) := ⟨rfl, fun _ => rfl⟩

theorem space : LaidOut true ([space] : Pieces ε δ ν) := ⟨rfl, fun _ => rfl⟩

theorem newline : LaidOut true ([newline] : Pieces ε δ ν) := ⟨rfl, fun _ => rfl⟩

theorem braces (h : LaidOut keeps ps) :
    LaidOut keeps (token .leftBrace :: .newline :: (ps ++ [token .rightBrace, .newline])) := by
  have hopen : LaidOut true ([token .leftBrace, .newline] : Pieces ε δ ν) := ⟨rfl, fun _ => rfl⟩
  have hclose : LaidOut true ([token .rightBrace, .newline] : Pieces ε δ ν) := ⟨rfl, fun _ => rfl⟩
  exact hopen.append (h.append_true hclose)

theorem optional (h : LaidOut true ps) (b : Bool) : LaidOut true (if b then ps else []) := h.ite nil b

/-- The comment of an entity before its line. -/
theorem entityComment (h : LaidOut keeps ps) (hstarts : StartsLine ps) (comment : Text) :
    LaidOut (!takesNextLine comment && keeps) (emitEntityComment comment ++ ps) := by
  have hread : ∀ rest : Pieces ε δ ν, readTokens false (emitEntityComment comment ++ rest) =
      readTokens (takesNextLine comment) rest := by
    intro rest
    rw [emitEntityComment]
    split_ifs with hempty
    · subst hempty
      rfl
    · rfl
  have hkeeps : KeepsTokens ((false || !takesNextLine comment) && keeps)
      (emitEntityComment comment ++ ps) :=
    h.keeps.comments hread (statementTokens_emitEntityComment comment ps) (fun _ => hstarts)
      fun hfalse => absurd hfalse Bool.false_ne_true
  exact ⟨(isApart_emitEntityComment comment).append h.apart, hkeeps⟩

end LaidOut

/-! ## Parts of statements -/

section

variable {ps : Pieces ε δ ν} {keeps : Bool}

theorem startsLine_label (name : Text) (requiresEmptyExpression : Bool) :
    StartsLine (token (.identifier name) :: token .colon ::
      ((if requiresEmptyExpression then [space, token .semicolon] else []) ++ [newline]) :
        Pieces ε δ ν) := by
  cases requiresEmptyExpression <;> exact fun _ => Int.one_pos

theorem laidOut_label (label : Label) (requiresEmptyExpression : Bool) :
    LaidOut (!takesNextLine label.comment)
      (emitLabelStatementImpl label requiresEmptyExpression : Pieces ε δ ν) := by
  have hlabel : LaidOut true (token (.identifier label.name) :: token .colon ::
      ((if requiresEmptyExpression then [space, token .semicolon] else []) ++ [newline]) :
        Pieces ε δ ν) := by
    cases requiresEmptyExpression <;> exact ⟨rfl, fun _ => rfl⟩
  rw [← Bool.and_true (!takesNextLine label.comment)]
  exact hlabel.entityComment (startsLine_label _ _) label.comment

theorem laidOut_optionalLabel (label : Option Label) (requiresEmptyExpression : Bool) :
    LaidOut (keepsLabel label) (match label with
      | some label => emitLabelStatementImpl label requiresEmptyExpression
      | none => ([] : Pieces ε δ ν)) := by
  cases label with
  | none => exact .nil
  | some label => exact laidOut_label label requiresEmptyExpression

/-- What comes after the body of a loop. -/
theorem laidOut_breakLabel (labels : LoopLabels) (body following : List (Statement ε δ ν)) :
    LaidOut (keepsLabel labels.breakLabel)
      ((if loopBodyHasBraces labels body then [newline] else []) ++
        emitBreakLabelStatement labels following) :=
  (LaidOut.newline.optional _).append (laidOut_optionalLabel labels.breakLabel _)

theorem laidOut_separator (previous : Option (Statement ε δ ν))
    (isSimilar : Statement ε δ ν → Bool) : LaidOut true (emitSeparator previous isSimilar) := by
  cases previous with
  | none => exact .nil
  | some s => exact LaidOut.nil.ite .newline (isSimilar s)

/-- A body after what stands in its line. -/
theorem LaidOut.implicitBlock (h : LaidOut keeps ps) (line : Pieces ε δ ν)
    (hline : WordsApart line ∧ KeepsTokens true line) (emitBlock : Bool) :
    LaidOut keeps (line ++ emitImplicitBlockStatement emitBlock ps) := by
  refine ⟨h.apart.implicitBlock hline.1 emitBlock, hline.2.append ?_⟩
  cases emitBlock with
  | true =>
    have hbrace : LaidOut true ([token .rightBrace] : Pieces ε δ ν) := ⟨rfl, fun _ => rfl⟩
    have hopen : KeepsTokens true ([.space, token .leftBrace, .newline] : Pieces ε δ ν) :=
      fun _ => rfl
    exact hopen.append (h.append_true hbrace).keeps
  | false => exact LaidOut.newline.keeps.append h.keeps

theorem LaidOut.loopBody (h : LaidOut keeps ps) (line : Pieces ε δ ν)
    (hline : WordsApart line ∧ KeepsTokens true line) (labels : LoopLabels)
    (body : List (Statement ε δ ν)) :
    LaidOut (keeps && keepsLabel labels.continueLabel) (line ++ emitLoopBody labels body ps) := by
  obtain ⟨breakLabel, continueLabel⟩ := labels
  cases continueLabel with
  | none =>
    rw [keepsLabel, Option.all_none, Bool.and_true]
    exact h.implicitBlock line hline _
  | some label =>
    have hlabel := LaidOut.newline.append (laidOut_label (ε := ε) (δ := δ) (ν := ν) label true)
    exact (h.append hlabel).implicitBlock line hline _

theorem LaidOut.caseRegion (h : LaidOut keeps ps) (region : List (Statement ε δ ν)) :
    LaidOut keeps (emitCaseRegion region ps) := by
  have hbreak : LaidOut true (emitPlainJump .«break» : Pieces ε δ ν) := ⟨rfl, fun _ => rfl⟩
  have hblock := h.implicitBlock [] ⟨rfl, fun _ => rfl⟩ !mayElideRegionBraces region
  exact hblock.append_true (((LaidOut.space.ite .newline _).optional _).append (hbreak.optional _))

theorem laidOut_emitCaseValues (v : ν) (values : List ν) :
    LaidOut true (emitCaseValues v values : Pieces ε δ ν) := by
  have hfirst : LaidOut true ([emitKeyword .case, space, token (.value v), token .colon] :
      Pieces ε δ ν) := ⟨rfl, fun _ => rfl⟩
  have hmore : LaidOut true (values.flatMap fun v => [newline, emitKeyword .case, space,
      token (.value v), token .colon] : Pieces ε δ ν) := by
    induction values with
    | nil => exact .nil
    | cons v values ih =>
      have hnext : LaidOut true ([newline, emitKeyword .case, space, token (.value v),
          token .colon] : Pieces ε δ ν) := ⟨rfl, fun _ => rfl⟩
      exact hnext.append ih
  exact hfirst.append hmore

end

/-! ## The first line of a statement -/

section

variable {ps : Pieces ε δ ν} {keeps : Bool} {first second : Option ε} {s : Statement ε δ ν}
  {previous : Option (Statement ε δ ν)} {isSimilar : Statement ε δ ν → Bool} {comment : Text}

/-- A label or a variable without anything before it. -/
theorem startsLine_entity (hstarts : StartsLine ps)
    (h : (previous.any (!isSimilar ·) || !comment.isEmpty) = false) :
    StartsLine (emitSeparator previous isSimilar ++ (emitEntityComment comment ++ ps)) := by
  rw [Bool.or_eq_false_iff, Bool.not_eq_false', List.isEmpty_iff] at h
  obtain ⟨hprevious, rfl⟩ := h
  have hseparator : emitSeparator previous isSimilar = [] := by
    cases previous with
    | none => rfl
    | some s => exact if_pos ((Bool.not_eq_false' _).mp hprevious)
  rw [hseparator]
  exact hstarts

/-- The separator or the comment comes first. -/
theorem readTokens_entity (h : (previous.any (!isSimilar ·) || !comment.isEmpty) = true)
    (rest : Pieces ε δ ν) :
    readTokens true (emitSeparator previous isSimilar ++ (emitEntityComment comment ++ ps) ++ rest) =
      readTokens false
        (emitSeparator previous isSimilar ++ (emitEntityComment comment ++ ps) ++ rest) := by
  have hcomment : comment ≠ [] → readTokens true (emitEntityComment comment ++ ps ++ rest) =
      readTokens false (emitEntityComment comment ++ ps ++ rest) := by
    intro hne
    rw [emitEntityComment, if_neg hne]
    rfl
  rw [Bool.or_eq_true, Bool.not_eq_true', List.isEmpty_eq_false_iff] at h
  cases previous with
  | none => exact hcomment (h.resolve_left Bool.false_ne_true)
  | some s =>
    rw [emitSeparator]
    split_ifs with hsimilar
    · exact hcomment (h.resolve_left (by simp [hsimilar]))
    · rfl

theorem readTokens_of_isDetached (h : s.isDetached previous = true)
    (following : List (Statement ε δ ν)) (rest : Pieces ε δ ν) :
    readTokens true (emitStatementImpl none previous following s ++ rest) =
      readTokens false (emitStatementImpl none previous following s ++ rest) := by
  cases s with
  | assignLabel comments label => exact readTokens_entity h rest
  | localVariable comments comment d => exact readTokens_entity h rest
  | _ => cases h

theorem EndsLine.append (h : EndsLine ps) (qs : Pieces ε δ ν) : EndsLine (ps ++ qs) := by
  intro rest
  rw [List.append_assoc]
  exact h (qs ++ rest)

theorem endsLine_implicitBlock (emitBlock : Bool) (region : Pieces ε δ ν) :
    EndsLine (emitImplicitBlockStatement emitBlock region) := by
  cases emitBlock with
  | true => exact fun _ => Int.zero_le_ofNat 1
  | false => exact fun _ => Int.le_refl 0

/-- What comes after the initializer of a `for` statement. -/
def emitForTail (first second : Option ε) : Pieces ε δ ν :=
  emitOptionalExpression first ++ token .semicolon ::
    (emitOptionalExpression second ++ [token .rightParenthesis])

theorem EndsLine.forTail (h : EndsLine ps) (first second : Option ε) :
    EndsLine (emitForTail first second ++ ps) := by
  intro rest
  have hrest := h rest
  cases first <;> cases second <;>
  · simp only [emitForTail, emitOptionalExpression, List.cons_append, List.nil_append, lineWeight,
      StatementToken.weight]
    omega

theorem startsLine_emitHead (h : EndsLine ps) {k : StatementKeyword} (condition : ε)
    (hk : (.keyword k : StatementToken ε δ ν).weight = 1) :
    StartsLine (emitHead k condition ++ ps) := by
  intro rest
  have hrest := h rest
  show 0 < (.keyword k : StatementToken ε δ ν).weight +
    (0 + (1 + (0 + lineWeight (ps ++ rest))))
  omega

theorem startsLine_emitForHead (initializer : Option (ForInitializer ε δ)) (h : EndsLine ps) :
    StartsLine (emitForHead initializer first second ++ ps) := by
  intro rest
  have hrest := h.forTail first second rest
  simp only [emitForTail, List.append_assoc, List.cons_append, List.nil_append] at hrest
  rw [emitForHead]
  rcases initializer with _ | ⟨e⟩ | ⟨comment, d⟩
  · simp only [emitForInitializer, emitKeyword, List.append_assoc, List.cons_append,
      List.nil_append, lineWeight, StatementToken.weight]
    omega
  · exact (by decide : (0 : Int) < 2)
  · rw [emitForInitializer, emitEntityComment]
    split_ifs
    · simp only [emitKeyword, List.append_assoc, List.cons_append, List.nil_append, lineWeight,
        StatementToken.weight]
      omega
    · exact Int.one_pos

/-- A `for` statement up to its body, with the comment of its variable. -/
theorem LaidOut.forHead (hbody : LaidOut keeps (emitForTail first second ++ ps)) (h : EndsLine ps)
    (initializer : Option (ForInitializer ε δ)) :
    LaidOut (initializer.all ForInitializer.keepsLines && keeps)
      (emitForHead initializer first second ++ ps) := by
  have hopen : LaidOut true ([emitKeyword .«for», .space, .token .leftParenthesis] :
      Pieces ε δ ν) := ⟨rfl, fun _ => rfl⟩
  have hhead : LaidOut (initializer.all ForInitializer.keepsLines && keeps)
      (emitForInitializer initializer ++ (emitForTail first second ++ ps)) := by
    rcases initializer with _ | ⟨e⟩ | ⟨comment, d⟩
    · have hsemicolon : LaidOut true ([.token .semicolon] : Pieces ε δ ν) := ⟨rfl, fun _ => rfl⟩
      exact hsemicolon.append hbody
    · have hexpression : LaidOut true ([.token (.expression e), .token .semicolon, .newline] :
          Pieces ε δ ν) := ⟨rfl, fun _ => rfl⟩
      exact hexpression.append hbody
    · have hdeclaration : LaidOut true ([.token (.declaration d), .token .semicolon] :
          Pieces ε δ ν) := ⟨rfl, fun _ => rfl⟩
      have hline : StartsLine ([.token (.declaration d), .token .semicolon] ++
          (emitForTail first second ++ ps)) := by
        intro rest
        have hrest := h.forTail first second rest
        show 0 < 1 + (0 + lineWeight (emitForTail first second ++ ps ++ rest))
        omega
      have hcomment := (hdeclaration.append hbody).entityComment hline comment
      rw [← List.append_assoc] at hcomment
      exact hcomment
  rw [← List.append_assoc (emitForInitializer initializer)] at hhead
  exact hopen.append hhead

theorem startsLine_emitStatementImpl (hvisible : s.isVisible = true)
    (h : s.isDetached previous = false) (following : List (Statement ε δ ν)) :
    StartsLine (emitStatementImpl none previous following s) := by
  have htwo : (0 : Int) < 2 := by decide
  cases s with
  | makeLabel label => cases hvisible
  | require => cases hvisible
  | assignLabel comments label => exact startsLine_entity (startsLine_label _ _) h
  | localVariable comments comment d => exact startsLine_entity (fun _ => Int.one_pos) h
  | expressionStatement comments e => exact fun _ => Int.one_pos
  | goto comments label => exact fun _ => htwo
  | breakTo comments label =>
    cases label with
    | some label => exact fun _ => htwo
    | none => exact fun _ => Int.one_pos
  | continueTo comments label =>
    cases label with
    | some label => exact fun _ => htwo
    | none => exact fun _ => Int.one_pos
  | returnOp comments result =>
    cases result with
    | some e => exact fun _ => htwo
    | none => exact fun _ => Int.one_pos
  | ifOp comments condition thenRegion elseRegion =>
    rw [emitStatementImpl_ifOp none previous following rfl]
    exact startsLine_emitHead ((endsLine_implicitBlock _ _).append _) condition rfl
  | switchOp comments condition cases => exact fun _ => (by decide : (0 : Int) < 3)
  | forOp comments labels initializer condition e body =>
    exact startsLine_emitForHead initializer ((endsLine_implicitBlock _ _).append _)
  | whileOp comments labels condition body =>
    exact startsLine_emitHead ((endsLine_implicitBlock _ _).append _) condition rfl
  | doWhile comments labels body condition =>
    exact fun rest => Int.add_pos_of_pos_of_nonneg Int.one_pos
      ((endsLine_implicitBlock _ _).append _ rest)
  | blockStatement comments block => exact fun _ => Int.one_pos

end

/-! ## Statements -/

section

variable {s : Statement ε δ ν} {elseRegion : List (Statement ε δ ν)}

/-- A statement of a region, with its comments. -/
theorem LaidOut.statement {previous : Option (Statement ε δ ν)}
    {following : List (Statement ε δ ν)} (hvisible : s.isVisible = true)
    (h : LaidOut s.keepsLines (emitStatementImpl none previous following s)) :
    LaidOut (s.keepsComments previous && s.keepsLines) (emitStatement previous following s) :=
  ⟨(isApart_emitComments s.comments).append h.apart,
    h.keeps.comments (readTokens_emitComments s.comments) (statementTokens_emitComments s.comments _)
      (fun hdetached => startsLine_emitStatementImpl hvisible hdetached following)
      fun hdetached => readTokens_of_isDetached hdetached following⟩

theorem regionKeepsLines_false (previous : Option (Statement ε δ ν)) (s : Statement ε δ ν)
    (region : List (Statement ε δ ν)) :
    regionKeepsLines false previous (s :: region) =
      if s.isVisible then
        s.keepsComments previous && s.keepsLines && regionKeepsLines false (some s) region
      else regionKeepsLines false previous region := rfl

theorem regionKeepsLines_cons {region : List (Statement ε δ ν)} (opened : Bool)
    (previous : Option (Statement ε δ ν))
    (h : ∀ comments block, s = .blockStatement comments block → region ≠ []) :
    regionKeepsLines opened previous (s :: region) =
      regionKeepsLines false previous (s :: region) := by
  cases opened with
  | false => rfl
  | true =>
    cases s with
    | blockStatement comments block =>
      cases region with
      | nil => exact absurd rfl (h comments block rfl)
      | cons s' region => rfl
    | _ => rfl

/-- What comes after an `else`. -/
def elseKeepsLines : List (Statement ε δ ν) → Bool
  | [elseIf] => if elseIf.isIf then elseIf.keepsLines else regionKeepsLines true none [elseIf]
  | elseRegion => regionKeepsLines true none elseRegion

theorem laidOut_emitElse {emitBlocks : Bool}
    (helseIf : ∀ s, elseRegion = [s] →
      LaidOut s.keepsLines (emitStatementImpl (some emitBlocks) none [] s))
    (helse : LaidOut (regionKeepsLines true none elseRegion)
      (emitStatementRegion true none elseRegion)) :
    LaidOut (elseKeepsLines elseRegion) (emitElse emitBlocks elseRegion
      (emitElseIf emitBlocks elseRegion) (emitImplicitBlockStatement emitBlocks
        (emitStatementRegion true none elseRegion))) := by
  have hspace : LaidOut true (if emitBlocks then [space] else [] : Pieces ε δ ν) :=
    LaidOut.space.optional _
  have hblock : LaidOut (regionKeepsLines true none elseRegion) ([emitKeyword .«else»] ++
      emitImplicitBlockStatement emitBlocks (emitStatementRegion true none elseRegion)) :=
    helse.implicitBlock [emitKeyword .«else»] ⟨rfl, fun _ => rfl⟩ emitBlocks
  match elseRegion with
  | [] => exact .nil
  | [s] =>
    rw [emitElse, List.isEmpty_cons, if_neg Bool.false_ne_true, elseKeepsLines, isElseIf]
    by_cases hif : s.isIf = true
    · rw [if_pos hif, if_pos hif]
      have hkeyword : LaidOut true ([emitKeyword .«else», .space] : Pieces ε δ ν) :=
        ⟨rfl, fun _ => rfl⟩
      exact hspace.append (hkeyword.append (helseIf s rfl))
    · rw [if_neg hif, if_neg hif]
      exact hspace.append hblock
  | s :: s' :: region => exact hspace.append hblock

end

mutual

theorem laidOut_emitStatementImpl : ∀ (s : Statement ε δ ν) (chain : Option Bool)
    (previous : Option (Statement ε δ ν)) (following : List (Statement ε δ ν)),
      LaidOut s.keepsLines (emitStatementImpl chain previous following s)
  | .makeLabel _, _, _, _ => LaidOut.nil
  | .require, _, _, _ => LaidOut.nil
  | .assignLabel _ label, _, previous, _ =>
    (laidOut_separator previous _).append (laidOut_label label _)
  | .localVariable _ comment d, _, previous, _ => by
      have hline : LaidOut true ([token (.declaration d), token .semicolon, newline] :
          Pieces ε δ ν) := ⟨rfl, fun _ => rfl⟩
      have hentity := hline.entityComment (fun _ => Int.one_pos) comment
      rw [Bool.and_true] at hentity
      exact (laidOut_separator previous _).append hentity
  | .expressionStatement _ _, _, _, _ => ⟨rfl, fun _ => rfl⟩
  | .goto _ _, _, _, _ => ⟨rfl, fun _ => rfl⟩
  | .breakTo _ (some _), _, _, _ => ⟨rfl, fun _ => rfl⟩
  | .breakTo _ none, _, _, _ => ⟨rfl, fun _ => rfl⟩
  | .continueTo _ (some _), _, _, _ => ⟨rfl, fun _ => rfl⟩
  | .continueTo _ none, _, _, _ => ⟨rfl, fun _ => rfl⟩
  | .returnOp _ (some _), _, _, _ => ⟨rfl, fun _ => rfl⟩
  | .returnOp _ none, _, _, _ => ⟨rfl, fun _ => rfl⟩
  | .ifOp comments condition thenRegion elseRegion, chain, previous, following => by
      have hthen := laidOut_emitStatementRegion thenRegion true none
      have helse := laidOut_emitStatementRegion elseRegion true none
      have helseIf : ∀ emitBlocks s, elseRegion = [s] →
          LaidOut s.keepsLines (emitStatementImpl (some emitBlocks) none [] s) := by
        intro emitBlocks
        match elseRegion with
        | [] => nofun
        | [elseIf] =>
          intro s heq
          cases heq
          exact laidOut_emitStatementImpl elseIf _ _ _
        | _ :: _ :: _ => nofun
      have hkeeps : (Statement.ifOp comments condition thenRegion elseRegion).keepsLines =
          (regionKeepsLines true none thenRegion && elseKeepsLines elseRegion) := by
        match elseRegion with
        | [] => rfl
        | [_] => rfl
        | _ :: _ :: _ => rfl
      rw [emitStatementImpl_ifOp chain previous following rfl, hkeeps, ← List.append_assoc]
      exact (hthen.implicitBlock (emitHead .«if» condition) ⟨rfl, fun _ => rfl⟩ _).append
        ((laidOut_emitElse (helseIf _) helse).append_true (LaidOut.newline.optional _))
  | .switchOp _ condition cases, _, _, _ => by
      have hhead : LaidOut true (emitHead .«switch» condition ++ [space] : Pieces ε δ ν) :=
        ⟨rfl, fun _ => rfl⟩
      exact hhead.append (laidOut_emitCases cases).braces
  | .forOp _ labels initializer condition e body, _, _, following => by
      have hbody := (laidOut_emitStatementRegion body true none).loopBody
        (emitForTail condition e) (by cases condition <;> cases e <;> exact ⟨rfl, fun _ => rfl⟩)
          labels body
      have hloop := hbody.append (laidOut_breakLabel labels body following)
      rw [List.append_assoc] at hloop
      exact hloop.forHead ((endsLine_implicitBlock _ _).append _) initializer
  | .whileOp _ labels condition body, _, _, following => by
      have hbody := (laidOut_emitStatementRegion body true none).loopBody
        (emitHead .while condition) ⟨rfl, fun _ => rfl⟩ labels body
      have hloop := hbody.append (laidOut_breakLabel labels body following)
      rw [List.append_assoc] at hloop
      exact hloop
  | .doWhile _ labels body condition, _, _, following => by
      have hbody := (laidOut_emitStatementRegion body true none).loopBody
        [emitKeyword .«do»] ⟨rfl, fun _ => rfl⟩ labels body
      have hhead : LaidOut true (emitHead .while condition ++ [token .semicolon, newline] :
          Pieces ε δ ν) := ⟨rfl, fun _ => rfl⟩
      have hlabel := laidOut_optionalLabel (ε := ε) (δ := δ) (ν := ν) labels.breakLabel
        (labelRequiresEmptyExpression following)
      exact hbody.append ((LaidOut.space.optional _).append (hhead.append hlabel))
  | .blockStatement _ block, _, _, _ => (laidOut_emitStatementRegion block false none).braces

theorem laidOut_emitStatementRegion : ∀ (region : List (Statement ε δ ν)) (opened : Bool)
    (previous : Option (Statement ε δ ν)), LaidOut (regionKeepsLines opened previous region)
      (emitStatementRegion opened previous region)
  | [], _, _ => LaidOut.nil
  | s :: region, opened, previous => by
      have hfalse : LaidOut (regionKeepsLines false previous (s :: region))
          (emitStatementRegion false previous (s :: region)) := by
        have hstatement := laidOut_emitStatementImpl s none previous region
        have hregion := laidOut_emitStatementRegion region false
        rw [emitStatementRegion_false, regionKeepsLines_false]
        split_ifs with hvisible
        · exact (LaidOut.statement hvisible hstatement).append (hregion (some s))
        · exact hregion previous
      by_cases hblock : ∃ comments block, s = .blockStatement comments block ∧ region = []
      · obtain ⟨comments, block, hs, hnil⟩ := hblock
        cases opened with
        | false => exact hfalse
        | true =>
          have hopened := laidOut_block s comments block hs
          rw [hs, hnil]
          exact hopened
      · have hne : ∀ comments block, s = .blockStatement comments block → region ≠ [] :=
          fun comments block hs hnil => hblock ⟨comments, block, hs, hnil⟩
        rwa [emitStatementRegion_cons opened previous hne, regionKeepsLines_cons opened previous hne]

theorem laidOut_block : ∀ (s : Statement ε δ ν) (comments : List Text)
    (block : List (Statement ε δ ν)), s = .blockStatement comments block →
      LaidOut (regionKeepsLines false none block) (emitStatementRegion false none block)
  | .blockStatement _ block, _, _, rfl => laidOut_emitStatementRegion block false none

theorem laidOut_emitCases : ∀ cases : Cases ε δ ν,
    LaidOut (casesKeepLines cases) (emitCases cases)
  | .nil => LaidOut.nil
  | .default region => by
      have hlabel : LaidOut true ([emitKeyword .default, token .colon] : Pieces ε δ ν) :=
        ⟨rfl, fun _ => rfl⟩
      exact hlabel.append ((laidOut_emitStatementRegion region true none).caseRegion region)
  | .case v values region cases =>
    (laidOut_emitCaseValues v values).append
      (((laidOut_emitStatementRegion region true none).caseRegion region).append
        (laidOut_emitCases cases))

end

/-- In the body of a function all tokens are read, or some weight is lost. -/
theorem laidOut_emitFunctionBody (body : List (Statement ε δ ν)) :
    LaidOut (regionKeepsLines false none body) (emitFunctionBody body) :=
  (laidOut_emitStatementRegion body false none).braces

end CliftEmitC
