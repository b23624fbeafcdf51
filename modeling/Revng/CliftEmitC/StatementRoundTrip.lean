import Revng.CliftEmitC.StatementComments
import Revng.CliftEmitC.StatementReading

/-!
# What is printed is read back

The tokens of every statement are parsed back up to redundant blocks, and no case of a switch runs into
the next one.  A region is read with the text after it, as the label of a loop may come after its body
(`RegionReads`).

A compiler reads all the tokens exactly when no comment takes a line of them.  Without one of the lines
the text has too little weight to be parsed back (`emitFunctionBody_readsBack_iff`).
-/

namespace CliftEmitC

open StatementToken Statement
open CStatement (readAll mayCompleteAll ClosesCasesAll splitCases IsClosedCase)

variable {ε δ ν : Type}

/-! ## Tokens of the parts -/

@[simp] theorem statementTokens_emitHead (k : StatementKeyword) (condition : ε)
    (ps : Pieces ε δ ν) :
    statementTokens (emitHead k condition ++ ps) =
      keyword k :: leftParenthesis :: expression condition :: rightParenthesis ::
        statementTokens ps := rfl

theorem statementTokens_emitLabelStatementImpl (label : Label) (requiresEmptyExpression : Bool) :
    statementTokens (emitLabelStatementImpl label requiresEmptyExpression : Pieces ε δ ν) =
      identifier label.name :: colon :: (if requiresEmptyExpression then [semicolon] else []) := by
  rw [emitLabelStatementImpl, statementTokens_emitEntityComment]
  cases requiresEmptyExpression <;> rfl

theorem statementTokens_emitForHead (initializer : Option (ForInitializer ε δ))
    (first second : Option ε) :
    statementTokens (emitForHead initializer first second : Pieces ε δ ν) =
      statementTokens (emitForHead (initializer.map .withoutComment) first second) := by
  rcases initializer with _ | ⟨e⟩ | ⟨comment, d⟩
  · rfl
  · rfl
  · show statementTokens (.token _ :: .space :: .token _ :: (emitEntityComment comment ++ _ ++ _)) = _
    rw [List.append_assoc, statementTokens_token, statementTokens_space, statementTokens_token,
      statementTokens_emitEntityComment]
    rfl

theorem statementTokens_emitStatement (previous : Option (Statement ε δ ν))
    (following : List (Statement ε δ ν)) (s : Statement ε δ ν) :
    statementTokens (emitStatement previous following s) =
      statementTokens (emitStatementImpl none previous following s) :=
  statementTokens_emitComments s.comments _

theorem statementTokens_emitSeparator (previous : Option (Statement ε δ ν))
    (isSimilar : Statement ε δ ν → Bool) :
    statementTokens (emitSeparator previous isSimilar) = [] := by
  cases previous with
  | none => rfl
  | some s =>
    rw [emitSeparator]
    split_ifs <;> rfl

theorem statementTokens_braces (region : Pieces ε δ ν) :
    statementTokens (emitImplicitBlockStatement true region) =
      leftBrace :: (statementTokens region ++ [rightBrace]) := by
  rw [emitImplicitBlockStatement, if_pos rfl, statementTokens_space, statementTokens_token,
    statementTokens_newline, statementTokens_append]
  rfl

theorem statementTokens_noBraces (region : Pieces ε δ ν) :
    statementTokens (emitImplicitBlockStatement false region) = statementTokens region := rfl

/-! ## Simple statements -/

section

variable {text text' : List (StatementToken ε δ ν)} {s s' : Statement ε δ ν} {condition : ε}
  {region region' : List (Statement ε δ ν)} {c c' : CStatement ε δ ν} {ends ends' : Prop}

/-- A statement that needs no braces. -/
structure IsSimple (text : List (StatementToken ε δ ν)) (s : Statement ε δ ν)
    (c : CStatement ε δ ν) : Prop where
  parses : ∀ rest, Yields (fun k => parseStatement k (text ++ rest)) (c, rest)
  reads : ∃ s', s.normalize = [s'] ∧ c.read = some [.statement s']
  closes : c.ClosesCases
  mayComplete : s.isNoFallthrough = true → c.mayComplete = false
  isBreak : s.isNoFallthrough = false → c.isBreak = false

theorem exists_isSimple (h : s.mayElideBraces = true) (chain : Option Bool)
    (previous : Option (Statement ε δ ν)) (following : List (Statement ε δ ν)) :
    ∃ c, IsSimple (statementTokens (emitStatementImpl chain previous following s)) s c := by
  cases s with
  | expressionStatement comments e =>
    exact ⟨.expression (some e), fun rest => .of_some fun k => rfl, ⟨_, rfl, rfl⟩, trivial, nofun,
      fun _ => rfl⟩
  | goto comments label =>
    exact ⟨.goto label.name, fun rest => .of_some fun k => rfl, ⟨_, rfl, rfl⟩, trivial,
      fun _ => rfl, nofun⟩
  | breakTo comments label =>
    refine ⟨.breakTo (label.map Label.name), fun rest => ?_, ⟨_, rfl, ?_⟩, trivial, fun _ => rfl,
      nofun⟩
    · cases label <;> exact .of_some fun k => rfl
    · cases label <;> rfl
  | continueTo comments label =>
    refine ⟨.continueTo (label.map Label.name), fun rest => ?_, ⟨_, rfl, ?_⟩, trivial,
      fun _ => rfl, nofun⟩
    · cases label <;> exact .of_some fun k => rfl
    · cases label <;> rfl
  | returnOp comments result =>
    refine ⟨.return result, fun rest => ?_, ⟨_, rfl, rfl⟩, trivial, fun _ => rfl, nofun⟩
    cases result <;> exact .of_some fun k => rfl
  | _ => cases h

theorem isVisible_of_mayElideBraces (h : s.mayElideBraces = true) : s.isVisible = true := by
  cases s <;> first | rfl | cases h

theorem IsSimple.isStatement (h : IsSimple text s c) :
    ∃ s', s.normalize = [s'] ∧ IsStatement text s' c := by
  obtain ⟨s', hnormalize, hreads⟩ := h.reads
  exact ⟨s', hnormalize, fun rest _ => h.parses rest, hreads, h.closes⟩

theorem hasFallthrough_singleton (s : Statement ε δ ν) : hasFallthrough [s] = !s.isNoFallthrough :=
  rfl

theorem IsSimple.isBody (h : IsSimple text s c) :
    IsBody text s.normalize (hasFallthrough [s] = false) c := by
  obtain ⟨s', hnormalize, hreads⟩ := h.reads
  refine ⟨h.parses, ⟨s', hreads, congrArg withoutBlock hnormalize.symm⟩, h.closes,
    fun hends => ?_, fun hends => ?_⟩
  · rw [hasFallthrough_singleton, Bool.not_eq_false'] at hends
    exact h.mayComplete hends
  · rw [hasFallthrough_singleton, Bool.not_eq_false', Bool.not_eq_true] at hends
    exact h.isBreak hends

/-! ## Statements with bodies -/

theorem withoutBlock_blockStatement (region : List (Statement ε δ ν)) :
    withoutBlock [.blockStatement [] region] = region := rfl

/-- The items between braces are a block. -/
theorem yields_compound {items : List (CStatement ε δ ν)} {rest : List (StatementToken ε δ ν)}
    (h : ItemsAt (text ++ rightBrace :: rest) items rest) :
    Yields (fun k => parseStatement k (leftBrace :: (text ++ [rightBrace]) ++ rest))
      (.compound items, rest) := by
  rw [List.cons_append, List.append_assoc]
  refine .of_succ (g := fun k => (parseItems k _).bind _) (fun k => rfl) ?_
  exact h.yields.bind (.some _)

theorem ReadsItems.braces (h : ReadsItems text region ends) :
    ReadsRegion (leftBrace :: (text ++ [rightBrace])) region ends := by
  obtain ⟨items, hitems⟩ := h
  exact ⟨.compound items, fun rest => yields_compound (hitems.parses rest),
    ⟨_, read_compound hitems.reads, withoutBlock_blockStatement _⟩, hitems.closes,
    hitems.mayComplete, fun _ => rfl⟩

/-- The body of a statement is read as a region. -/
theorem IsBody.read_bind (h : IsBody text region ends c) {α : Type}
    (f : List (Statement ε δ ν) → Option α) :
    (c.read.bind fun items => (toRegion? items).bind f) = f (withoutBlock region) := by
  obtain ⟨s, hreads, heq⟩ := h.reads
  have hregion : toRegion? [.statement s] = some (withoutBlock region) :=
    (toRegion?_map [s]).trans (congrArg some heq)
  rw [hreads, Option.bind_some, hregion, Option.bind_some]

theorem IsBody.isStatement (h : IsBody text region ends c) :
    ∃ s, withoutBlock [s] = withoutBlock region ∧ IsStatement text s c := by
  obtain ⟨s, hreads, heq⟩ := h.reads
  exact ⟨s, heq, fun rest _ => h.parses rest, hreads, h.closes⟩

theorem IsBody.while (h : IsBody text region ends c) (condition : ε) :
    IsStatement (keyword .while :: leftParenthesis :: expression condition :: rightParenthesis ::
      text) (.whileOp [] ⟨none, none⟩ condition (withoutBlock region)) (.while condition c) := by
  refine ⟨fun rest _ => ?_, ?_, h.closes⟩
  · refine .of_succ (g := fun k => (parseStatement k _).bind _) (fun k => rfl) ?_
    exact (h.parses rest).bind (.some _)
  · rw [CStatement.read]
    exact h.read_bind _

theorem IsBody.for (h : IsBody text region ends c) (initializer : Option (ForInitializer ε δ))
    (first second : Option ε) :
    IsStatement (statementTokens (emitForHead initializer first second) ++ text)
      (.forOp [] ⟨none, none⟩ (initializer.map .withoutComment) first second (withoutBlock region))
        (.for (initializer.map .withoutComment) first second c) := by
  refine ⟨fun rest _ => ?_, ?_, h.closes⟩
  · have hhead : ∀ k, parseStatement (k + 1)
        (statementTokens (emitForHead initializer first second) ++ text ++ rest) =
          (parseStatement k (text ++ rest)).bind fun x =>
            some (CStatement.for (initializer.map .withoutComment) first second x.1, x.2) := by
      intro k
      rw [statementTokens_emitForHead]
      rcases initializer with _ | ⟨e⟩ | ⟨comment, d⟩ <;> cases first <;> cases second <;> rfl
    exact .of_succ hhead ((h.parses rest).bind (.some _))
  · rw [CStatement.read]
    exact h.read_bind _

theorem IsBody.doWhile (h : IsBody text region ends c) (condition : ε) :
    IsStatement (keyword .«do» :: (text ++ [keyword .while, leftParenthesis, expression condition,
      rightParenthesis, semicolon]))
      (.doWhile [] ⟨none, none⟩ (withoutBlock region) condition) (.doWhile c condition) := by
  refine ⟨fun rest _ => ?_, ?_, h.closes⟩
  · rw [List.cons_append, List.append_assoc]
    refine .of_succ (g := fun k => (parseStatement k _).bind _) (fun k => rfl) ?_
    exact (h.parses _).bind (.some _)
  · rw [CStatement.read]
    exact h.read_bind _

theorem IsBody.ifThen (h : IsBody text region ends c) (condition : ε) :
    IsStatement (keyword .«if» :: leftParenthesis :: expression condition :: rightParenthesis ::
      text) (.ifOp [] condition (withoutBlock region) []) (.ifThen condition c) := by
  refine ⟨fun rest hrest => ?_, ?_, h.closes⟩
  · refine .of_succ (g := fun k => (parseStatement k _).bind _) (fun k => rfl) ?_
    refine (h.parses rest).bind ?_
    -- no `else` comes next
    simp only [afterElse?_of_ne hrest]
    exact .some _
  · rw [CStatement.read]
    exact h.read_bind _

theorem IsBody.ifElse (h : IsBody text region ends c) (h' : IsStatement text' s' c')
    (condition : ε) :
    IsStatement (keyword .«if» :: leftParenthesis :: expression condition :: rightParenthesis ::
      (text ++ keyword .«else» :: text'))
      (.ifOp [] condition (withoutBlock region) (withoutBlock [s'])) (.ifElse condition c c') := by
  refine ⟨fun rest hrest => ?_, ?_, h.closes, h'.closes⟩
  · rw [List.cons_append, List.cons_append, List.cons_append, List.cons_append, List.append_assoc]
    refine .of_succ (g := fun k => (parseStatement k _).bind _) (fun k => rfl) ?_
    refine (h.parses _).bind ?_
    exact (h'.parses rest hrest).bind (.some _)
  · rw [CStatement.read]
    refine (h.read_bind _).trans ?_
    rw [h'.reads]
    rfl

end

/-! ## Regions -/

/-- The statements of a region, and what comes after it, are read. -/
def RegionReads (opened : Bool) (region : List (Statement ε δ ν)) : Prop :=
  ∀ (previous : Option (Statement ε δ ν)) (text' : List (StatementToken ε δ ν))
    (region' : List (Statement ε δ ν)) (ends' : Prop), ReadsItems text' region' ends' →
      ReadsItems (statementTokens (emitStatementRegion opened previous region) ++ text')
        (normalizeRegion opened region ++ region')
        (ends' ∨ (text' = [] ∧ hasFallthrough region = false))

structure StatementReads (s : Statement ε δ ν) : Prop where
  /-- As a part of a chain, where braces are elided only if they may be. -/
  chained : s.isIf = true → ∀ emitBlocks : Bool,
    (emitBlocks = false → mayElideIfStatementBraces s = true) → ∃ s', s.normalize = [s'] ∧
      ReadsStatement (statementTokens (emitStatementImpl (some emitBlocks) none [] s)) s'
  items : s.isVisible = true → ∀ (previous : Option (Statement ε δ ν))
    (following : List (Statement ε δ ν)) (text' : List (StatementToken ε δ ν))
    (region' : List (Statement ε δ ν)) (ends' : Prop), ReadsItems text' region' ends' →
      (labelRequiresEmptyExpression following = false → StartsStatement region') →
        ReadsItems (statementTokens (emitStatementImpl none previous following s) ++ text')
          (s.normalize ++ region') (ends' ∨ (text' = [] ∧ s.isNoFallthrough = true))
  block : ∀ comments block, s = .blockStatement comments block → RegionReads false block

structure RegionSpec (region : List (Statement ε δ ν)) : Prop where
  reads : ∀ opened, RegionReads opened region
  statements : ∀ s ∈ region, StatementReads s

section

variable {s : Statement ε δ ν} {text' : List (StatementToken ε δ ν)}
  {region region' following : List (Statement ε δ ν)} {ends' : Prop}

theorem normalizeRegion_false (s : Statement ε δ ν) (region : List (Statement ε δ ν)) :
    normalizeRegion false (s :: region) = s.normalize ++ normalizeRegion false region := rfl

theorem normalizeRegion_cons (opened : Bool)
    (h : ∀ comments block, s = .blockStatement comments block → region ≠ []) :
    normalizeRegion opened (s :: region) = s.normalize ++ normalizeRegion false region := by
  cases opened with
  | false => rfl
  | true =>
    cases s with
    | blockStatement comments block =>
      cases region with
      | nil => exact absurd rfl (h comments block rfl)
      | cons s' region => rfl
    | _ => rfl

theorem normalize_of_not_isVisible (h : s.isVisible = false) : s.normalize = [] := by
  cases s <;> first | rfl | cases h

/-- What a label may stand before is printed, and it is no declaration. -/
theorem exists_normalize (hvisible : s.isVisible = true) (hlocal : s.isLocalVariable = false) :
    ∃ s' rest, s.normalize = s' :: rest ∧ s'.isLocalVariable = false := by
  cases s <;> first | cases hlocal; done | cases hvisible; done | exact ⟨_, _, rfl, rfl⟩

theorem startsStatement_normalizeRegion (h : labelRequiresEmptyExpression following = false)
    (region' : List (Statement ε δ ν)) :
    StartsStatement (normalizeRegion false following ++ region') := by
  induction following with
  | nil => cases h
  | cons s following ih =>
    rw [normalizeRegion_false, List.append_assoc]
    cases hvisible : s.isVisible with
    | false =>
      rw [normalize_of_not_isVisible hvisible, List.nil_append]
      rw [labelRequiresEmptyExpression, List.find?_cons_of_neg (by rw [hvisible]; nofun)] at h
      exact ih h
    | true =>
      rw [labelRequiresEmptyExpression, List.find?_cons_of_pos hvisible] at h
      obtain ⟨s', rest, heq, hlocal⟩ := exists_normalize hvisible h
      rw [heq]
      exact ⟨s', _, rfl, hlocal⟩

theorem hasFallthrough_cons (hne : region ≠ []) :
    hasFallthrough (s :: region) = hasFallthrough region := by
  rw [hasFallthrough, hasFallthrough, List.getLast?_cons_of_ne_nil hne]

theorem isVisible_of_isNoFallthrough (h : s.isNoFallthrough = true) : s.isVisible = true := by
  cases s <;> first | rfl | cases h

theorem RegionSpec.nil : RegionSpec ([] : List (Statement ε δ ν)) := by
  refine ⟨fun opened previous text' region' ends' h => ?_, List.forall_mem_nil _⟩
  exact h.imp fun hends => hends.resolve_right fun hnil => nomatch hnil.2

/-- The first statement of a region is read before the others. -/
theorem RegionReads.cons (hs : StatementReads s) (hregion : RegionReads false region) :
    RegionReads false (s :: region) := by
  intro previous text' region' ends' h
  rw [normalizeRegion_false, List.append_assoc]
  cases hvisible : s.isVisible with
  | false =>
    have hemit : emitStatementRegion false previous (s :: region) =
        emitStatementRegion false previous region := by
      rw [emitStatementRegion_false, if_neg (by rw [hvisible]; nofun)]
    rw [hemit, normalize_of_not_isVisible hvisible]
    refine (hregion previous text' region' ends' h).imp fun hends => hends.imp_right ?_
    rintro ⟨hnil, hends⟩
    refine ⟨hnil, ?_⟩
    cases region with
    | nil =>
      rw [hasFallthrough_singleton, Bool.not_eq_false'] at hends
      exact absurd (isVisible_of_isNoFallthrough hends) (by rw [hvisible]; nofun)
    | cons s' region => rwa [hasFallthrough_cons (List.cons_ne_nil _ _)] at hends
  | true =>
    have hemit : emitStatementRegion false previous (s :: region) =
        emitStatement previous region s ++ emitStatementRegion false (some s) region := by
      rw [emitStatementRegion_false, if_pos hvisible]
    rw [hemit, statementTokens_append, statementTokens_emitStatement, List.append_assoc]
    refine (hs.items hvisible previous region _ _ _ (hregion (some s) text' region' ends' h)
      fun hlabel => startsStatement_normalizeRegion hlabel region').imp ?_
    rintro (hends | ⟨rfl, hends⟩)
    · exact .inl (.inl hends)
    · cases region with
      | nil =>
        rw [hasFallthrough_singleton, Bool.not_eq_false'] at hends
        exact .inr ⟨rfl, hends⟩
      | cons s' region =>
        rw [hasFallthrough_cons (List.cons_ne_nil _ _)] at hends
        exact .inl (.inr ⟨rfl, hends⟩)

theorem RegionSpec.cons (hs : StatementReads s) (hregion : RegionSpec region) :
    RegionSpec (s :: region) := by
  refine ⟨fun opened => ?_, List.forall_mem_cons.2 ⟨hs, hregion.statements⟩⟩
  have hreads := RegionReads.cons hs (hregion.reads false)
  by_cases hblock : ∃ comments block, s = .blockStatement comments block ∧ region = []
  · obtain ⟨comments, block, rfl, rfl⟩ := hblock
    cases opened with
    | false => exact hreads
    | true =>
      intro previous text' region' ends' h
      exact (hs.block comments block rfl none text' region' ends' h).imp
        fun hends => .inl (hends.resolve_right fun hnil => nomatch hnil.2)
  · have hne : ∀ comments block, s = .blockStatement comments block → region ≠ [] :=
      fun comments block hs hnil => hblock ⟨comments, block, hs, hnil⟩
    intro previous text' region' ends' h
    rw [emitStatementRegion_cons opened previous hne, normalizeRegion_cons opened hne]
    exact hreads previous text' region' ends' h

/-- The body of a statement, in braces or without them. -/
theorem RegionReads.body (h : RegionReads true region) {emitBlock : Bool}
    (hbraces : emitBlock = false → mayElideRegionBraces region = true) :
    ReadsRegion (statementTokens (emitImplicitBlockStatement emitBlock
      (emitStatementRegion true none region))) (normalizeRegion true region)
        (hasFallthrough region = false) := by
  cases emitBlock with
  | true =>
    have hitems : ReadsItems _ _ (hasFallthrough region = false) :=
      (h none [] [] False readsItems_nil).imp fun hends => .inr ⟨rfl, hends⟩
    rw [List.append_nil, List.append_nil] at hitems
    rw [statementTokens_braces]
    exact hitems.braces
  | false =>
    have hsimple := hbraces rfl
    match region, hsimple with
    | [s], hsimple =>
      obtain ⟨c, hc⟩ := exists_isSimple hsimple none none []
      have hvisible := isVisible_of_mayElideBraces hsimple
      have hne : ∀ comments block, s = .blockStatement comments block →
          ([] : List (Statement ε δ ν)) ≠ [] := by
        rintro comments block rfl
        cases hsimple
      have hemit : emitStatementRegion true none [s] = emitStatement none [] s := by
        rw [emitStatementRegion_cons true none hne, emitStatementRegion_false, if_pos hvisible]
        exact List.append_nil _
      rw [statementTokens_noBraces, hemit, statementTokens_emitStatement,
        normalizeRegion_cons true hne, normalizeRegion, List.append_nil]
      exact ⟨c, hc.isBody⟩

end

/-! ## Labels -/

section

variable {text text' : List (StatementToken ε δ ν)} {s : Statement ε δ ν}
  {region region' following : List (Statement ε δ ν)} {ends' : Prop}

theorem ReadsItems.labelStatement (h : ReadsItems text' region' ends') (label : Label)
    (hstarts : labelRequiresEmptyExpression following = false → StartsStatement region') :
    ReadsItems (statementTokens (emitLabelStatementImpl label
      (labelRequiresEmptyExpression following)) ++ text')
        (.assignLabel [] label.withoutComment :: region') ends' := by
  rw [statementTokens_emitLabelStatementImpl]
  cases hrequires : labelRequiresEmptyExpression following with
  | true => exact h.emptyLabel label.name
  | false => exact h.label (hstarts hrequires) label.name

/-- The label after a loop. -/
theorem ReadsItems.breakLabel (h : ReadsItems text' region' ends') (labels : LoopLabels)
    (hstarts : labelRequiresEmptyExpression following = false → StartsStatement region') :
    ReadsItems (statementTokens (emitBreakLabelStatement labels following) ++ text')
      (labels.atBreak ++ region') ends' := by
  obtain ⟨breakLabel, continueLabel⟩ := labels
  cases breakLabel with
  | none => exact h
  | some label => exact h.labelStatement label hstarts

/-- The body of a loop with the label at its end. -/
theorem RegionReads.loopBody (h : RegionReads true region) (labels : LoopLabels) :
    ∃ ends, ReadsRegion (statementTokens (emitLoopBody labels region
      (emitStatementRegion true none region))) (normalizeRegion true region ++ labels.atContinue)
        ends := by
  obtain ⟨breakLabel, continueLabel⟩ := labels
  cases continueLabel with
  | none =>
    refine ⟨hasFallthrough region = false, ?_⟩
    rw [LoopLabels.atContinue, List.append_nil]
    refine h.body fun hbraces => ?_
    rwa [loopBodyHasBraces, Option.isSome_none, Bool.false_or, Bool.not_eq_false'] at hbraces
  | some label =>
    have hitems := (h none _ _ _ (readsItems_nil.emptyLabel label.name)).imp False.elim
    have hbraces : loopBodyHasBraces ⟨breakLabel, some label⟩ region = true := rfl
    rw [emitLoopBody, hbraces, statementTokens_braces, statementTokens_append,
      statementTokens_newline, statementTokens_emitLabelStatementImpl]
    exact ⟨False, hitems.braces⟩

/-! ## Statements -/

theorem statementTokens_layout (b : Bool) (p : StatementPiece ε δ ν) (h : p.token? = none) :
    statementTokens (if b then [p] else []) = [] := by
  cases b with
  | false => rfl
  | true => exact List.filterMap_cons_none h

theorem StatementReads.simple (h : s.mayElideBraces = true) : StatementReads s := by
  refine ⟨fun hif => ?_, fun _ previous following text' region' ends' hitems _ => ?_, ?_⟩
  · cases s <;> first | cases hif; done | cases h
  · obtain ⟨c, hc⟩ := exists_isSimple h none previous following
    obtain ⟨s', hnormalize, hs'⟩ := hc.isStatement
    rw [hnormalize]
    exact (hitems.statement hs').imp fun hends =>
      hends.imp_right fun hjump => ⟨hjump.1, hc.mayComplete hjump.2⟩
  · rintro comments block rfl
    cases h

/-- The statement before is no jump. -/
theorem ReadsItems.afterFallthrough {p : Prop} (h : ReadsItems text region ends') :
    ReadsItems text region (ends' ∨ (p ∧ false = true)) :=
  h.imp fun hends => hends.resolve_right fun hjump => nomatch hjump.2

/-- A loop with the label after it. -/
theorem ReadsItems.loop {p : Prop} {c : CStatement ε δ ν} (hloop : IsStatement text s c)
    (h : ReadsItems text' region' ends') (labels : LoopLabels)
    (hstarts : labelRequiresEmptyExpression following = false → StartsStatement region') :
    ReadsItems (text ++ (statementTokens (emitBreakLabelStatement labels following) ++ text'))
      (s :: (labels.atBreak ++ region')) (ends' ∨ (p ∧ false = true)) :=
  (((h.breakLabel labels hstarts).statement hloop).imp .inl).afterFallthrough

theorem StatementReads.whileOp (comments : List Text) (labels : LoopLabels) (condition : ε)
    (h : RegionReads true region) : StatementReads (.whileOp comments labels condition region) := by
  refine ⟨nofun, fun _ previous following text' region' ends' hitems hstarts => ?_, nofun⟩
  obtain ⟨ends, c, hc⟩ := h.loopBody labels
  have hread := ReadsItems.loop (p := text' = []) (hc.while condition) hitems labels hstarts
  show ReadsItems (statementTokens (emitHead .while condition ++ (emitLoopBody labels region
    (emitStatementRegion true none region) ++ (_ ++ _))) ++ text') _ _
  rw [statementTokens_emitHead, statementTokens_append, statementTokens_append,
    statementTokens_layout _ _ rfl, List.nil_append, List.cons_append, List.cons_append,
    List.cons_append, List.cons_append, List.append_assoc]
  exact hread

theorem StatementReads.forOp (comments : List Text) (labels : LoopLabels)
    (initializer : Option (ForInitializer ε δ)) (condition expression : Option ε)
    (h : RegionReads true region) :
    StatementReads (.forOp comments labels initializer condition expression region) := by
  refine ⟨nofun, fun _ previous following text' region' ends' hitems hstarts => ?_, nofun⟩
  obtain ⟨ends, c, hc⟩ := h.loopBody labels
  have hread := ReadsItems.loop (p := text' = []) (hc.for initializer condition expression) hitems
    labels hstarts
  show ReadsItems (statementTokens (emitForHead initializer condition expression ++
    (emitLoopBody labels region (emitStatementRegion true none region) ++ (_ ++ _))) ++ text') _ _
  rw [statementTokens_append, statementTokens_append, statementTokens_append,
    statementTokens_layout _ _ rfl, List.nil_append, ← List.append_assoc, List.append_assoc]
  exact hread

theorem StatementReads.doWhile (comments : List Text) (labels : LoopLabels) (condition : ε)
    (h : RegionReads true region) : StatementReads (.doWhile comments labels region condition) := by
  refine ⟨nofun, fun _ previous following text' region' ends' hitems hstarts => ?_, nofun⟩
  obtain ⟨ends, c, hc⟩ := h.loopBody labels
  have hread := ReadsItems.loop (p := text' = []) (hc.doWhile condition) hitems labels hstarts
  rw [List.cons_append, List.append_assoc] at hread
  show ReadsItems (statementTokens (emitKeyword .«do» :: (emitLoopBody labels region
    (emitStatementRegion true none region) ++ (_ ++ _))) ++ text') _ _
  rw [statementTokens_keyword, statementTokens_append, statementTokens_append,
    statementTokens_layout _ _ rfl, List.nil_append, List.cons_append, List.append_assoc]
  exact hread

theorem StatementReads.blockStatement (comments : List Text) (h : RegionReads false region) :
    StatementReads (.blockStatement comments region) := by
  refine ⟨nofun, fun _ previous following text' region' ends' hitems _ => ?_,
    fun comments' block heq => ?_⟩
  · obtain ⟨items, hregion⟩ := h none [] [] False readsItems_nil
    rw [List.append_nil, List.append_nil] at hregion
    have hblock : IsStatement (leftBrace :: (statementTokens (emitStatementRegion false none region) ++
        [rightBrace])) (.blockStatement [] (withoutBlock (normalizeRegion false region)))
          (.compound items) :=
      ⟨fun rest _ => yields_compound (hregion.parses rest), read_compound hregion.reads,
        hregion.closes⟩
    have hread := ((hitems.statement hblock).imp .inl).afterFallthrough (p := text' = [])
    show ReadsItems (statementTokens (.token .leftBrace :: .newline ::
      (emitStatementRegion false none region ++ [.token .rightBrace, .newline])) ++ text') _ _
    rw [statementTokens_token, statementTokens_newline, statementTokens_append]
    exact hread
  · cases heq
    exact h

theorem StatementReads.assignLabel (comments : List Text) (label : Label) :
    StatementReads (.assignLabel comments label : Statement ε δ ν) := by
  refine ⟨nofun, fun _ previous following text' region' ends' hitems hstarts => ?_, nofun⟩
  show ReadsItems (statementTokens (emitSeparator previous isAssignLabel ++ _) ++ text') _ _
  rw [statementTokens_append, statementTokens_emitSeparator, List.nil_append]
  exact (hitems.labelStatement label hstarts).afterFallthrough

theorem StatementReads.localVariable (comments : List Text) (comment : Text) (d : δ) :
    StatementReads (.localVariable comments comment d : Statement ε δ ν) := by
  refine ⟨nofun, fun _ previous following text' region' ends' hitems _ => ?_, nofun⟩
  show ReadsItems (statementTokens (emitSeparator previous _ ++ _) ++ text') _ _
  rw [statementTokens_append, statementTokens_emitSeparator, List.nil_append,
    statementTokens_emitEntityComment]
  exact (hitems.declaration d).afterFallthrough

theorem StatementReads.invisible (h : s.isVisible = false) : StatementReads s := by
  refine ⟨fun hif => ?_, fun hvisible => absurd (h.symm.trans hvisible) nofun, ?_⟩
  · cases s <;> first | cases hif; done | cases h
  · rintro comments block rfl
    cases h

/-! ## Chains -/

section Chain

variable {comments : List Text} {condition : ε} {thenRegion elseRegion : List (Statement ε δ ν)}

theorem statementTokens_ifOp (chain : Option Bool) (previous : Option (Statement ε δ ν))
    (following : List (Statement ε δ ν)) {emitBlocks : Bool}
    (h : chain.getD (!mayElideIfStatementBraces (.ifOp comments condition thenRegion elseRegion)) =
      emitBlocks) :
    statementTokens (emitStatementImpl chain previous following
        (.ifOp comments condition thenRegion elseRegion)) =
      keyword .«if» :: leftParenthesis :: expression condition :: rightParenthesis ::
        (statementTokens (emitImplicitBlockStatement emitBlocks
          (emitStatementRegion true none thenRegion)) ++
          statementTokens (emitElse emitBlocks elseRegion (emitElseIf emitBlocks elseRegion)
            (emitImplicitBlockStatement emitBlocks
              (emitStatementRegion true none elseRegion)))) := by
  rw [emitStatementImpl_ifOp chain previous following h, statementTokens_emitHead,
    statementTokens_append, statementTokens_append, statementTokens_layout _ .newline rfl,
    List.append_nil]

theorem statementTokens_emitElse {emitBlocks : Bool} (hne : elseRegion ≠ [])
    (elseIf elseBlock : Pieces ε δ ν) :
    statementTokens (emitElse emitBlocks elseRegion elseIf elseBlock) =
      keyword .«else» :: statementTokens (if isElseIf elseRegion then elseIf else elseBlock) := by
  rw [emitElse, if_neg (by rwa [List.isEmpty_iff]), statementTokens_append,
    statementTokens_layout _ .space rfl, List.nil_append, statementTokens_keyword]
  split_ifs <;> rfl

theorem mayElideIfStatementBraces_of_not_isElseIf (h : isElseIf elseRegion = false) :
    mayElideIfStatementBraces (.ifOp comments condition thenRegion elseRegion) =
      (mayElideRegionBraces thenRegion && (elseRegion.isEmpty || mayElideRegionBraces elseRegion)) := by
  match elseRegion, h with
  | [], _ => rfl
  | [s], h =>
    rw [isElseIf] at h
    rw [mayElideIfStatementBraces, h]
    rfl
  | _ :: _ :: _, _ => rfl

theorem mayElideIfStatementBraces_elseIf (h : s.isIf = true) :
    mayElideIfStatementBraces (.ifOp comments condition thenRegion [s]) =
      (mayElideRegionBraces thenRegion && mayElideIfStatementBraces s) := by
  rw [mayElideIfStatementBraces, if_pos h]

/-- The chain is printed in braces, or they may be elided in all of it. -/
theorem reads_ifOp (hthen : RegionReads true thenRegion) (helse : RegionSpec elseRegion)
    (chain : Option Bool) (previous : Option (Statement ε δ ν))
    (following : List (Statement ε δ ν)) {emitBlocks : Bool}
    (h : chain.getD (!mayElideIfStatementBraces (.ifOp comments condition thenRegion elseRegion)) =
      emitBlocks)
    (hbraces : emitBlocks = false →
      mayElideIfStatementBraces (.ifOp comments condition thenRegion elseRegion) = true) :
    ReadsStatement (statementTokens (emitStatementImpl chain previous following
      (.ifOp comments condition thenRegion elseRegion)))
      (.ifOp [] condition (withoutBlock (normalizeRegion true thenRegion))
        (withoutBlock (normalizeRegion true elseRegion))) := by
  rw [statementTokens_ifOp chain previous following h]
  cases helseIf : isElseIf elseRegion with
  | false =>
    rw [mayElideIfStatementBraces_of_not_isElseIf helseIf] at hbraces
    obtain ⟨c, hc⟩ := hthen.body fun hblocks => (Bool.and_eq_true_iff.1 (hbraces hblocks)).1
    by_cases hne : elseRegion = []
    · subst hne
      rw [show statementTokens (emitElse emitBlocks [] _ _) = [] from rfl, List.append_nil]
      exact ⟨_, hc.ifThen condition⟩
    · rw [statementTokens_emitElse hne, helseIf, if_neg nofun]
      obtain ⟨c', hc'⟩ := (helse.reads true).body fun hblocks =>
        ((Bool.or_eq_true_iff.1 (Bool.and_eq_true_iff.1 (hbraces hblocks)).2).resolve_left
          fun hempty => hne (List.isEmpty_iff.1 hempty))
      obtain ⟨s', heq, hs'⟩ := hc'.isStatement
      rw [← heq]
      exact ⟨_, hc.ifElse hs' condition⟩
  | true =>
    match elseRegion, helse, helseIf with
    | [s], helse, helseIf =>
      rw [mayElideIfStatementBraces_elseIf helseIf] at hbraces
      obtain ⟨c, hc⟩ := hthen.body fun hblocks => (Bool.and_eq_true_iff.1 (hbraces hblocks)).1
      obtain ⟨s', hnormalize, c', hc'⟩ := (helse.statements s (List.mem_singleton.2 rfl)).chained
        helseIf emitBlocks fun hblocks => (Bool.and_eq_true_iff.1 (hbraces hblocks)).2
      have hne : ∀ comments block, s = .blockStatement comments block →
          ([] : List (Statement ε δ ν)) ≠ [] := by
        rintro comments block rfl
        cases helseIf
      rw [statementTokens_emitElse (List.cons_ne_nil _ _), if_pos helseIf,
        normalizeRegion_cons true hne, hnormalize]
      exact ⟨_, hc.ifElse hc' condition⟩

theorem StatementReads.ifOp (hthen : RegionReads true thenRegion) (helse : RegionSpec elseRegion) :
    StatementReads (.ifOp comments condition thenRegion elseRegion) := by
  refine ⟨fun _ emitBlocks hbraces => ⟨_, rfl, reads_ifOp hthen helse _ _ _ rfl hbraces⟩,
    fun _ previous following text' region' ends' hitems _ => ?_, nofun⟩
  have hread : ReadsStatement (statementTokens (emitStatementImpl none previous following
      (.ifOp comments condition thenRegion elseRegion))) _ :=
    reads_ifOp hthen helse none previous following rfl
      fun hblocks => (Bool.not_eq_false' _).mp hblocks
  obtain ⟨c, hc⟩ := hread
  exact ((hitems.statement hc).imp .inl).afterFallthrough

end Chain

end

/-! ## Cases -/

/-- The tokens of a case label. -/
def labelTokens : Option ν → List (StatementToken ε δ ν)
  | some v => [keyword .case, value v, colon]
  | none => [keyword .default, colon]

section

variable {text : List (StatementToken ε δ ν)} {s : Statement ε δ ν}
  {region : List (Statement ε δ ν)} {c : CStatement ε δ ν} {labels : List (Option ν)}
  {items : List (CStatement ε δ ν)} {read : List (SwitchItem ε δ ν)} {cases : Cases ε δ ν}

theorem parses_labels (labels : List (Option ν)) {rest : List (StatementToken ε δ ν)}
    (h : Yields (fun k => parseStatement k text) (c, rest)) :
    Yields (fun k => parseStatement k (labels.flatMap labelTokens ++ text))
      (labels.foldr .case c, rest) := by
  induction labels with
  | nil => exact h
  | cons label labels ih =>
    rw [List.flatMap_cons, List.append_assoc]
    cases label <;>
    · refine .of_succ (g := fun k => (parseStatement k _).bind _) (fun k => rfl) ?_
      exact ih.bind (.some _)

theorem read_labels (labels : List (Option ν)) (h : c.read = some read) :
    (labels.foldr CStatement.case c).read = some (labels.map .caseLabel ++ read) := by
  induction labels with
  | nil => exact h
  | cons label labels ih =>
    rw [List.foldr_cons, CStatement.read, ih]
    rfl

theorem closesCases_labels (labels : List (Option ν)) (h : c.ClosesCases) :
    (labels.foldr CStatement.case c).ClosesCases := by
  induction labels with
  | nil => exact h
  | cons label labels ih => exact ih

/-- What is read as a statement has no case label. -/
theorem ne_case_of_read (h : c.read = some [.statement s]) (value : Option ν)
    (c' : CStatement ε δ ν) : c ≠ .case value c' := by
  rintro rfl
  rw [CStatement.read] at h
  cases hread : c'.read with
  | none =>
    rw [hread] at h
    cases h
  | some read =>
    rw [hread] at h
    cases h

theorem unlabeled?_labels (hne : labels ≠ []) (h : ∀ value c', c ≠ .case value c') :
    (labels.foldr CStatement.case c).unlabeled? = some c := by
  induction labels with
  | nil => exact absurd rfl hne
  | cons label labels ih =>
    cases labels with
    | nil =>
      cases c with
      | case value c => exact absurd rfl (h value c)
      | _ => rfl
    | cons label' labels => exact ih (List.cons_ne_nil _ _)

theorem openCase_caseBreak (s : Statement ε δ ν) (region : List (Statement ε δ ν)) :
    openCase (s :: caseBreak region) = withoutBlock [s] ++ caseBreak region := by
  rw [caseBreak]
  split_ifs
  · cases s <;> rfl
  · rw [List.append_nil]
    cases s <;> rfl

theorem toCases?_region (s : Statement ε δ ν) (region : List (Statement ε δ ν))
    (h : toCases? read = some ([], cases)) :
    toCases? (.statement s :: ((caseBreak region).map .statement ++ read)) =
      some (s :: caseBreak region, cases) := by
  rw [caseBreak]
  split_ifs <;>
  · simp only [List.map_cons, List.map_nil, List.cons_append, List.nil_append, toCases?, h]
    rfl

theorem toCases?_case (value : ν) (values : List ν) (s : Statement ε δ ν)
    (region : List (Statement ε δ ν)) (h : toCases? read = some ([], cases)) :
    toCases? (((value :: values).map some).map .caseLabel ++
      .statement s :: ((caseBreak region).map .statement ++ read)) =
        some ([], .case value values (withoutBlock [s] ++ caseBreak region) cases) := by
  induction values generalizing value with
  | nil =>
    rw [List.map_cons, List.map_cons, List.map_nil, List.map_nil, List.cons_append,
      List.nil_append, toCases?, toCases?_region s region h]
    show some (_, Cases.case value [] (openCase (s :: caseBreak region)) _) = _
    rw [openCase_caseBreak]
  | cons value' values ih =>
    rw [List.map_cons, List.map_cons, List.cons_append, toCases?, ih value']
    rfl

theorem toCases?_default (s : Statement ε δ ν) (region : List (Statement ε δ ν))
    (h : toCases? read = some ([], .nil)) :
    toCases? (.caseLabel (none : Option ν) ::
      .statement s :: ((caseBreak region).map .statement ++ read)) =
        some ([], .default (withoutBlock [s] ++ caseBreak region)) := by
  rw [toCases?, toCases?_region s region h]
  show some (_, Cases.default (openCase (s :: caseBreak region))) = _
  rw [openCase_caseBreak]

/-- The items in the body of a switch, and the cases that they are. -/
structure IsCases (text : List (StatementToken ε δ ν)) (cases : Cases ε δ ν)
    (items : List (CStatement ε δ ν)) : Prop where
  parses : ∀ rest, ItemsAt (text ++ rightBrace :: rest) items rest
  reads : ∃ read, readAll items = some read ∧ toCases? read = some ([], cases)
  closes : ClosesCasesAll items
  labeled : (splitCases items).1 = []
  closed : ∀ case ∈ (splitCases items).2, IsClosedCase case

def CasesReads (cases : Cases ε δ ν) : Prop :=
  ∃ items, IsCases (statementTokens (emitCases cases)) (normalizeCases cases) items

theorem isCases_nil : IsCases ([] : List (StatementToken ε δ ν)) .nil [] :=
  ⟨fun _ => .nil, ⟨[], rfl, rfl⟩, trivial, rfl, List.forall_mem_nil _⟩

/-- The `break` at the end of a case, as it is parsed. -/
def parsedBreak (region : List (Statement ε δ ν)) : List (CStatement ε δ ν) :=
  if hasFallthrough region then [.breakTo none] else []

theorem itemsAt_parsedBreak (region : List (Statement ε δ ν)) {rest : List (StatementToken ε δ ν)}
    (h : ItemsAt text items rest) :
    ItemsAt (statementTokens (if hasFallthrough region then emitPlainJump .«break» else []) ++ text)
      (parsedBreak region ++ items) rest := by
  rw [parsedBreak]
  split_ifs
  · exact .cons (.of_some fun k => rfl) h
  · exact h

theorem readAll_parsedBreak (region : List (Statement ε δ ν)) (h : readAll items = some read) :
    readAll (parsedBreak region ++ items) =
      some ((caseBreak region).map .statement ++ read) := by
  rw [parsedBreak, caseBreak]
  split_ifs
  · exact readAll_cons rfl h
  · exact h

theorem closesCasesAll_parsedBreak (region : List (Statement ε δ ν)) (h : ClosesCasesAll items) :
    ClosesCasesAll (parsedBreak region ++ items) := by
  rw [parsedBreak]
  split_ifs
  · exact ⟨trivial, h⟩
  · exact h

theorem splitCases_parsedBreak (region : List (Statement ε δ ν)) (h : (splitCases items).1 = []) :
    splitCases (parsedBreak region ++ items) = (parsedBreak region, (splitCases items).2) := by
  rw [parsedBreak]
  split_ifs
  · show (CStatement.breakTo none :: (splitCases items).1, (splitCases items).2) = _
    rw [h]
  · exact Prod.ext h rfl

/-- A body and the `break` after it. -/
theorem IsBody.isClosedCase {region' : List (Statement ε δ ν)}
    (h : IsBody text region' (hasFallthrough region = false) c) :
    IsClosedCase (c :: parsedBreak region) := by
  cases hfallthrough : hasFallthrough region with
  | true =>
    refine ⟨[c], [.breakTo none], ?_, fun s hs => ?_, .inl ⟨_, rfl, rfl⟩⟩
    · rw [parsedBreak, if_pos hfallthrough]
      rfl
    · cases hs
      exact h.isBreak (by rw [hfallthrough]; nofun)
  | false =>
    rw [parsedBreak, if_neg (by rw [hfallthrough]; nofun)]
    cases hbreak : c.isBreak with
    | true => exact ⟨[], [c], rfl, nofun, .inl ⟨c, rfl, hbreak⟩⟩
    | false =>
      refine ⟨[c], [], rfl, fun s hs => ?_, .inr ⟨rfl, h.mayComplete hfallthrough⟩⟩
      cases hs
      exact hbreak

/-- A labelled body, its `break` and the other cases. -/
theorem IsCases.cons {text' : List (StatementToken ε δ ν)} {region' : List (Statement ε δ ν)}
    {cases' : Cases ε δ ν} (h : IsCases text' cases items)
    (hbody : IsBody text region' (hasFallthrough region = false) c) (hne : labels ≠ [])
    (hcases : ∀ s read, withoutBlock [s] = withoutBlock region' →
      toCases? read = some ([], cases) →
        toCases? (labels.map .caseLabel ++
          .statement s :: ((caseBreak region).map .statement ++ read)) = some ([], cases')) :
    IsCases (labels.flatMap labelTokens ++ (text ++
      (statementTokens (if hasFallthrough region then emitPlainJump .«break» else []) ++ text')))
      cases' (labels.foldr .case c :: (parsedBreak region ++ items)) := by
  obtain ⟨s, hs, heq⟩ := hbody.reads
  obtain ⟨read, hread, hcasesRead⟩ := h.reads
  have hsplit : splitCases (labels.foldr CStatement.case c :: (parsedBreak region ++ items)) =
      ([], (c :: parsedBreak region) :: (splitCases items).2) := by
    rw [splitCases, splitCases_parsedBreak region h.labeled, unlabeled?_labels hne (ne_case_of_read hs)]
  refine ⟨fun rest => ?_, ⟨_, readAll_cons (read_labels labels hs)
    (readAll_parsedBreak region hread), ?_⟩, ⟨closesCases_labels labels hbody.closes,
      closesCasesAll_parsedBreak region h.closes⟩, ?_, ?_⟩
  · have hparse := parses_labels labels (hbody.parses
      (statementTokens (if hasFallthrough region then emitPlainJump .«break» else []) ++
        (text' ++ rightBrace :: rest)))
    rw [List.append_assoc, List.append_assoc, List.append_assoc]
    exact .cons hparse (itemsAt_parsedBreak region (h.parses rest))
  · rw [List.append_assoc]
    exact hcases s read heq hcasesRead
  · rw [hsplit]
  · rw [hsplit]
    exact List.forall_mem_cons.2 ⟨hbody.isClosedCase, h.closed⟩

/-- The body of a case as it is printed. -/
theorem RegionReads.caseRegion (h : RegionReads true region) :
    ∃ text, statementTokens (emitCaseRegion region (emitStatementRegion true none region)) =
        text ++ statementTokens (if hasFallthrough region then emitPlainJump .«break» else []) ∧
      ReadsRegion text (normalizeRegion true region) (hasFallthrough region = false) := by
  have hbraces : (!mayElideRegionBraces region) = false → mayElideRegionBraces region = true :=
    fun hbraces => (Bool.not_eq_false' _).mp hbraces
  refine ⟨_, ?_, h.body hbraces⟩
  rw [emitCaseRegion, statementTokens_append, statementTokens_append]
  have hlayout : statementTokens (if !mayElideRegionBraces region then
      (if hasFallthrough region then [StatementPiece.space] else [StatementPiece.newline])
        else ([] : Pieces ε δ ν)) = [] := by
    split_ifs <;> rfl
  rw [hlayout, List.nil_append]

theorem casesReads_nil : CasesReads (.nil : Cases ε δ ν) := ⟨[], isCases_nil⟩

theorem RegionReads.default (h : RegionReads true region) : CasesReads (.default region) := by
  obtain ⟨text, htext, c, hc⟩ := h.caseRegion
  have htokens : statementTokens (emitCases (.default region)) =
      [none].flatMap labelTokens ++ (text ++ (statementTokens
        (if hasFallthrough region then emitPlainJump .«break» else []) ++ [])) := by
    rw [emitCases, statementTokens_keyword, statementTokens_token, htext, List.append_nil]
    rfl
  unfold CasesReads
  rw [htokens]
  refine ⟨_, isCases_nil.cons hc (List.cons_ne_nil _ _) fun s read heq hread => ?_⟩
  rw [normalizeCases, ← heq]
  exact toCases?_default s region hread

theorem statementTokens_emitCaseValues (v : ν) (values : List ν) :
    statementTokens (emitCaseValues v values : Pieces ε δ ν) =
      ((v :: values).map some).flatMap labelTokens := by
  have hmore : statementTokens (values.flatMap fun v => [.newline, emitKeyword .case, .space,
      .token (.value v), .token .colon] : Pieces ε δ ν) = (values.map some).flatMap labelTokens := by
    induction values with
    | nil => rfl
    | cons v' values ih =>
      rw [List.flatMap_cons, statementTokens_append, ih]
      rfl
  rw [emitCaseValues, statementTokens_keyword, statementTokens_space, statementTokens_token,
    statementTokens_token, hmore]
  rfl

theorem RegionReads.case (h : RegionReads true region) (hcases : CasesReads cases) (v : ν)
    (values : List ν) : CasesReads (.case v values region cases) := by
  obtain ⟨text, htext, c, hc⟩ := h.caseRegion
  obtain ⟨items, hitems⟩ := hcases
  have htokens : statementTokens (emitCases (.case v values region cases)) =
      ((v :: values).map some).flatMap labelTokens ++ (text ++ (statementTokens
        (if hasFallthrough region then emitPlainJump .«break» else []) ++
          statementTokens (emitCases cases))) := by
    rw [emitCases, statementTokens_append, statementTokens_append, statementTokens_emitCaseValues,
      htext, List.append_assoc]
  unfold CasesReads
  rw [htokens]
  refine ⟨_, hitems.cons hc (List.cons_ne_nil _ _) fun s read heq hread => ?_⟩
  rw [normalizeCases, ← heq]
  exact toCases?_case v values s region hread

theorem StatementReads.switchOp (comments : List Text) (condition : ε) (h : CasesReads cases) :
    StatementReads (.switchOp comments condition cases) := by
  refine ⟨nofun, fun _ previous following text' region' ends' hitems _ => ?_, nofun⟩
  obtain ⟨items, hcases⟩ := h
  obtain ⟨read, hread, htoCases⟩ := hcases.reads
  have hswitch : IsStatement (keyword .«switch» :: leftParenthesis :: expression condition ::
      rightParenthesis :: leftBrace :: (statementTokens (emitCases cases) ++ [rightBrace]))
        (.switchOp [] condition (normalizeCases cases)) (.switch condition (.compound items)) := by
    refine ⟨fun rest _ => ?_, ?_, hcases.closes, hcases.closed⟩
    · refine .of_succ (g := fun k => (parseStatement k _).bind _) (fun k => rfl) ?_
      exact (yields_compound (hcases.parses rest)).bind (.some _)
    · rw [CStatement.read, hread]
      show (readCases? read).bind _ = _
      rw [readCases?, htoCases]
      rfl
  have hstatement := ((hitems.statement hswitch).imp .inl).afterFallthrough (p := text' = [])
  show ReadsItems (statementTokens (emitHead .«switch» condition ++ (.space :: .token .leftBrace ::
    .newline :: (emitCases cases ++ [.token .rightBrace, .newline]))) ++ text') _ _
  rw [statementTokens_emitHead, statementTokens_space, statementTokens_token,
    statementTokens_newline, statementTokens_append]
  exact hstatement

end

/-! ## Every statement is read -/

mutual

theorem statementReads : ∀ s : Statement ε δ ν, StatementReads s
  | .makeLabel _ => .invisible rfl
  | .require => .invisible rfl
  | .assignLabel comments label => .assignLabel comments label
  | .localVariable comments comment d => .localVariable comments comment d
  | .expressionStatement _ _ => .simple rfl
  | .goto _ _ => .simple rfl
  | .breakTo _ _ => .simple rfl
  | .continueTo _ _ => .simple rfl
  | .returnOp _ _ => .simple rfl
  | .ifOp _ _ thenRegion elseRegion =>
    .ifOp ((regionSpec thenRegion).reads true) (regionSpec elseRegion)
  | .switchOp comments condition cases => .switchOp comments condition (casesReads cases)
  | .forOp comments labels initializer condition e body =>
    .forOp comments labels initializer condition e ((regionSpec body).reads true)
  | .whileOp comments labels condition body =>
    .whileOp comments labels condition ((regionSpec body).reads true)
  | .doWhile comments labels body condition =>
    .doWhile comments labels condition ((regionSpec body).reads true)
  | .blockStatement comments block => .blockStatement comments ((regionSpec block).reads false)

theorem regionSpec : ∀ region : List (Statement ε δ ν), RegionSpec region
  | [] => .nil
  | s :: region => .cons (statementReads s) (regionSpec region)

theorem casesReads : ∀ cases : Cases ε δ ν, CasesReads cases
  | .nil => casesReads_nil
  | .default region => ((regionSpec region).reads true).default
  | .case v values region cases =>
    ((regionSpec region).reads true).case (casesReads cases) v values

end

/-- The printed tokens of a body are parsed back. -/
theorem reads_emitFunctionBody (body : List (Statement ε δ ν)) :
    ∃ c, Yields (fun fuel => parseStatement fuel (statementTokens (emitFunctionBody body))) (c, []) ∧
      c.read = some ((Statement.blockStatement [] body).normalize.map .statement) ∧
        c.ClosesCases := by
  obtain ⟨items, hitems⟩ := (regionSpec body).reads false none [] [] False readsItems_nil
  rw [List.append_nil, List.append_nil] at hitems
  refine ⟨.compound items, ?_, read_compound hitems.reads, hitems.closes⟩
  have hcompound := yields_compound (hitems.parses [])
  rw [List.append_nil] at hcompound
  rw [emitFunctionBody, statementTokens_token, statementTokens_newline, statementTokens_append]
  exact hcompound

/-- The text of a function is parsed back to the same statements, up to what is not printed and to
redundant blocks, with one `break` at the end of each case that has a fallthrough, and no case of a
switch in it runs into the next one. -/
def BodyReadsBack (body : List (Statement ε δ ν)) : Prop :=
  ∃ c, Yields (fun fuel => parseStatement fuel (readTokens false (emitFunctionBody body))) (c, []) ∧
    c.read = some ((Statement.blockStatement [] body).normalize.map .statement) ∧ c.ClosesCases

theorem readsBack_of_keepsLines {body : List (Statement ε δ ν)}
    (h : regionKeepsLines false none body = true) : BodyReadsBack body := by
  have hkeeps := (laidOut_emitFunctionBody body).keeps
  rw [h] at hkeeps
  have htokens := hkeeps []
  rw [List.append_nil, readTokens, List.append_nil] at htokens
  rw [BodyReadsBack, htokens]
  exact reads_emitFunctionBody body

/-- Both texts are read as the same statements, so no weight is lost. -/
theorem keepsLines_of_readsBack {body : List (Statement ε δ ν)} (h : BodyReadsBack body) :
    regionKeepsLines false none body = true := by
  obtain ⟨c, ⟨n, hparse⟩, hread, -⟩ := reads_emitFunctionBody body
  obtain ⟨c', ⟨n', hparse'⟩, hread', -⟩ := h
  have hweight := (weight_of_reads (hparse n le_rfl) hread).trans
    (weight_of_reads (hparse' n' le_rfl) hread').symm
  have hkeeps := (laidOut_emitFunctionBody body).keeps
  by_contra hlost
  rw [Bool.not_eq_true] at hlost
  rw [hlost] at hkeeps
  have hlt := hkeeps []
  rw [List.append_nil, ← hweight] at hlt
  exact absurd hlt (by simp [readTokens, textWeight])

/-- What is read of it. -/
example : readTokens false (emitFunctionBody [.switchOp [] 0 (.case 1 [] [.returnOp [['\\']] none]
    (.case 2 [] [.expressionStatement [] 3] .nil))] : Pieces Nat Nat Nat) =
      [leftBrace, keyword .«switch», leftParenthesis, expression 0, rightParenthesis, leftBrace,
        keyword .case, value 1, colon, keyword .case, value 2, colon, expression 3, semicolon,
        keyword .«break», semicolon, rightBrace, rightBrace] := rfl

end CliftEmitC
