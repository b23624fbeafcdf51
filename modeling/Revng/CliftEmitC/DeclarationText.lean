import Revng.CliftEmitC.DeclarationRoundTrip

/-!
# The text of a declaration

The lines of a declaration have no newline in them, and no token in them makes the one before it
longer.  So the text is cut into the tokens that were printed, and read back
(`reads_declaration`).
-/

namespace CliftEmitC

open Piece

variable {scope : Scope} {pointerSize : Nat}

/-! ## Plain pieces -/

/-- A space, or a token that is spelled as one of its kind and is not a string. -/
def Piece.isPlain : Piece → Bool
  | space => true
  | token (.string _) => false
  | token t => t.isValid

def Plain (pieces : List Piece) : Prop := ∀ p ∈ pieces, p.isPlain = true

section Plain

variable {p : Piece} {ps qs : List Piece}

theorem plain_nil : Plain [] := List.forall_mem_nil _

theorem plain_cons : Plain (p :: ps) ↔ p.isPlain = true ∧ Plain ps := List.forall_mem_cons

theorem plain_append : Plain (ps ++ qs) ↔ Plain ps ∧ Plain qs := List.forall_mem_append

theorem Plain.allValid (h : Plain ps) : AllValid ps := by
  intro t ht
  obtain ⟨p, hp, htoken⟩ := List.mem_filterMap.1 ht
  have hplain := h p hp
  cases p with
  | space => cases htoken
  | token t' =>
    cases htoken
    cases t with
    | string contents => cases hplain
    | _ => exact hplain

theorem newline_notMem_of_all {text : Text} (h : text.all isIdentifierCharacter = true) :
    '\n' ∉ text := by
  intro hmem
  have hnewline := List.all_eq_true.1 h '\n' hmem
  revert hnewline
  decide

theorem all_of_validateIdentifier {name : Text} (h : validateIdentifier name = true) :
    name.all isIdentifierCharacter = true := by
  cases name with
  | nil => rfl
  | cons c name =>
    rw [validateIdentifier, Bool.and_eq_true] at h
    rw [List.all_cons, isIdentifierCharacter_of_isInitial h.1, h.2, Bool.and_self]

theorem newline_notMem_spelling (h : p.isPlain = true) : '\n' ∉ p.spelling := by
  cases p with
  | space => decide
  | token t =>
    cases t with
    | word name => exact newline_notMem_of_all (all_of_validateIdentifier h)
    | number digits => exact newline_notMem_of_all (Bool.and_eq_true_iff.1 h).2
    | string contents => cases h
    | punctuator p => cases p <;> decide

theorem Plain.newline_notMem (h : Plain ps) : '\n' ∉ spell ps := by
  intro hmem
  obtain ⟨p, hp, hnewline⟩ := List.mem_flatMap.1 hmem
  exact newline_notMem_spelling (h p hp) hnewline

end Plain

/-! ## Lines -/

/-- The text of the lines. -/
def linesText (lines : List (List Piece)) : Text := ['\n'].intercalate (lines.map spell)

theorem lexLines_linesText {lines : List (List Piece)} (hne : lines ≠ [])
    (hplain : ∀ line ∈ lines, Plain line) (hspaced : ∀ line ∈ lines, SpacedBut false line) :
    Scope.lexLines (linesText lines) = some (lines.flatMap tokens) := by
  have hsplit : (linesText lines).splitOn '\n' = lines.map spell := by
    refine List.splitOn_intercalate '\n' (fun text htext => ?_) (by simpa using hne)
    obtain ⟨line, hline, rfl⟩ := List.mem_map.1 htext
    exact (hplain line hline).newline_notMem
  have hlex : (lines.map spell).mapM lex = some (lines.map tokens) := by
    clear hne hsplit
    induction lines with
    | nil => rfl
    | cons line lines ih =>
      obtain ⟨hline, hlines⟩ := List.forall_mem_cons.1 hplain
      obtain ⟨hspace, hspaces⟩ := List.forall_mem_cons.1 hspaced
      rw [List.map_cons, List.mapM_cons, lex_spell hline.allValid hspace.spaced, ih hlines hspaces]
      rfl
  rw [Scope.lexLines, hsplit, hlex, Option.map_some, List.flatMap]

/-! ## The tokens of a type -/

theorem isValid_getPrimitiveTypeCName (type : PrimitiveType) :
    (Token.word (getPrimitiveTypeCName type)).isValid = true := by
  have hsize : ∀ size,
      (Numeral.writeDigits 10 (size * 8) ++ "_t".toList).all isIdentifierCharacter = true := by
    intro size
    rw [List.all_append, all_isIdentifierCharacter_writeDigits (by decide) (by decide),
      Bool.true_and]
    decide
  cases type with
  | void => decide
  | integer kind size =>
    refine isValid_word_append ?_ (hsize size)
    cases kind <;> decide
  | float size => exact isValid_word_append (by decide) (hsize size)

theorem plain_constPieces (isConst : Bool) : Plain (constPieces isConst) := by
  cases isConst with
  | false => exact plain_nil
  | true => exact plain_cons.2 ⟨isValid_const, plain_cons.2 ⟨rfl, plain_nil⟩⟩

theorem plain_emitAfter (isPointee : Bool) (type : CType) : Plain (emitAfter isPointee type) := by
  induction type generalizing isPointee with
  | named isConst name => exact plain_nil
  | pointer isConst pointee ih => exact ih true
  | foreignPointer isConst size pointee ih => exact plain_nil
  | array element extent ih =>
    have helement : Plain ([punctuator .leftBracket, number (Numeral.writeDigits 10 extent),
        punctuator .rightBracket] ++ emitAfter false element) :=
      plain_append.2 ⟨plain_cons.2 ⟨rfl, plain_cons.2 ⟨isValid_writeDigits extent,
        plain_cons.2 ⟨rfl, plain_nil⟩⟩⟩, ih false⟩
    cases isPointee with
    | false => exact helement
    | true => exact plain_cons.2 ⟨rfl, helement⟩

variable {type : CliftType}

theorem plain_emitBefore (h : scope.Declares type) (isPointee : Bool) :
    Plain (emitBefore isPointee (type.toCType pointerSize)).1 := by
  induction type generalizing isPointee with
  | primitive isConst type =>
    exact plain_append.2 ⟨plain_constPieces isConst,
      plain_cons.2 ⟨isValid_getPrimitiveTypeCName type, plain_nil⟩⟩
  | defined isConst name =>
    exact plain_append.2 ⟨plain_constPieces isConst, plain_cons.2 ⟨h.1, plain_nil⟩⟩
  | pointer isConst size pointee ih =>
    rw [CliftType.toCType]
    split_ifs
    · refine plain_append.2 ⟨ih h true, plain_append.2 ⟨?_, plain_cons.2
        ⟨rfl, plain_constPieces isConst⟩⟩⟩
      split
      · exact plain_cons.2 ⟨rfl, plain_nil⟩
      · exact plain_nil
    · refine plain_append.2 ⟨plain_constPieces isConst, plain_cons.2
        ⟨isValid_foreignPointer size.bytes, plain_cons.2 ⟨rfl, ?_⟩⟩⟩
      exact plain_append.2 ⟨ih h false, plain_append.2 ⟨plain_emitAfter false _,
        plain_cons.2 ⟨rfl, plain_nil⟩⟩⟩
  | array element extent ih =>
    cases isPointee with
    | false => exact ih h false
    | true => exact plain_append.2 ⟨ih h false, plain_cons.2 ⟨rfl, plain_nil⟩⟩

theorem plain_emitName (needSpace : Bool) {name : Option Text}
    (h : ∀ identifier, name = some identifier → validateIdentifier identifier = true) :
    Plain (emitName needSpace name) := by
  cases name with
  | none => exact plain_nil
  | some identifier =>
    have hname : Plain [word identifier] := plain_cons.2 ⟨h identifier rfl, plain_nil⟩
    cases needSpace with
    | false => exact hname
    | true => exact plain_cons.2 ⟨rfl, hname⟩

/-! ## The spaces of a type -/

/-- Without a space, a star or a neutral piece comes last before the name. -/
theorem getLast?_emitBefore (isPointee : Bool) (type : CType)
    (h : (emitBefore isPointee type).2 = false) :
    ∀ p ∈ (emitBefore isPointee type).1.getLast?, p = punctuator .star ∨ p.isNeutral = true := by
  induction type generalizing isPointee with
  | named isConst name => cases h
  | foreignPointer isConst size pointee ih => cases h
  | pointer isConst pointee ih =>
    show ∀ p ∈ ((emitBefore true pointee).1 ++ (_ ++ (punctuator .star ::
      constPieces isConst))).getLast?, _
    intro p hp
    rw [← List.append_assoc, List.getLast?_append] at hp
    cases isConst with
    | false =>
      cases hp
      exact .inl rfl
    | true =>
      cases hp
      exact .inr rfl
  | array element extent ih =>
    cases isPointee with
    | false => exact ih false h
    | true =>
      show ∀ p ∈ ((emitBefore false element).1 ++ [punctuator .leftParenthesis]).getLast?, _
      intro p hp
      rw [List.getLast?_append] at hp
      cases hp
      exact .inr rfl

theorem mayPrecede_word {p : Piece} (hp : p = punctuator .star ∨ p.isNeutral = true) {name : Text}
    (hname : validateIdentifier name = true) : p.MayPrecede (word name) := by
  rcases hp with rfl | hp
  · intro c hc
    exact Token.stopsAt_of_continues (Punctuator.continues_eq_false
      (Token.head?_spelling (t := .word name) hname nofun hc)) nofun nofun
  · exact Piece.mayPrecede_of_left hp

/-- A name after what comes before it, and before a neutral piece. -/
theorem spaced_name (isPointee : Bool) (type : CType) {name : Text}
    (hname : validateIdentifier name = true) {after : List Piece} (hafter : SpacedBut false after)
    (hneutral : ∀ p ∈ after.head?, p.isNeutral = true) :
    SpacedBut false ((emitBefore isPointee type).1 ++
      (emitName (emitBefore isPointee type).2 (some name) ++ after)) := by
  have hword : SpacedBut false (word name :: after) :=
    spaced_singleton.append hafter fun p _ q hq =>
      .inl (Piece.mayPrecede_of_right (hneutral q hq))
  have hbefore : SpacedBut false (emitBefore isPointee type).1 :=
    (spaced_emitBefore isPointee type).1
  cases hspace : (emitBefore isPointee type).2 with
  | true => exact (spaced_append_cons rfl).2 ⟨hbefore, hword⟩
  | false =>
    refine hbefore.append hword fun p hp q hq => ?_
    cases hq
    exact .inl (mayPrecede_word (getLast?_emitBefore isPointee type hspace p hp) hname)

/-! ## The lines of a declaration -/

/-- The pieces are cut into the tokens among them. -/
structure IsLine (pieces : List Piece) : Prop where
  plain : Plain pieces
  spaced : SpacedBut false pieces

section IsLine

variable {p : Piece} {ps qs : List Piece}

theorem isLine_nil : IsLine [] := ⟨plain_nil, spaced_nil⟩

theorem isLine_singleton (h : p.isPlain = true) : IsLine [p] :=
  ⟨plain_cons.2 ⟨h, plain_nil⟩, spaced_singleton⟩

theorem IsLine.cons (h : IsLine ps) (hplain : p.isPlain = true) (hneutral : p.isNeutral = true) :
    IsLine (p :: ps) :=
  ⟨plain_cons.2 ⟨hplain, h.plain⟩, (spaced_cons hneutral).2 h.spaced⟩

/-- A neutral piece between two lines. -/
theorem IsLine.append_cons (h : IsLine ps) (h' : IsLine qs) (hplain : p.isPlain = true)
    (hneutral : p.isNeutral = true) : IsLine (ps ++ p :: qs) :=
  ⟨plain_append.2 ⟨h.plain, plain_cons.2 ⟨hplain, h'.plain⟩⟩,
    (spaced_append_cons hneutral).2 ⟨h.spaced, h'.spaced⟩⟩

theorem isLine_separate {parts : List (List Piece)} (h : ∀ part ∈ parts, IsLine part) :
    IsLine (separate [punctuator .comma, space] parts) := by
  induction parts with
  | nil => exact isLine_nil
  | cons part parts ih =>
    obtain ⟨hpart, hparts⟩ := List.forall_mem_cons.1 h
    cases parts with
    | nil => exact hpart
    | cons part' parts => exact hpart.append_cons ((ih hparts).cons rfl rfl) rfl rfl

end IsLine

theorem isLine_emitAround (h : scope.Declares type) {name : Option Text}
    (hname : ∀ identifier, name = some identifier → validateIdentifier identifier = true) :
    IsLine (emitAround (emitLevels pointerSize type) name []) := by
  rw [emitAround_eq]
  refine ⟨plain_append.2 ⟨plain_emitBefore h false, plain_append.2
    ⟨plain_emitName _ hname, plain_emitAfter false _⟩⟩, ?_⟩
  cases name with
  | none => exact spaced_append_emitAfter (spaced_emitBefore false _).1 false _
  | some identifier =>
    exact spaced_name false _ (hname identifier rfl) (spaced_emitAfter false _)
      (isNeutral_head?_emitAfter false _)

theorem isLine_emitCAttributeArgument {argument : CAttributeArgument}
    (h : argument.IsDeclared scope) : IsLine (emitCAttributeArgument pointerSize argument) := by
  cases argument with
  | identifier name => exact isLine_singleton h
  | integer value => exact isLine_singleton (isValid_writeDigits value)
  | type type => exact isLine_emitAround h nofun

theorem isLine_emitCAttribute {cAttribute : CAttribute} (h : cAttribute.IsDeclared scope) :
    IsLine (emitCAttribute pointerSize cAttribute) := by
  obtain ⟨name, arguments⟩ := cAttribute
  have hname : IsLine [word name] := isLine_singleton (p := word name) h.valid
  cases arguments with
  | none => exact hname
  | some arguments =>
    have hseparate : IsLine (separate [punctuator .comma, space]
        (arguments.map (emitCAttributeArgument pointerSize))) := by
      refine isLine_separate fun part hpart => ?_
      obtain ⟨argument, hargument, rfl⟩ := List.mem_map.1 hpart
      exact isLine_emitCAttributeArgument (h.arguments arguments rfl argument hargument)
    exact hname.append_cons (hseparate.append_cons isLine_nil rfl rfl) rfl rfl

theorem IsLine.append_emitCAttributes {ps : List Piece} (h : IsLine ps)
    {cAttributes : List CAttribute}
    (hcAttributes : ∀ cAttribute ∈ cAttributes, cAttribute.IsDeclared scope) :
    IsLine (ps ++ emitCAttributes pointerSize cAttributes) := by
  induction cAttributes generalizing ps with
  | nil =>
    rw [emitCAttributes, List.flatMap_nil, List.append_nil]
    exact h
  | cons cAttribute cAttributes ih =>
    obtain ⟨hfirst, hmore⟩ := List.forall_mem_cons.1 hcAttributes
    have hline := h.append_cons (isLine_emitCAttribute hfirst : IsLine (emitCAttribute pointerSize _))
      (p := space) rfl rfl
    have hlines := ih hline hmore
    rw [List.append_assoc] at hlines
    exact hlines

theorem isLine_emitParameter (h : scope.Declares type) {declarator : Option ParameterDeclaratorInfo}
    (hdeclarator : scope.DeclaresParameter? declarator) :
    IsLine (emitParameter pointerSize type declarator) := by
  cases declarator with
  | none => exact isLine_emitAround h nofun
  | some parameter =>
    have hparameter := hdeclarator parameter rfl
    refine (isLine_emitAround h fun identifier heq => ?_).append_emitCAttributes
      hparameter.cAttributes
    cases heq
    exact hparameter.name.1

variable {types : List CliftType} {declarators : List (Option ParameterDeclaratorInfo)}

theorem isLine_zipWith_emitParameter (htypes : ∀ type ∈ types, scope.Declares type)
    (hdeclarators : ∀ declarator ∈ declarators, scope.DeclaresParameter? declarator) :
    ∀ part ∈ List.zipWith (emitParameter pointerSize) types declarators, IsLine part := by
  induction types generalizing declarators with
  | nil => exact List.forall_mem_nil _
  | cons type types ih =>
    cases declarators with
    | nil => exact List.forall_mem_nil _
    | cons declarator declarators =>
      obtain ⟨htype, htypes⟩ := List.forall_mem_cons.1 htypes
      obtain ⟨hdeclarator, hdeclarators⟩ := List.forall_mem_cons.1 hdeclarators
      exact List.forall_mem_cons.2 ⟨isLine_emitParameter htype hdeclarator,
        ih htypes hdeclarators⟩

variable (pointerSize) in
theorem isLine_emitParameters (htypes : ∀ type ∈ types, scope.Declares type)
    (hdeclarators : ∀ declarator ∈ declarators, scope.DeclaresParameter? declarator) :
    IsLine (emitParameters pointerSize types declarators) := by
  refine IsLine.cons ?_ rfl rfl
  split_ifs
  · exact (isLine_singleton (by decide)).append_cons isLine_nil rfl rfl
  · exact (isLine_separate (isLine_zipWith_emitParameter htypes hdeclarators)).append_cons
      isLine_nil rfl rfl

/-- The line of an expanded function type. -/
theorem isLine_function (h : scope.Declares type) {name : Text}
    (hname : validateIdentifier name = true) (htypes : ∀ type ∈ types, scope.Declares type)
    (hdeclarators : ∀ declarator ∈ declarators, scope.DeclaresParameter? declarator) :
    IsLine (emitAround ((emitLevels pointerSize type).1,
      .function :: (emitLevels pointerSize type).2) (some name)
        (emitParameters pointerSize types declarators)) := by
  have hparameters := isLine_emitParameters pointerSize htypes hdeclarators
  rw [emitAround_function]
  constructor
  · refine plain_append.2 ⟨plain_emitBefore h true, plain_append.2 ⟨plain_emitName _ ?_,
      plain_append.2 ⟨hparameters.plain, plain_emitAfter true _⟩⟩⟩
    intro identifier heq
    cases heq
    exact hname
  · refine spaced_name true _ hname
      (spaced_append_emitAfter hparameters.spaced true _) fun p hp => ?_
    cases hp
    rfl

theorem isLine_emitObject {declarator : DeclaratorInfo} (h : scope.Declares type)
    (hname : scope.IsName declarator.identifier)
    (hcAttributes : ∀ cAttribute ∈ declarator.cAttributes, cAttribute.IsDeclared scope) :
    IsLine (emitObject pointerSize type declarator) := by
  refine (isLine_emitAround h fun identifier heq => ?_).append_emitCAttributes hcAttributes
  cases heq
  exact hname.1

theorem isLine_emitDeclaration {type : DeclaredType} {declarator : DeclaratorInfo}
    (h : scope.DeclaresAll type declarator) {lines : List (List Piece)}
    (hlines : emitDeclaration pointerSize type declarator = some lines) :
    lines ≠ [] ∧ ∀ line ∈ lines, IsLine line := by
  have htype := h.type
  cases type with
  | object type =>
    cases hlines
    exact ⟨List.cons_ne_nil _ _,
      List.forall_mem_singleton.2 (isLine_emitObject htype h.name h.cAttributes)⟩
  | function type =>
    rw [emitDeclaration] at hlines
    rw [Scope.DeclaresType] at htype
    split_ifs at hlines htype with hfunction
    · obtain ⟨hreturn, harguments, hcomplete⟩ := htype
      rw [Scope.parameterDeclarators_eq hcomplete] at hlines
      cases hlines
      refine ⟨List.append_ne_nil_of_right_ne_nil _ (List.cons_ne_nil _ _),
        List.forall_mem_append.2 ⟨fun line hline => ?_, List.forall_mem_singleton.2 ?_⟩⟩
      · obtain ⟨cAttribute, hmem, rfl⟩ := List.mem_map.1 hline
        exact isLine_emitCAttribute (h.cAttributes cAttribute hmem)
      · exact isLine_function hreturn h.name.1 harguments
          (Scope.declaresParameter_declarators h.parameters)
    · cases hlines
      exact ⟨List.cons_ne_nil _ _,
        List.forall_mem_singleton.2 (isLine_emitObject htype h.name h.cAttributes)⟩

/-! ## Reading a declaration back -/

/-- A declaration is printed, and it declares its name with its type. -/
theorem reads_declaration {type : DeclaredType} {declarator : DeclaratorInfo}
    (h : scope.DeclaresAll type declarator) :
    ∃ lines, emitDeclaration pointerSize type declarator = some lines ∧
      Yields (fun fuel => scope.readDeclaration pointerSize fuel (linesText lines))
        (some declarator.identifier, type.toRead declarator) := by
  obtain ⟨lines, hlines, hyields⟩ := Scope.yields_declaration pointerSize h
  obtain ⟨hne, hall⟩ := isLine_emitDeclaration h hlines
  have hlex := lexLines_linesText hne (fun line hline => (hall line hline).plain)
    fun line hline => (hall line hline).spaced
  refine ⟨lines, hlines, ?_⟩
  unfold Scope.readDeclaration
  rw [hlex]
  exact hyields

/-- A scope of a struct, an integer type and an attribute. -/
def structScope : Scope where
  type name :=
    if name = "uint32_t".toList then some (.primitive (.integer .unsigned 4))
    else if name = "list".toList then some .defined else none
  isAttribute name := name = "_ABI".toList
  type_keyword := by decide
  type_foreignPointer name h := by
    rw [if_neg, if_neg]
    · rintro rfl
      revert h
      decide
    · rintro rfl
      revert h
      decide
  type_attribute name h := by
    obtain rfl := of_decide_eq_true h
    decide
  attribute_keyword := by decide
  attribute_foreignPointer name h := by
    refine decide_eq_false ?_
    rintro rfl
    revert h
    decide

/-- A function from a pointer to an array and a pointer of another size to a pointer. -/
def findType : FunctionType where
  name := "find_t".toList
  returnType := .pointer false .bytes8 (.defined true "list".toList)
  argumentTypes := [.pointer true .bytes8 (.array (.primitive false (.integer .unsigned 4)) 3),
    .pointer false .bytes4 (.array (.pointer false .bytes8 (.defined false "list".toList)) 2)]
  returns := .inl rfl
  takes := by decide

def findDeclarator : DeclaratorInfo where
  identifier := "find".toList
  cAttributes := [⟨"_ABI".toList, some [.identifier "SystemV".toList]⟩]
  isFunction := true
  parameters := some [⟨"keys".toList, []⟩, ⟨"lists".toList, []⟩]

theorem reads_declaration_find :
    ∃ lines, emitDeclaration 8 (.function findType) findDeclarator = some lines ∧
      Yields (fun fuel => structScope.readDeclaration 8 fuel (linesText lines))
        (some "find".toList, (DeclaredType.function findType).toRead findDeclarator) := by
  refine @reads_declaration structScope 8 (.function findType) findDeclarator
    ⟨⟨by decide, by decide⟩, ?_, ?_, ?_⟩
  · refine List.forall_mem_singleton.2 ⟨by decide, by decide, fun arguments h => ?_⟩
    cases h
    exact List.forall_mem_singleton.2 (by decide : validateIdentifier "SystemV".toList = true)
  · intro parameters h
    cases h
    exact List.forall_mem_cons.2 ⟨⟨⟨by decide, by decide⟩, List.forall_mem_nil _⟩,
      List.forall_mem_singleton.2 ⟨⟨by decide, by decide⟩, List.forall_mem_nil _⟩⟩
  · refine ⟨⟨by decide, rfl⟩, List.forall_mem_cons.2 ⟨rfl,
      List.forall_mem_singleton.2 ⟨by decide, rfl⟩⟩, fun parameters h => ?_⟩
    cases h
    rfl

example : (emitDeclaration 8 (.function findType) findDeclarator).map linesText =
    some ("_ABI(SystemV)\nconst list *find(uint32_t(*const keys)[3], " ++
      "pointer32_t(list *[2]) lists)").toList := by
  decide

end CliftEmitC
