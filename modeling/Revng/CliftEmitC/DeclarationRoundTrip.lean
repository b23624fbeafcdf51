import Revng.CliftEmitC.DeclarationReading

/-!
# Declarations are read back

Attributes are skipped, the parameters of a function are read one after the other, and the lines of
a declaration are cut into the tokens that were printed.  So the text of a declaration is read as
its name and its type (`reads_declaration`).
-/

namespace CliftEmitC

variable {scope : Scope} {pointerSize : Nat}

/-! ## Attributes -/

def CAttributeArgument.IsDeclared (scope : Scope) : CAttributeArgument → Prop
  | .identifier name => validateIdentifier name = true
  | .integer _ => True
  | CAttributeArgument.type argument => scope.Declares argument

/-- The name is that of an attribute, and the names in the arguments are in scope. -/
structure CAttribute.IsDeclared (scope : Scope) (cAttribute : CAttribute) : Prop where
  valid : validateIdentifier cAttribute.name = true
  isAttribute : scope.isAttribute cAttribute.name = true
  arguments : ∀ arguments, cAttribute.arguments = some arguments →
    ∀ argument ∈ arguments, argument.IsDeclared scope

theorem parseTypeName_argument (argument : CAttributeArgument) {p : Punctuator}
    (hp : p = .comma ∨ p = .rightParenthesis) (rest : List Token) :
    parseTypeName 0 (tokens (emitCAttributeArgument pointerSize argument) ++ .punctuator p :: rest) =
      (tokens (emitCAttributeArgument pointerSize argument), .punctuator p :: rest) := by
  cases argument with
  | identifier name => rcases hp with rfl | rfl <;> rfl
  | integer value => rcases hp with rfl | rfl <;> rfl
  | type type =>
    rw [emitCAttributeArgument, emitAround_eq, emitName, List.nil_append]
    exact TypeNames.parseTypeName_emitType _ hp rest

theorem skipArguments_comma (k : Nat) {text rest : List Token}
    (h : (parseTypeName 0 text).2 = .punctuator .comma :: rest) :
    Scope.skipArguments (k + 1) text = Scope.skipArguments k rest := by
  rw [Scope.skipArguments, h]

theorem skipArguments_right (k : Nat) {text rest : List Token}
    (h : (parseTypeName 0 text).2 = .punctuator .rightParenthesis :: rest) :
    Scope.skipArguments (k + 1) text = some rest := by
  rw [Scope.skipArguments, h]

theorem yields_skipArguments (arguments : List CAttributeArgument) (rest : List Token) :
    Yields (fun k => Scope.skipArguments k (tokens (separate [.punctuator .comma, .space]
      (arguments.map (emitCAttributeArgument pointerSize))) ++
        .punctuator .rightParenthesis :: rest)) rest := by
  induction arguments with
  | nil => exact .of_some fun k => skipArguments_right k rfl
  | cons argument arguments ih =>
    cases arguments with
    | nil =>
      refine .of_some fun k => skipArguments_right k ?_
      exact congrArg Prod.snd (parseTypeName_argument argument (.inr rfl) rest)
    | cons next arguments =>
      refine .of_succ (fun k => skipArguments_comma k ?_) ih
      rw [List.map_cons, List.map_cons, separate, tokens_append, List.append_assoc]
      exact congrArg Prod.snd (parseTypeName_argument argument (.inl rfl) _)

namespace Scope

variable {text : List Token}

theorem skipAttributes_of_ne (k : Nat)
    (h : ∀ name, text.head? = some (.word name) → scope.isAttribute name = false) :
    scope.skipAttributes (k + 1) text = some text := by
  cases text with
  | nil => rfl
  | cons t text =>
    cases t with
    | word name =>
      show (if scope.isAttribute name = true then _ else _) = _
      rw [h name rfl]
      rfl
    | _ => rfl

variable {name : Text}

theorem skipAttributes_arguments (k : Nat) (h : scope.isAttribute name = true) (text : List Token) :
    scope.skipAttributes (k + 1) (.word name :: .punctuator .leftParenthesis :: text) =
      (skipArguments k text).bind (scope.skipAttributes k) := by
  show (if scope.isAttribute name = true then _ else _) = _
  rw [if_pos h]
  rfl

theorem skipAttributes_name (k : Nat) (h : scope.isAttribute name = true)
    (htext : text.head? ≠ some (.punctuator .leftParenthesis)) :
    scope.skipAttributes (k + 1) (.word name :: text) = scope.skipAttributes k text := by
  show (if scope.isAttribute name = true then _ else _) = _
  rw [if_pos h]
  split
  next => exact absurd rfl htext
  next => rfl

/-- The tokens of attributes, where the spaces and the lines between them do not matter. -/
def attributeTokens (pointerSize : Nat) (cAttributes : List CAttribute) : List Token :=
  cAttributes.flatMap fun cAttribute => tokens (emitCAttribute pointerSize cAttribute)

variable {rest : List Token}

theorem yields_skipAttributes {cAttributes : List CAttribute}
    (h : ∀ cAttribute ∈ cAttributes, cAttribute.IsDeclared scope)
    (hname : ∀ name, rest.head? = some (.word name) → scope.isAttribute name = false)
    (hleft : rest.head? ≠ some (.punctuator .leftParenthesis)) :
    Yields (fun k => scope.skipAttributes k (attributeTokens pointerSize cAttributes ++ rest))
      rest := by
  induction cAttributes with
  | nil => exact .of_some fun k => skipAttributes_of_ne k hname
  | cons cAttribute cAttributes ih =>
    obtain ⟨hfirst, hmore⟩ := List.forall_mem_cons.1 h
    have hskip := ih hmore
    rw [attributeTokens, List.flatMap_cons, List.append_assoc]
    obtain ⟨name, arguments⟩ := cAttribute
    cases arguments with
    | none =>
      refine .of_succ (fun k => skipAttributes_name k hfirst.isAttribute ?_) hskip
      -- the next attribute begins with its name
      cases cAttributes with
      | nil => exact hleft
      | cons next cAttributes => exact nofun
    | some arguments =>
      have hempty : tokens (emitCAttribute pointerSize ⟨name, some arguments⟩) =
          .word name :: .punctuator .leftParenthesis ::
            (tokens (separate [.punctuator .comma, .space]
              (arguments.map (emitCAttributeArgument pointerSize))) ++
              [.punctuator .rightParenthesis]) := by
        simp [emitCAttribute]
      rw [hempty, List.cons_append, List.cons_append, List.append_assoc]
      refine .of_succ (fun k => skipAttributes_arguments k hfirst.isAttribute _) ?_
      exact (yields_skipArguments arguments _).bind (h := fun rest k =>
        scope.skipAttributes k rest) hskip

/-! ## The first word -/

theorem ne_void {type : NamedType} (h : scope.type name = some type) : name ≠ "void".toList := by
  rintro rfl
  exact (type_eq_some h).1 (by decide)

/-- A type begins with a word that is not an attribute.  When the word is `void` and the type can be
the type of a parameter, the specifiers are followed by a punctuator. -/
structure BeginsType (scope : Scope) (type : CliftType) (text : List Token) (name : Text)
    (more : List Token) : Prop where
  eq : text = .word name :: more
  isAttribute : scope.isAttribute name = false
  void : name = "void".toList → (more = [] ∧ type.isValueType = false) ∨
    ∃ p rest, more = .punctuator p :: rest ∧ p ≠ .rightParenthesis

variable {type : CliftType}

variable {more : List Token}

theorem beginsType_const (h : text = .word "const".toList :: more) :
    scope.BeginsType type text "const".toList more where
  eq := h
  isAttribute := scope.attribute_keyword _ List.mem_cons_self
  void hvoid := absurd hvoid (by decide)

theorem beginsType_named {named : NamedType} (h : scope.type name = some named)
    (htext : text = [.word name]) :
    scope.BeginsType type text name [] where
  eq := htext
  isAttribute := (type_eq_some h).2.2
  void hvoid := absurd hvoid (ne_void h)

/-- More punctuators come after a type. -/
theorem BeginsType.append {type' : CliftType} (h : scope.BeginsType type text name more)
    {p : Punctuator} (hp : p ≠ .rightParenthesis) (rest : List Token) :
    scope.BeginsType type' (text ++ .punctuator p :: rest) name
      (more ++ .punctuator p :: rest) where
  eq := by rw [h.eq, List.cons_append]
  isAttribute := h.isAttribute
  void hvoid := by
    right
    rcases h.void hvoid with ⟨rfl, -⟩ | ⟨q, tail, rfl, hq⟩
    · exact ⟨p, rest, rfl, hp⟩
    · exact ⟨q, tail ++ .punctuator p :: rest, rfl, hq⟩

variable (pointerSize) in
theorem exists_beginsType (h : scope.Declares type) (isPointee : Bool) :
    ∃ name more, scope.BeginsType type
      (tokens (emitBefore isPointee (type.toCType pointerSize)).1) name more := by
  induction type generalizing isPointee with
  | primitive isConst type =>
    cases isConst with
    | true => exact ⟨_, _, beginsType_const rfl⟩
    | false =>
      cases type with
      | void => exact ⟨_, _, rfl, scope.attribute_keyword _ (by decide), fun _ => .inl ⟨rfl, rfl⟩⟩
      | _ => exact ⟨_, _, beginsType_named h rfl⟩
  | defined isConst name =>
    cases isConst with
    | true => exact ⟨_, _, beginsType_const rfl⟩
    | false => exact ⟨_, _, beginsType_named h.2 rfl⟩
  | pointer isConst size pointee ih =>
    rw [CliftType.toCType]
    split_ifs with hsize
    · obtain ⟨name, more, hpointee⟩ := ih h true
      rw [tokens_emitBefore_pointer]
      exact ⟨_, _, hpointee.append (by decide) _⟩
    · rw [tokens_emitBefore_foreignPointer]
      cases isConst with
      | true => exact ⟨_, _, beginsType_const rfl⟩
      | false =>
        have hsize := foreignPointerSize_getForeignPointerMacroName size
        refine ⟨_, _, rfl, scope.attribute_foreignPointer _ (by rw [hsize]; rfl), fun hvoid => ?_⟩
        cases size <;> exact absurd hvoid (by decide)
  | array element extent ih =>
    cases isPointee with
    | false =>
      obtain ⟨name, more, helement⟩ := ih h false
      refine ⟨name, more, helement.eq, helement.isAttribute, fun hvoid => ?_⟩
      exact (helement.void hvoid).imp (fun hnil => ⟨hnil.1, rfl⟩) id
    | true =>
      obtain ⟨name, more, helement⟩ := ih h false
      show ∃ name more, scope.BeginsType _ (tokens ((emitBefore false
        (element.toCType pointerSize)).1 ++ [Piece.punctuator .leftParenthesis])) name more
      rw [tokens_append]
      exact ⟨_, _, helement.append (by decide) []⟩

/-! ## Parameters -/

/-- A name that a declarator may have. -/
def IsName (scope : Scope) (name : Text) : Prop :=
  validateIdentifier name = true ∧ scope.isIdentifier name = true

structure DeclaresParameter (scope : Scope) (parameter : ParameterDeclaratorInfo) : Prop where
  name : scope.IsName parameter.identifier
  cAttributes : ∀ cAttribute ∈ parameter.cAttributes, cAttribute.IsDeclared scope

/-- A parameter as it is read. -/
def readParameter (type : CliftType) (declarator : Option ParameterDeclaratorInfo) :
    Option Text × ReadType :=
  (declarator.map ParameterDeclaratorInfo.identifier, type.toRead)

def nameTokens (name : Option Text) : List Token := name.toList.map Token.word

theorem tokens_emitName (needSpace : Bool) (name : Option Text) :
    tokens (emitName needSpace name) = nameTokens name := by
  cases name with
  | none => rfl
  | some name => cases needSpace <;> rfl

theorem tokens_emitCAttributes (cAttributes : List CAttribute) :
    tokens (emitCAttributes pointerSize cAttributes) = attributeTokens pointerSize cAttributes := by
  induction cAttributes with
  | nil => rfl
  | cons cAttribute cAttributes ih =>
    rw [emitCAttributes, List.flatMap_cons, tokens_append, ← emitCAttributes, ih]
    rfl

/-- The tokens of a type around a name. -/
theorem tokens_emitAround (type : CliftType) (name : Option Text) :
    tokens (emitAround (emitLevels pointerSize type) name []) =
      tokens (emitBefore false (type.toCType pointerSize)).1 ++ (nameTokens name ++
        tokens (emitAfter false (type.toCType pointerSize))) := by
  rw [emitAround_eq, tokens_append, tokens_append, tokens_emitName]

theorem readsDirect_nameTokens {name : Option Text}
    (h : ∀ identifier, name = some identifier → scope.isIdentifier identifier = true) :
    scope.ReadsDirect pointerSize (nameTokens name) name id := by
  cases name with
  | none => exact readsDirect_nil
  | some identifier => exact readsDirect_name (h identifier rfl)

/-- A type around a name is read before attributes and the end of a declarator. -/
theorem yields_emitAround (h : scope.Declares type) {name : Option Text}
    (hname : ∀ identifier, name = some identifier → scope.isIdentifier identifier = true)
    (hrest : scope.Ends rest) :
    Yields (fun k => scope.parseParameter pointerSize k
      (tokens (emitAround (emitLevels pointerSize type) name []) ++ rest))
      (name, type.toRead, rest) := by
  rw [tokens_emitAround, List.append_assoc, List.append_assoc]
  exact reads_around h false (readsDirect_nameTokens hname) hrest

def parameterAttributes : Option ParameterDeclaratorInfo → List CAttribute
  | none => []
  | some parameter => parameter.cAttributes

theorem ends_attributeTokens {cAttributes : List CAttribute}
    (h : ∀ cAttribute ∈ cAttributes, cAttribute.IsDeclared scope) (hrest : scope.Ends rest) :
    scope.Ends (attributeTokens pointerSize cAttributes ++ rest) := by
  cases cAttributes with
  | nil => exact hrest
  | cons cAttribute cAttributes =>
    exact ends_cons (t := .word cAttribute.name) (h cAttribute List.mem_cons_self).isAttribute _

theorem tokens_emitParameter (type : CliftType) (declarator : Option ParameterDeclaratorInfo) :
    tokens (emitParameter pointerSize type declarator) =
      tokens (emitAround (emitLevels pointerSize type)
        (declarator.map ParameterDeclaratorInfo.identifier) []) ++
        attributeTokens pointerSize (parameterAttributes declarator) := by
  cases declarator with
  | none => exact (List.append_nil _).symm
  | some parameter => rw [emitParameter, tokens_append, tokens_emitCAttributes]; rfl

theorem parseParameterList_succ (k : Nat) (text : List Token) :
    scope.parseParameterList pointerSize (k + 1) text =
      (scope.parseParameter pointerSize k text).bind fun x =>
        (scope.skipAttributes k x.2.2).bind fun rest =>
          match rest with
          | .punctuator .comma :: rest =>
            (scope.parseParameterList pointerSize k rest).bind fun y =>
              some ((x.1, x.2.1) :: y.1, y.2)
          | .punctuator .rightParenthesis :: rest => some ([(x.1, x.2.1)], rest)
          | _ => none := by
  rfl

/-- The name and the attributes of a declarator, if there is one. -/
def DeclaresParameter? (scope : Scope) (declarator : Option ParameterDeclaratorInfo) : Prop :=
  ∀ parameter, declarator = some parameter → scope.DeclaresParameter parameter

variable (pointerSize) in
theorem yields_emitParameter (h : scope.Declares type) {declarator : Option ParameterDeclaratorInfo}
    (hdeclarator : scope.DeclaresParameter? declarator) {p : Punctuator}
    (hp : p = .comma ∨ p = .rightParenthesis) (rest : List Token) :
    ∃ attributes, Yields (fun k => scope.parseParameter pointerSize k
        (tokens (emitParameter pointerSize type declarator) ++ .punctuator p :: rest))
        (declarator.map ParameterDeclaratorInfo.identifier, type.toRead,
          attributes ++ .punctuator p :: rest) ∧
      Yields (fun k => scope.skipAttributes k (attributes ++ .punctuator p :: rest))
        (.punctuator p :: rest) := by
  have hcAttributes : ∀ cAttribute ∈ parameterAttributes declarator,
      cAttribute.IsDeclared scope := by
    cases declarator with
    | none => exact List.forall_mem_nil _
    | some parameter => exact (hdeclarator parameter rfl).cAttributes
  have hends : scope.Ends (.punctuator p :: rest) := by
    rcases hp with rfl | rfl <;> exact ends_cons rfl rest
  refine ⟨attributeTokens pointerSize (parameterAttributes declarator), ?_, ?_⟩
  · rw [tokens_emitParameter, List.append_assoc]
    refine yields_emitAround h (fun identifier hname => ?_) (ends_attributeTokens hcAttributes hends)
    obtain ⟨parameter, rfl, rfl⟩ := Option.map_eq_some_iff.1 hname
    exact (hdeclarator parameter rfl).name.2
  · refine yields_skipAttributes hcAttributes (fun name hname => nomatch hname) fun hleft => ?_
    rcases hp with rfl | rfl <;> cases hleft

variable (pointerSize) in
/-- The parameters are read one after the other. -/
theorem yields_parameterList {types : List CliftType}
    {declarators : List (Option ParameterDeclaratorInfo)}
    (htypes : ∀ type ∈ types, scope.Declares type)
    (hdeclarators : ∀ declarator ∈ declarators, scope.DeclaresParameter? declarator)
    (hlength : declarators.length = types.length) (hne : types ≠ []) (rest : List Token) :
    Yields (fun k => scope.parseParameterList pointerSize k
      (tokens (separate [.punctuator .comma, .space]
        (List.zipWith (emitParameter pointerSize) types declarators)) ++
          .punctuator .rightParenthesis :: rest))
      (List.zipWith readParameter types declarators, rest) := by
  induction types generalizing declarators with
  | nil => exact absurd rfl hne
  | cons type types ih =>
    cases declarators with
    | nil => cases hlength
    | cons declarator declarators =>
      obtain ⟨htype, htypes⟩ := List.forall_mem_cons.1 htypes
      obtain ⟨hdeclarator, hdeclarators⟩ := List.forall_mem_cons.1 hdeclarators
      refine .of_succ (fun k => parseParameterList_succ k _) ?_
      cases types with
      | nil =>
        obtain rfl := List.eq_nil_of_length_eq_zero (Nat.succ.inj hlength)
        obtain ⟨attributes, hparameter, hskip⟩ := yields_emitParameter
          pointerSize htype hdeclarator (.inr rfl) rest
        refine hparameter.bind ?_
        exact hskip.bind (.some _)
      | cons type' types =>
        cases declarators with
        | nil => cases hlength
        | cons declarator' declarators =>
          have hmore := ih htypes hdeclarators (Nat.succ.inj hlength) (List.cons_ne_nil _ _)
          obtain ⟨attributes, hparameter, hskip⟩ := yields_emitParameter
            pointerSize htype hdeclarator (.inl rfl) _
          rw [List.zipWith_cons_cons, List.zipWith_cons_cons, separate, tokens_append,
            List.append_assoc]
          refine hparameter.bind ?_
          refine hskip.bind ?_
          exact hmore.bind (.some _)

theorem parseParameters_list (k : Nat)
    (h : name = "void".toList → more.head? ≠ some (.punctuator .rightParenthesis)) :
    scope.parseParameters pointerSize (k + 1) (.word name :: more) =
      scope.parseParameterList pointerSize k (.word name :: more) := by
  cases more with
  | nil => rfl
  | cons t more =>
    cases t with
    | punctuator p =>
      cases p with
      | rightParenthesis =>
        show (if name = "void".toList then _ else _) = _
        rw [if_neg fun hvoid => h hvoid rfl]
      | _ => rfl
    | _ => rfl

/-- The parameters of a function, up to the right parenthesis. -/
def parameterTokens (pointerSize : Nat) (types : List CliftType)
    (declarators : List (Option ParameterDeclaratorInfo)) : List Token :=
  (if types = [] then [.word "void".toList]
    else tokens (separate [.punctuator .comma, .space]
      (List.zipWith (emitParameter pointerSize) types declarators))) ++
    [.punctuator .rightParenthesis]

theorem tokens_emitParameters (types : List CliftType)
    (declarators : List (Option ParameterDeclaratorInfo)) :
    tokens (emitParameters pointerSize types declarators) =
      .punctuator .leftParenthesis :: parameterTokens pointerSize types declarators := by
  rw [emitParameters, tokens_token, tokens_append, parameterTokens]
  split_ifs <;> rfl

variable (pointerSize) in
theorem yields_parameters {types : List CliftType}
    {declarators : List (Option ParameterDeclaratorInfo)}
    (hvalue : ∀ type ∈ types, type.isValueType = true)
    (htypes : ∀ type ∈ types, scope.Declares type)
    (hdeclarators : ∀ declarator ∈ declarators, scope.DeclaresParameter? declarator)
    (hlength : types ≠ [] → declarators.length = types.length) (rest : List Token) :
    Yields (fun k => scope.parseParameters pointerSize k
      (parameterTokens pointerSize types declarators ++ rest))
      (List.zipWith readParameter types declarators, rest) := by
  cases types with
  | nil => exact .of_some fun k => rfl
  | cons type types =>
    have hne : type :: types ≠ [] := List.cons_ne_nil type types
    have hlist := yields_parameterList pointerSize htypes hdeclarators
      (hlength hne) hne rest
    obtain ⟨name, more, hbegins⟩ := exists_beginsType pointerSize
      (List.forall_mem_cons.1 htypes).1 false
    -- the first parameter begins with its type
    have hfirst : ∃ after, tokens (separate [.punctuator .comma, .space]
        (List.zipWith (emitParameter pointerSize) (type :: types) declarators)) =
        .word name :: (more ++ after) := by
      cases declarators with
      | nil => exact absurd (hlength hne) nofun
      | cons declarator declarators =>
        rw [List.zipWith_cons_cons]
        cases List.zipWith (emitParameter pointerSize) types declarators with
        | nil =>
          rw [separate, tokens_emitParameter, tokens_emitAround, hbegins.eq, List.append_assoc]
          exact ⟨_, rfl⟩
        | cons part parts =>
          rw [separate, tokens_append, tokens_emitParameter, tokens_emitAround, hbegins.eq,
            List.append_assoc, List.append_assoc]
          exact ⟨_, rfl⟩
    obtain ⟨after, hafter⟩ := hfirst
    rw [parameterTokens, if_neg hne, List.append_assoc, List.singleton_append]
    rw [hafter, List.cons_append] at hlist ⊢
    refine .of_succ (fun k => parseParameters_list k fun hvoid => ?_) hlist
    rcases hbegins.void hvoid with ⟨-, hnot⟩ | ⟨p, tail, rfl, hp⟩
    · exact absurd ((List.forall_mem_cons.1 hvalue).1.symm.trans hnot) nofun
    · intro hright
      exact hp (Token.punctuator.inj (Option.some.inj hright))

/-- A function around its parameters. -/
theorem yields_function (h : scope.Declares type) (harray : type.isArray = false)
    (hname : scope.isIdentifier name = true) {parameters : List Token}
    {read : List (Option Text × ReadType)} (hparameters : ∀ rest,
      Yields (fun k => scope.parseParameters pointerSize k (parameters ++ rest)) (read, rest))
    (hrest : scope.Ends rest) :
    Yields (fun k => scope.parseParameter pointerSize k
      (tokens (emitBefore true (type.toCType pointerSize)).1 ++
        ((.word name :: .punctuator .leftParenthesis :: parameters) ++
          (tokens (emitAfter true (type.toCType pointerSize)) ++ rest))))
      (some name, .function type.toRead read, rest) :=
  reads_around h true ⟨(readsDirect_function hname hparameters).declarator,
    fun h => absurd (harray.symm.trans h) nofun⟩ hrest

end Scope

/-! ## Declarations -/

/-- The declarators of the parameters, which are none if they are not known. -/
def FunctionType.declarators (type : FunctionType) (declarator : DeclaratorInfo) :
    List (Option ParameterDeclaratorInfo) :=
  match declarator.parameters with
  | none => type.argumentTypes.map fun _ => none
  | some parameters => parameters.map some

/-- What a declaration stands for: only the declarator of a function expands a function type. -/
def DeclaredType.toRead (declarator : DeclaratorInfo) : DeclaredType → ReadType
  | object type => type.toRead
  | function type =>
      if declarator.isFunction then .function type.returnType.toRead
        (List.zipWith Scope.readParameter type.argumentTypes (type.declarators declarator))
      else .defined false type.name

/-- The names in a type are in scope.  A function that is expanded has as many declarators of
parameters as parameters, if it has any. -/
def Scope.DeclaresType (scope : Scope) (declarator : DeclaratorInfo) : DeclaredType → Prop
  | .object type => scope.Declares type
  | .function type =>
      if declarator.isFunction then
        scope.Declares type.returnType ∧ (∀ argument ∈ type.argumentTypes, scope.Declares argument) ∧
          ∀ parameters, declarator.parameters = some parameters →
            parameters.length = type.argumentTypes.length
      else scope.Declares (.defined false type.name)

structure Scope.DeclaresAll (scope : Scope) (type : DeclaredType) (declarator : DeclaratorInfo) :
    Prop where
  name : scope.IsName declarator.identifier
  cAttributes : ∀ cAttribute ∈ declarator.cAttributes, cAttribute.IsDeclared scope
  parameters : ∀ parameters, declarator.parameters = some parameters →
    ∀ parameter ∈ parameters, scope.DeclaresParameter parameter
  type : scope.DeclaresType declarator type

namespace Scope

theorem ends_nil : scope.Ends [] := nofun

/-- What is left when the attributes in front are skipped is read, and its attributes are skipped. -/
theorem yields_parseDeclaration (before : List Token) {text after : List Token} {name : Option Text}
    {type : ReadType}
    (hbefore : Yields (fun k => scope.skipAttributes k (before ++ text)) text)
    (htext : Yields (fun k => scope.parseParameter pointerSize k text) (name, type, after))
    (hafter : Yields (fun k => scope.skipAttributes k after) []) :
    Yields (fun k => scope.parseDeclaration pointerSize k (before ++ text)) (name, type) := by
  refine hbefore.bind ?_
  refine htext.bind ?_
  exact hafter.bind (.some _)

variable {declarator : DeclaratorInfo}

/-- An object is read, and the attributes after it are skipped. -/
theorem yields_object {type : CliftType} (h : scope.Declares type)
    (hname : scope.IsName declarator.identifier)
    (hcAttributes : ∀ cAttribute ∈ declarator.cAttributes, cAttribute.IsDeclared scope) :
    Yields (fun k => scope.parseDeclaration pointerSize k
      (tokens (emitObject pointerSize type declarator)))
      (some declarator.identifier, type.toRead) := by
  rw [emitObject, tokens_append, tokens_emitCAttributes]
  have hskip : Yields (fun k => scope.skipAttributes k
      (attributeTokens pointerSize declarator.cAttributes ++ [])) [] :=
    yields_skipAttributes hcAttributes (fun _ => nofun) nofun
  rw [List.append_nil] at hskip
  refine yields_parseDeclaration [] ?_ (yields_emitAround h (fun identifier heq => ?_) ?_)
    hskip
  · obtain ⟨name, more, hbegins⟩ := exists_beginsType pointerSize h false
    refine .of_some fun k => skipAttributes_of_ne k fun word hword => ?_
    rw [tokens_emitAround, hbegins.eq] at hword
    cases hword
    exact hbegins.isAttribute
  · cases heq
    exact hname.2
  · have hends : scope.Ends (attributeTokens pointerSize declarator.cAttributes ++ []) :=
      ends_attributeTokens hcAttributes ends_nil
    rwa [List.append_nil] at hends

variable {type : FunctionType}

theorem parameterDeclarators_eq (h : ∀ parameters, declarator.parameters = some parameters →
      parameters.length = type.argumentTypes.length) :
    parameterDeclarators type.argumentTypes declarator.parameters =
      some (type.declarators declarator) := by
  unfold FunctionType.declarators
  cases hparameters : declarator.parameters with
  | none => rfl
  | some parameters => exact if_neg fun hne => hne.2 (h parameters hparameters)

theorem length_declarators (h : ∀ parameters, declarator.parameters = some parameters →
      parameters.length = type.argumentTypes.length) :
    (type.declarators declarator).length = type.argumentTypes.length := by
  unfold FunctionType.declarators
  cases hparameters : declarator.parameters with
  | none => exact List.length_map _
  | some parameters => exact (List.length_map _).trans (h parameters hparameters)

theorem declaresParameter_declarators (h : ∀ parameters, declarator.parameters = some parameters →
      ∀ parameter ∈ parameters, scope.DeclaresParameter parameter) :
    ∀ parameter ∈ type.declarators declarator, scope.DeclaresParameter? parameter := by
  unfold FunctionType.declarators
  cases hparameters : declarator.parameters with
  | none =>
    intro parameter hmem known hknown
    obtain ⟨-, -, rfl⟩ := List.mem_map.1 hmem
    cases hknown
  | some parameters =>
    intro parameter hmem known hknown
    obtain ⟨member, hmember, rfl⟩ := List.mem_map.1 hmem
    cases hknown
    exact h parameters hparameters known hmember

/-- The line of an expanded function type. -/
theorem tokens_emitAround_function (type : CliftType) (name : Text) (types : List CliftType)
    (declarators : List (Option ParameterDeclaratorInfo)) :
    tokens (emitAround ((emitLevels pointerSize type).1, .function :: (emitLevels pointerSize type).2)
        (some name) (emitParameters pointerSize types declarators)) =
      tokens (emitBefore true (type.toCType pointerSize)).1 ++
        ((.word name :: .punctuator .leftParenthesis ::
          parameterTokens pointerSize types declarators) ++
            tokens (emitAfter true (type.toCType pointerSize))) := by
  rw [emitAround_function, tokens_append, tokens_append, tokens_append, tokens_emitName,
    tokens_emitParameters]
  rfl

theorem flatMap_tokens_lines (cAttributes : List CAttribute) (line : List Piece) :
    (cAttributes.map (emitCAttribute pointerSize) ++ [line]).flatMap tokens =
      attributeTokens pointerSize cAttributes ++ tokens line := by
  rw [List.flatMap_append, List.flatMap_singleton, List.flatMap_map]
  rfl

theorem isArray_returnType (type : FunctionType) : type.returnType.isArray = false := by
  rcases type.returns with h | ⟨isConst, h⟩
  · cases hreturn : type.returnType with
    | array element extent =>
      rw [hreturn] at h
      cases h
    | _ => rfl
  · rw [h]
    rfl

variable (pointerSize) in
/-- The tokens of a declaration are read. -/
theorem yields_declaration {type : DeclaredType} (h : scope.DeclaresAll type declarator) :
    ∃ lines, emitDeclaration pointerSize type declarator = some lines ∧
      Yields (fun k => scope.parseDeclaration pointerSize k (lines.flatMap tokens))
        (some declarator.identifier, type.toRead declarator) := by
  have htype := h.type
  cases type with
  | object type =>
    refine ⟨_, rfl, ?_⟩
    rw [List.flatMap_singleton]
    exact yields_object htype h.name h.cAttributes
  | function type =>
    rw [emitDeclaration, DeclaredType.toRead]
    rw [DeclaresType] at htype
    split_ifs at htype ⊢ with hfunction
    · obtain ⟨hreturn, harguments, hcomplete⟩ := htype
      rw [parameterDeclarators_eq hcomplete]
      refine ⟨_, rfl, ?_⟩
      have hparameters := yields_parameters pointerSize type.takes harguments
        (declaresParameter_declarators h.parameters) fun _ => length_declarators hcomplete
      have hmain := yields_function hreturn (isArray_returnType type) h.name.2 hparameters ends_nil
      rw [flatMap_tokens_lines, tokens_emitAround_function]
      obtain ⟨name, more, hbegins⟩ := exists_beginsType pointerSize hreturn true
      rw [List.append_nil] at hmain
      refine yields_parseDeclaration _ ?_ hmain (.of_some fun k => rfl)
      rw [hbegins.eq]
      refine yields_skipAttributes h.cAttributes (fun word hword => ?_) (by simp)
      cases hword
      exact hbegins.isAttribute
    · refine ⟨_, rfl, ?_⟩
      rw [List.flatMap_singleton]
      exact yields_object htype h.name h.cAttributes

end Scope

end CliftEmitC
