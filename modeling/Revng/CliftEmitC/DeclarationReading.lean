import Revng.CliftEmitC.Declarations

/-!
# Reading declarations back

A declarator is read inside out, and it was printed inside out.  So the levels of a type are
followed from the outermost one, and what is known of the text in the middle is how it is read:
as a direct declarator, which an array may come after, or as any declarator, which stands after a
star (`ReadsDirect`, `ReadsDeclarator`).  Each level puts its part around the middle
(`reads_around`).
-/

namespace CliftEmitC

/-! ## Equations of the parser -/

namespace Scope

variable {scope : Scope} {pointerSize : Nat}

theorem parseParameter_succ (k : Nat) (text : List Token) :
    scope.parseParameter pointerSize (k + 1) text =
      (scope.parseSpecifiers pointerSize k text).bind fun x =>
        (scope.parseDeclarator pointerSize k x.2).bind fun y => some (y.1, y.2.1 x.1, y.2.2) := by
  rfl

theorem parseSpecifiers_succ (k : Nat) (text : List Token) :
    scope.parseSpecifiers pointerSize (k + 1) text =
      (scope.parseTypeSpecifier pointerSize k (parseQualifiers text).2).bind fun x =>
        some (x.1 ((parseQualifiers text).1 || (parseQualifiers x.2).1), (parseQualifiers x.2).2) := by
  rfl

theorem parseDeclarator_star (k : Nat) (text : List Token) :
    scope.parseDeclarator pointerSize (k + 1) (.punctuator .star :: text) =
      (scope.parseDeclarator pointerSize k (parseQualifiers text).2).bind fun x =>
        some (x.1, fun type => x.2.1 (.pointer (parseQualifiers text).1 pointerSize type), x.2.2) := by
  rfl

variable {text : List Token}

theorem parseDeclarator_parenthesis (k : Nat) (h : scope.startsDeclarator text = true) :
    scope.parseDeclarator pointerSize (k + 1) (.punctuator .leftParenthesis :: text) =
      (scope.parseDeclarator pointerSize k text).bind fun x =>
        (expect .rightParenthesis x.2.2).bind fun rest =>
          (scope.parseSuffixes pointerSize k rest).bind fun y =>
            some (x.1, fun type => x.2.1 (y.1 type), y.2) := by
  show (if scope.startsDeclarator text = true then _ else _) = _
  rw [if_pos h]
  rfl

theorem parseDeclarator_word (k : Nat) {name : Text} (h : scope.isIdentifier name = true)
    (text : List Token) :
    scope.parseDeclarator pointerSize (k + 1) (.word name :: text) =
      (scope.parseSuffixes pointerSize k text).bind fun x => some (some name, x.1, x.2) := by
  show (if scope.isIdentifier name = true then _ else _) = _
  rw [if_pos h]
  rfl

theorem parseSuffixes_array (k : Nat) (extent : Nat) (text : List Token) :
    scope.parseSuffixes pointerSize (k + 1) (.punctuator .leftBracket ::
        .number (Numeral.writeDigits 10 extent) :: .punctuator .rightBracket :: text) =
      (scope.parseSuffixes pointerSize k text).bind fun x =>
        some (fun type => .array (x.1 type) extent, x.2) := by
  show (Numeral.readDigits 10 0 _).bind _ = _
  rw [Numeral.readDigits_writeDigits]
  · rfl
  · decide
  · decide

theorem parseSuffixes_function (k : Nat) (text : List Token) :
    scope.parseSuffixes pointerSize (k + 1) (.punctuator .leftParenthesis :: text) =
      (scope.parseParameters pointerSize k text).bind fun x =>
        (scope.parseSuffixes pointerSize k x.2).bind fun y =>
          some (fun type => .function (y.1 type) x.1, y.2) := by
  rfl

/-! ## What comes after a declarator -/

/-- The token ends a declarator: what comes after it, or an attribute. -/
def ends (scope : Scope) : Token → Bool
  | .word name => scope.isAttribute name
  | .punctuator p => p == .comma || p == .rightParenthesis
  | _ => false

def Ends (scope : Scope) (rest : List Token) : Prop := ∀ t ∈ rest.head?, scope.ends t = true

/-- A direct declarator ends, or is followed by the extent of an array. -/
def Stops (scope : Scope) (rest : List Token) : Prop :=
  ∀ t ∈ rest.head?, scope.ends t = true ∨ t = .punctuator .leftBracket

variable {rest : List Token}

theorem Ends.stops (h : scope.Ends rest) : scope.Stops rest :=
  fun t ht => .inl (h t ht)

theorem ends_cons {t : Token} (h : scope.ends t = true) (rest : List Token) :
    scope.Ends (t :: rest) := by
  intro t' ht
  cases ht
  exact h

theorem stops_bracket (rest : List Token) : scope.Stops (.punctuator .leftBracket :: rest) := by
  intro t ht
  cases ht
  exact .inr rfl

theorem Stops.head?_ne_const (h : scope.Stops rest) : rest.head? ≠ some (.word "const".toList) := by
  intro hconst
  rcases h _ hconst with hends | hbracket
  · have hnot := scope.attribute_keyword "const".toList List.mem_cons_self
    rw [ends, hnot] at hends
    cases hends
  · cases hbracket

theorem yields_parseSuffixes (h : scope.Ends rest) :
    Yields (fun k => scope.parseSuffixes pointerSize k rest) (id, rest) := by
  refine .of_some fun k => ?_
  cases rest with
  | nil => rfl
  | cons t rest =>
    have ht := h t rfl
    cases t with
    | word name => rfl
    | punctuator p =>
      cases p <;> first | cases ht; done | rfl
    | _ => cases ht

/-! ## Declarators -/

/-- In the middle of a declarator: the text is a direct declarator that an array may follow. -/
structure ReadsDirect (scope : Scope) (pointerSize : Nat) (text : List Token) (name : Option Text)
    (wrap : ReadType → ReadType) : Prop where
  head : ∀ rest, scope.Stops rest → (text ++ rest).head? ≠ some (.word "const".toList)
  reads : ∀ rest suffix rest', scope.Stops rest →
    Yields (fun k => scope.parseSuffixes pointerSize k rest) (suffix, rest') →
    Yields (fun k => scope.parseDeclarator pointerSize k (text ++ rest))
      (name, fun type => wrap (suffix type), rest')

/-- The text is a declarator. -/
structure ReadsDeclarator (scope : Scope) (pointerSize : Nat) (text : List Token)
    (name : Option Text) (wrap : ReadType → ReadType) : Prop where
  head : ∀ rest, scope.Ends rest → (text ++ rest).head? ≠ some (.word "const".toList)
  reads : ∀ rest, scope.Ends rest →
    Yields (fun k => scope.parseDeclarator pointerSize k (text ++ rest)) (name, wrap, rest)

variable {text : List Token} {name : Option Text} {wrap : ReadType → ReadType}

theorem ReadsDirect.declarator (h : scope.ReadsDirect pointerSize text name wrap) :
    scope.ReadsDeclarator pointerSize text name wrap where
  head rest hrest := h.head rest hrest.stops
  reads rest hrest := h.reads rest id rest hrest.stops (yields_parseSuffixes hrest)

theorem readsDirect_name {name : Text} (h : scope.isIdentifier name = true) :
    scope.ReadsDirect pointerSize [.word name] (some name) id where
  head rest _ := by
    intro heq
    cases heq
    cases h
  reads rest suffix rest' _ hsuffix := by
    refine .of_succ (fun k => parseDeclarator_word k h rest) ?_
    exact hsuffix.bind (.some _)

theorem readsDirect_nil : scope.ReadsDirect pointerSize [] none id where
  head rest hrest := hrest.head?_ne_const
  reads rest suffix rest' hrest hsuffix := by
    have hnone : Yields (fun k => (scope.parseSuffixes pointerSize k rest).bind fun x =>
        some ((none : Option Text), x.1, x.2)) (none, suffix, rest') :=
      hsuffix.bind (.some _)
    cases rest with
    | nil => exact .of_succ (fun k => rfl) hnone
    | cons t rest =>
      rcases hrest t rfl with hends | rfl
      · cases t with
        | word word =>
          have hword : scope.isIdentifier word = false := by
            rw [ends] at hends
            simp [isIdentifier, hends]
          refine .of_succ (fun k => ?_) hnone
          show (if scope.isIdentifier word = true then _ else _) = _
          rw [hword]
          rfl
        | punctuator p => cases p <;> first | cases hends; done | exact .of_succ (fun k => rfl) hnone
        | _ => cases hends
      · exact .of_succ (fun k => rfl) hnone

theorem ReadsDirect.array (h : scope.ReadsDirect pointerSize text name wrap) (extent : Nat) :
    scope.ReadsDirect pointerSize (text ++ [.punctuator .leftBracket,
      .number (Numeral.writeDigits 10 extent), .punctuator .rightBracket]) name
      fun type => wrap (ReadType.array type extent) where
  head rest _ := by
    rw [List.append_assoc]
    exact h.head _ (stops_bracket _)
  reads rest suffix rest' hrest hsuffix := by
    rw [List.append_assoc]
    refine h.reads _ (fun type => ReadType.array (suffix type) extent) rest' (stops_bracket _) ?_
    refine .of_succ (fun k => parseSuffixes_array k extent rest) ?_
    exact hsuffix.bind (.some _)

/-- A declarator in parentheses is a direct one. -/
theorem ReadsDeclarator.parenthesize (h : scope.ReadsDeclarator pointerSize text name wrap)
    (hstart : ∀ rest, scope.startsDeclarator (text ++ rest) = true) :
    scope.ReadsDirect pointerSize (.punctuator .leftParenthesis ::
      (text ++ [.punctuator .rightParenthesis])) name wrap where
  head rest _ := nofun
  reads rest suffix rest' hrest hsuffix := by
    have hinner := h.reads (.punctuator .rightParenthesis :: rest) (ends_cons rfl rest)
    rw [List.cons_append, List.append_assoc]
    refine .of_succ (fun k => parseDeclarator_parenthesis k (hstart _)) ?_
    refine hinner.bind ?_
    exact hsuffix.bind (.some _)

theorem parseQualifiers_of_ne (h : text.head? ≠ some (.word "const".toList)) :
    parseQualifiers text = (false, text) := by
  cases text with
  | nil => rfl
  | cons t text =>
    cases t with
    | word name =>
      rw [parseQualifiers, if_neg]
      rintro rfl
      exact h rfl
    | _ => rfl

theorem parseQualifiers_constPieces (isConst : Bool)
    (h : text.head? ≠ some (.word "const".toList)) :
    parseQualifiers (tokens (constPieces isConst) ++ text) = (isConst, text) := by
  cases isConst with
  | false => exact parseQualifiers_of_ne h
  | true =>
    show (if "const".toList = "const".toList then (true, (parseQualifiers text).2) else _) = _
    rw [if_pos rfl, parseQualifiers_of_ne h]

/-- A pointer before a declarator. -/
theorem ReadsDeclarator.star (h : scope.ReadsDeclarator pointerSize text name wrap)
    (isConst : Bool) : scope.ReadsDeclarator pointerSize
      (.punctuator .star :: (tokens (constPieces isConst) ++ text)) name
      fun type => wrap (.pointer isConst pointerSize type) where
  head rest _ := nofun
  reads rest hrest := by
    rw [List.cons_append, List.append_assoc]
    refine .of_succ (fun k => parseDeclarator_star k _) ?_
    rw [parseQualifiers_constPieces isConst (h.head rest hrest)]
    exact (h.reads rest hrest).bind (.some _)

/-- A name and the parameters of a function. -/
theorem readsDirect_function {name : Text} (h : scope.isIdentifier name = true)
    {parameters : List Token} {read : List (Option Text × ReadType)}
    (hparameters : ∀ rest,
      Yields (fun k => scope.parseParameters pointerSize k (parameters ++ rest)) (read, rest)) :
    scope.ReadsDirect pointerSize (.word name :: .punctuator .leftParenthesis :: parameters)
      (some name) fun type => .function type read where
  head rest _ := by
    intro heq
    cases heq
    cases h
  reads rest suffix rest' hrest hsuffix := by
    have hfunction : Yields (fun k => scope.parseSuffixes pointerSize k
        (.punctuator .leftParenthesis :: (parameters ++ rest)))
        (fun type => .function (suffix type) read, rest') := by
      refine .of_succ (fun k => parseSuffixes_function k _) ?_
      refine (hparameters rest).bind ?_
      exact hsuffix.bind (.some _)
    refine .of_succ (fun k => parseDeclarator_word k h _) ?_
    exact hfunction.bind (.some _)

/-! ## Specifiers -/

/-- The text is read as the specifiers of a type, where no `const` comes after it. -/
def ReadsSpecifiers (scope : Scope) (pointerSize : Nat) (text : List Token) (type : ReadType) : Prop :=
  ∀ rest, rest.head? ≠ some (.word "const".toList) →
    Yields (fun k => scope.parseSpecifiers pointerSize k (text ++ rest)) (type, rest)

theorem readsSpecifiers {specifier : List Token} {make : Bool → ReadType}
    (hspecifier : ∀ rest,
      Yields (fun k => scope.parseTypeSpecifier pointerSize k (specifier ++ rest)) (make, rest))
    (hne : ∀ rest, (specifier ++ rest).head? ≠ some (.word "const".toList)) (isConst : Bool) :
    scope.ReadsSpecifiers pointerSize (tokens (constPieces isConst) ++ specifier) (make isConst) := by
  intro rest hrest
  refine .of_succ (fun k => parseSpecifiers_succ k _) ?_
  rw [List.append_assoc, parseQualifiers_constPieces isConst (hne rest)]
  refine (hspecifier rest).bind ?_
  rw [parseQualifiers_of_ne hrest, Bool.or_false]
  exact .some _

theorem ReadsSpecifiers.yields {specifiers : List Token} {type : ReadType}
    (h : scope.ReadsSpecifiers pointerSize specifiers type)
    (htext : scope.ReadsDeclarator pointerSize text name wrap) (hrest : scope.Ends rest) :
    Yields (fun k => scope.parseParameter pointerSize k (specifiers ++ (text ++ rest)))
      (name, wrap type, rest) := by
  refine .of_succ (fun k => parseParameter_succ k _) ?_
  refine (h _ (htext.head rest hrest)).bind ?_
  exact (htext.reads rest hrest).bind (.some _)

variable {type : NamedType}

/-- The name of a type is no keyword, and no macro. -/
theorem type_eq_some {name : Text} (h : scope.type name = some type) :
    name ∉ keywords ∧ foreignPointerSize name = none ∧ scope.isAttribute name = false := by
  refine ⟨fun hkeyword => ?_, ?_, ?_⟩
  · rw [scope.type_keyword name hkeyword] at h
    cases h
  · refine Option.not_isSome_iff_eq_none.1 fun hsome => ?_
    rw [scope.type_foreignPointer name hsome] at h
    cases h
  · refine Bool.eq_false_iff.2 fun htrue => ?_
    rw [scope.type_attribute name htrue] at h
    cases h

theorem yields_named {name : Text} (h : scope.type name = some type) (rest : List Token) :
    Yields (fun k => scope.parseTypeSpecifier pointerSize k ([.word name] ++ rest))
      (fun isConst => type.read name isConst, rest) := by
  obtain ⟨hkeyword, hforeign, -⟩ := type_eq_some h
  have hvoid : name ≠ "void".toList := by
    rintro rfl
    exact hkeyword (by decide)
  refine .of_some fun k => ?_
  show (if name = "void".toList then _ else _) = _
  rw [if_neg hvoid, hforeign, h]
  rfl

theorem readsSpecifiers_named {name : Text} (isConst : Bool) (h : scope.type name = some type) :
    scope.ReadsSpecifiers pointerSize
      (tokens (constPieces isConst) ++ [.word name]) (type.read name isConst) := by
  refine readsSpecifiers (yields_named h) (fun rest hconst => ?_) isConst
  cases hconst
  exact (type_eq_some h).1 List.mem_cons_self

theorem yields_void (rest : List Token) :
    Yields (fun k => scope.parseTypeSpecifier pointerSize k ([.word "void".toList] ++ rest))
      (fun isConst => .primitive isConst .void, rest) := by
  exact .of_some fun k => rfl

theorem foreignPointerSize_getForeignPointerMacroName (size : PointerSize) :
    foreignPointerSize (getForeignPointerMacroName size.bytes) = some size.bytes := by
  cases size <;> decide

/-- The macro for a pointer of another size is a specifier. -/
theorem yields_foreignPointer (size : PointerSize) {pointee : ReadType}
    (h : ∀ rest, Yields (fun k => scope.parseParameter pointerSize k
      (text ++ .punctuator .rightParenthesis :: rest))
      (none, pointee, .punctuator .rightParenthesis :: rest)) (rest : List Token) :
    Yields (fun k => scope.parseTypeSpecifier pointerSize k
      ((.word (getForeignPointerMacroName size.bytes) :: .punctuator .leftParenthesis ::
        (text ++ [.punctuator .rightParenthesis])) ++ rest))
      (fun isConst => .pointer isConst size.bytes pointee, rest) := by
  have hmacro : ∀ k text, scope.parseTypeSpecifier pointerSize (k + 1)
      (.word (getForeignPointerMacroName size.bytes) :: .punctuator .leftParenthesis :: text) =
        (scope.parseParameter pointerSize k text).bind fun x =>
          (expect .rightParenthesis x.2.2).bind fun rest =>
            if x.1 = none then some (fun isConst => .pointer isConst size.bytes x.2.1, rest)
            else none := by
    intro k text
    cases size <;> rfl
  rw [List.cons_append, List.cons_append, List.append_assoc]
  refine .of_succ (fun k => hmacro k _) ?_
  refine (h rest).bind ?_
  exact .some _

end Scope

/-! ## Types -/

/-- The type as it is read. -/
def CliftType.toRead : CliftType → ReadType
  | primitive isConst type => .primitive isConst type
  | defined isConst name => .defined isConst name
  | pointer isConst size pointee => .pointer isConst size.bytes pointee.toRead
  | array element extent => .array element.toRead extent

def CliftType.isArray : CliftType → Bool
  | array _ _ => true
  | _ => false

/-- The names in a type are in scope and stand for what they stand for in it. -/
def Scope.Declares (scope : Scope) : CliftType → Prop
  | .primitive _ .void => True
  | .primitive _ type => scope.type (getPrimitiveTypeCName type) = some (.primitive type)
  | .defined _ name => validateIdentifier name = true ∧ scope.type name = some .defined
  | .pointer _ _ pointee => scope.Declares pointee
  | .array element _ => scope.Declares element

namespace Scope

variable {scope : Scope} {pointerSize : Nat} {text : List Token} {name : Option Text}
  {wrap : ReadType → ReadType}

/-- What is known of the middle at a level. -/
def ReadsMiddle (scope : Scope) (pointerSize : Nat) (isPointee : Bool) (type : CliftType)
    (text : List Token) (name : Option Text) (wrap : ReadType → ReadType) : Prop :=
  if isPointee = true then scope.ReadsDeclarator pointerSize text name wrap ∧
    (type.isArray = true → ∀ rest, scope.startsDeclarator (text ++ rest) = true)
  else scope.ReadsDirect pointerSize text name wrap

theorem ReadsMiddle.declarator {isPointee : Bool} {type : CliftType}
    (h : scope.ReadsMiddle pointerSize isPointee type text name wrap) :
    scope.ReadsDeclarator pointerSize text name wrap := by
  cases isPointee with
  | false => exact ReadsDirect.declarator h
  | true => exact h.1

theorem readsSpecifiers_primitive (isConst : Bool) {type : PrimitiveType}
    (h : scope.Declares (.primitive isConst type)) :
    scope.ReadsSpecifiers pointerSize
      (tokens (constPieces isConst) ++ [.word (getPrimitiveTypeCName type)])
      (.primitive isConst type) := by
  cases type with
  | void => exact readsSpecifiers yields_void (fun _ => nofun) isConst
  | integer kind size => exact readsSpecifiers_named isConst h
  | float size => exact readsSpecifiers_named isConst h

theorem tokens_emitBefore_pointer (isPointee isConst : Bool) (pointee : CType) :
    tokens (emitBefore isPointee (.pointer isConst pointee)).1 =
      tokens (emitBefore true pointee).1 ++ .punctuator .star :: tokens (constPieces isConst) := by
  show tokens ((emitBefore true pointee).1 ++
    ((if (emitBefore true pointee).2 = true then [Piece.space] else []) ++ _)) = _
  rw [tokens_append, tokens_append]
  split_ifs <;> rfl

theorem tokens_emitBefore_foreignPointer (isPointee isConst : Bool) (size : Nat) (pointee : CType) :
    tokens (emitBefore isPointee (.foreignPointer isConst size pointee)).1 =
      tokens (constPieces isConst) ++ (.word (getForeignPointerMacroName size) ::
        .punctuator .leftParenthesis ::
          (tokens (emitType pointee) ++ [.punctuator .rightParenthesis])) := by
  rw [emitBefore, emitType, tokens_append, tokens_token, tokens_token, tokens_append, tokens_append,
    tokens_append, List.append_assoc]
  rfl

/-- The text in the middle is read with the type around it. -/
theorem reads_around {type : CliftType} (h : scope.Declares type) (isPointee : Bool)
    (hmiddle : scope.ReadsMiddle pointerSize isPointee type text name wrap) {rest : List Token}
    (hrest : scope.Ends rest) :
    Yields (fun k => scope.parseParameter pointerSize k
      (tokens (emitBefore isPointee (type.toCType pointerSize)).1 ++
        (text ++ (tokens (emitAfter isPointee (type.toCType pointerSize)) ++ rest))))
      (name, wrap type.toRead, rest) := by
  induction type generalizing isPointee text name wrap rest with
  | primitive isConst type =>
    rw [CliftType.toCType, emitBefore, tokens_append]
    exact (readsSpecifiers_primitive isConst h).yields hmiddle.declarator hrest
  | defined isConst name =>
    rw [CliftType.toCType, emitBefore, tokens_append]
    exact (readsSpecifiers_named isConst h.2).yields hmiddle.declarator hrest
  | pointer isConst size pointee ih =>
    rw [CliftType.toCType]
    split_ifs with hsize
    · have hstar := ih h true ⟨hmiddle.declarator.star isConst, fun _ _ => rfl⟩ hrest
      rw [tokens_emitBefore_pointer, emitAfter, CliftType.toRead, hsize]
      simpa only [List.append_assoc, List.cons_append] using hstar
    · have hpointee : ∀ rest, Yields (fun k => scope.parseParameter pointerSize k
          (tokens (emitType (pointee.toCType pointerSize)) ++
            .punctuator .rightParenthesis :: rest))
          (none, pointee.toRead, .punctuator .rightParenthesis :: rest) := by
        intro rest
        rw [emitType, tokens_append, List.append_assoc]
        exact ih h false readsDirect_nil (ends_cons rfl rest)
      have hspecifiers : scope.ReadsSpecifiers pointerSize _ _ :=
        readsSpecifiers (yields_foreignPointer size hpointee) (fun rest hconst => by
          cases size <;> cases hconst) isConst
      rw [tokens_emitBefore_foreignPointer]
      exact hspecifiers.yields hmiddle.declarator hrest
  | array element extent ih =>
    cases isPointee with
    | false =>
      have harray := ih h false (ReadsDirect.array hmiddle extent) hrest
      rw [List.append_assoc] at harray
      exact harray
    | true =>
      have hdirect := hmiddle.1.parenthesize (hmiddle.2 rfl)
      have harray := ih h false (hdirect.array extent) hrest
      show Yields (fun k => scope.parseParameter pointerSize k
        (tokens ((emitBefore false (element.toCType pointerSize)).1 ++
          [Piece.punctuator .leftParenthesis]) ++ _)) _
      rw [tokens_append, CliftType.toCType, emitAfter, CliftType.toRead]
      simpa using harray

end Scope

end CliftEmitC
