import Mathlib.Data.List.Chain

/-!
# Tokens of C

The tokens that an expression is made of, how they are spelled, and how a text is cut into
tokens: at every place the longest token is taken.

A text is spelled from *pieces*, tokens and spaces.  Its tokens are read back when no token is
directly followed by a character that makes it longer (`lex_spell`).
-/

namespace CliftEmitC

abbrev Text := List Char

/-! ## Punctuators -/

inductive Punctuator where
  | leftBracket
  | rightBracket
  | leftParenthesis
  | rightParenthesis
  | leftBrace
  | rightBrace
  | dot
  | arrow
  | plusPlus
  | minusMinus
  | ampersand
  | star
  | plus
  | minus
  | tilde
  | exclaim
  | slash
  | percent
  | lessLess
  | greaterGreater
  | less
  | greater
  | lessEquals
  | greaterEquals
  | equalsEquals
  | exclaimEquals
  | caret
  | pipe
  | ampersandAmpersand
  | pipePipe
  | question
  | colon
  | semicolon
  | ellipsis
  | equals
  | starEquals
  | slashEquals
  | percentEquals
  | plusEquals
  | minusEquals
  | lessLessEquals
  | greaterGreaterEquals
  | ampersandEquals
  | caretEquals
  | pipeEquals
  | comma
  | hash
  | hashHash
  | lessColon
  | colonGreater
  | lessPercent
  | percentGreater
  | percentColon
  | percentColonPercentColon
  deriving DecidableEq, Repr

namespace Punctuator

def spelling : Punctuator → Text
  | leftBracket => ['[']
  | rightBracket => [']']
  | leftParenthesis => ['(']
  | rightParenthesis => [')']
  | leftBrace => ['\x7b']
  | rightBrace => ['\x7d']
  | dot => ['.']
  | arrow => ['-', '>']
  | plusPlus => ['+', '+']
  | minusMinus => ['-', '-']
  | ampersand => ['&']
  | star => ['*']
  | plus => ['+']
  | minus => ['-']
  | tilde => ['~']
  | exclaim => ['!']
  | slash => ['/']
  | percent => ['%']
  | lessLess => ['<', '<']
  | greaterGreater => ['>', '>']
  | less => ['<']
  | greater => ['>']
  | lessEquals => ['<', '=']
  | greaterEquals => ['>', '=']
  | equalsEquals => ['=', '=']
  | exclaimEquals => ['!', '=']
  | caret => ['^']
  | pipe => ['|']
  | ampersandAmpersand => ['&', '&']
  | pipePipe => ['|', '|']
  | question => ['?']
  | colon => [':']
  | semicolon => [';']
  | ellipsis => ['.', '.', '.']
  | equals => ['=']
  | starEquals => ['*', '=']
  | slashEquals => ['/', '=']
  | percentEquals => ['%', '=']
  | plusEquals => ['+', '=']
  | minusEquals => ['-', '=']
  | lessLessEquals => ['<', '<', '=']
  | greaterGreaterEquals => ['>', '>', '=']
  | ampersandEquals => ['&', '=']
  | caretEquals => ['^', '=']
  | pipeEquals => ['|', '=']
  | comma => [',']
  | hash => ['#']
  | hashHash => ['#', '#']
  | lessColon => ['<', ':']
  | colonGreater => [':', '>']
  | lessPercent => ['<', '%']
  | percentGreater => ['%', '>']
  | percentColon => ['%', ':']
  | percentColonPercentColon => ['%', ':', '%', ':']

/-- The punctuators, long ones first. -/
def values : List Punctuator :=
  [percentColonPercentColon, ellipsis, lessLessEquals, greaterGreaterEquals, arrow, plusPlus,
    minusMinus, lessLess, greaterGreater, lessEquals, greaterEquals, equalsEquals, exclaimEquals,
    ampersandAmpersand, pipePipe, starEquals, slashEquals, percentEquals, plusEquals, minusEquals,
    ampersandEquals, caretEquals, pipeEquals, hashHash, lessColon, colonGreater, lessPercent,
    percentGreater, percentColon, leftBracket, rightBracket, leftParenthesis, rightParenthesis,
    leftBrace, rightBrace, dot, ampersand, star, plus, minus, tilde, exclaim, slash, percent, less,
    greater, caret, pipe, question, colon, semicolon, equals, comma, hash]

theorem mem_values (p : Punctuator) : p ∈ values := by
  cases p <;> decide

theorem spelling_ne_nil (p : Punctuator) : p.spelling ≠ [] := by
  cases p <;> decide

theorem spelling_injective {p q : Punctuator} (h : p.spelling = q.spelling) : p = q := by
  have hfind : ∀ p : Punctuator, values.find? (fun q => q.spelling = p.spelling) = some p := by
    intro p
    cases p <;> rfl
  have hp := hfind p
  rw [h, hfind q] at hp
  exact (Option.some.inj hp).symm

theorem pairwise_values :
    values.Pairwise fun p q => q.spelling.length ≤ p.spelling.length := by
  decide

/-- A longer punctuator starts with this one and the character. -/
def continues (p : Punctuator) (c : Char) : Bool :=
  values.any fun q => (p.spelling ++ [c]).isPrefixOf q.spelling

end Punctuator

/-- The longest punctuator that the text starts with. -/
def lexPunctuator (text : Text) : Option (Punctuator × Text) :=
  (Punctuator.values.find? fun p => p.spelling.isPrefixOf text).map fun p =>
    (p, text.drop p.spelling.length)

/-- The first of some items, when the others that fit come later. -/
theorem find?_eq_some_of_pairwise {α : Type} {R : α → α → Prop} {p : α → Bool} {a : α}
    {xs : List α} (hpairwise : xs.Pairwise R) (ha : a ∈ xs) (hp : p a = true)
    (hlater : ∀ b ∈ xs, p b = true → R b a → b = a) : xs.find? p = some a := by
  induction xs with
  | nil => cases ha
  | cons b xs ih =>
    rw [List.pairwise_cons] at hpairwise
    rw [List.find?_cons]
    cases hb : p b with
    | true =>
      rcases List.mem_cons.mp ha with rfl | ha
      · rfl
      · rw [hlater b List.mem_cons_self hb (hpairwise.1 a ha)]
    | false =>
      rcases List.mem_cons.mp ha with rfl | ha
      · rw [hp] at hb
        cases hb
      · exact ih hpairwise.2 ha fun c hc => hlater c (List.mem_cons_of_mem _ hc)

theorem lexPunctuator_append {p : Punctuator} {rest : Text}
    (h : ∀ c, rest.head? = some c → p.continues c = false) :
    lexPunctuator (p.spelling ++ rest) = some (p, rest) := by
  have hfind : Punctuator.values.find? (fun q => q.spelling.isPrefixOf (p.spelling ++ rest)) =
      some p := by
    refine find?_eq_some_of_pairwise Punctuator.pairwise_values p.mem_values
      (List.isPrefixOf_iff_prefix.mpr (List.prefix_append _ _)) fun q hq hstarts hlength => ?_
    rw [List.isPrefixOf_iff_prefix] at hstarts
    obtain ⟨more, hmore⟩ := List.prefix_of_prefix_length_le (List.prefix_append p.spelling rest)
      hstarts hlength
    cases more with
    | nil =>
      rw [List.append_nil] at hmore
      exact (Punctuator.spelling_injective hmore).symm
    | cons c more =>
      -- A longer one would continue this one by the next character.
      rw [← hmore, List.prefix_append_right_inj] at hstarts
      obtain ⟨later, hlater⟩ := hstarts
      have hcontinues : p.continues c = true := by
        rw [Punctuator.continues, List.any_eq_true]
        refine ⟨q, hq, List.isPrefixOf_iff_prefix.mpr ⟨more, ?_⟩⟩
        rw [List.append_assoc, List.singleton_append, hmore]
      rw [h c (by rw [← hlater]; rfl)] at hcontinues
      cases hcontinues
  rw [lexPunctuator, hfind, Option.map_some, List.drop_left]

/-! ## Words, numbers and strings -/

def isInitialIdentifierCharacter (c : Char) : Bool := c.isAlpha || c == '_'

def isIdentifierCharacter (c : Char) : Bool := c.isAlphanum || c == '_'

def validateIdentifier : Text → Bool
  | [] => false
  | c :: rest => isInitialIdentifierCharacter c && rest.all isIdentifierCharacter

/-- A number may go on with this character.  A sign belongs to it after the letter of an
exponent. -/
def continuesNumber (previous c : Char) : Bool :=
  isIdentifierCharacter c || c == '.' ||
    ((c == '+' || c == '-') && (previous == 'e' || previous == 'E' || previous == 'p' ||
      previous == 'P'))

/-- The rest of a number, and what follows it. -/
def lexNumber (previous : Char) : Text → Text × Text
  | [] => ([], [])
  | c :: rest =>
      if continuesNumber previous c then
        let (number, rest) := lexNumber c rest
        (c :: number, rest)
      else ([], c :: rest)

/-- The text up to the quote that closes a string, and what follows the quote. -/
def lexString : Text → Option (Text × Text)
  | [] => none
  | '"' :: rest => some ([], rest)
  | '\\' :: c :: rest => (lexString rest).map fun (contents, rest) => ('\\' :: c :: contents, rest)
  | c :: rest => (lexString rest).map fun (contents, rest) => (c :: contents, rest)

/-- What may stand between the quotes: every quote and every backslash is escaped. -/
def isEscaped : Text → Bool
  | [] => true
  | '"' :: _ => false
  | '\\' :: _ :: rest => isEscaped rest
  | ['\\'] => false
  | _ :: rest => isEscaped rest

inductive Token where
  | word (name : Text)
  | number (digits : Text)
  | string (contents : Text)
  | punctuator (p : Punctuator)
  deriving DecidableEq, Repr

namespace Token

def spelling : Token → Text
  | word name => name
  | number digits => digits
  | string contents => '"' :: (contents ++ ['"'])
  | punctuator p => p.spelling

/-- It is spelled as a token of its kind. -/
def isValid : Token → Bool
  | word name => validateIdentifier name
  | number digits => digits.head?.any Char.isDigit && digits.all isIdentifierCharacter
  | string contents => isEscaped contents
  | punctuator _ => true

/-- The character would not be read as a part of the token that it follows. -/
def stopsAt (c : Char) : Token → Bool
  | word _ => !isIdentifierCharacter c
  | number _ => !isIdentifierCharacter c && c != '.' && c != '+' && c != '-'
  | string _ => true
  | punctuator .dot => !Punctuator.dot.continues c && !c.isDigit
  | punctuator .slash => !Punctuator.slash.continues c && c != '/' && c != '*'
  | punctuator p => !p.continues c

end Token

/-! ## Cutting a text into tokens -/

/-- The longest token that the text starts with.  A comment is not one. -/
def lexToken : Text → Option (Token × Text)
  | [] => none
  | c :: rest =>
      if isInitialIdentifierCharacter c then
        some (.word (c :: rest.takeWhile isIdentifierCharacter),
          rest.dropWhile isIdentifierCharacter)
      else if c.isDigit || c == '.' && rest.head?.any Char.isDigit then
        let (digits, rest) := lexNumber c rest
        some (.number (c :: digits), rest)
      else if c == '"' then
        (lexString rest).map fun (contents, rest) => (.string contents, rest)
      else if c == '/' && rest.head?.any (fun d => d == '/' || d == '*') then none
      else (lexPunctuator (c :: rest)).map fun (p, rest) => (.punctuator p, rest)

/-- The tokens of a text, at most as many as the first argument. -/
def lexTokens : Nat → Text → Option (List Token)
  | _, [] => some []
  | 0, _ :: _ => none
  | n + 1, ' ' :: rest => lexTokens n rest
  | n + 1, c :: rest =>
      (lexToken (c :: rest)).bind fun (t, rest) => (lexTokens n rest).map (t :: ·)

def lex (text : Text) : Option (List Token) := lexTokens text.length text

/-! ### One token -/

theorem isInitialIdentifierCharacter_of_isDigit {c : Char} (h : c.isDigit = true) :
    isInitialIdentifierCharacter c = false := by
  have hne : c ≠ '_' := by
    rintro rfl
    cases h
  simp only [Char.isDigit, Bool.and_eq_true, decide_eq_true_eq, ge_iff_le, UInt32.le_iff_toNat_le]
    at h
  have hmax : c.val.toNat ≤ 57 := h.2
  have hupper : c.isUpper = false := by
    refine decide_eq_false fun hboth => ?_
    have hmin : 65 ≤ c.val.toNat := UInt32.le_iff_toNat_le.mp hboth.1
    omega
  have hlower : c.isLower = false := by
    refine Bool.and_eq_false_iff.mpr (Or.inl (decide_eq_false fun hmin => ?_))
    have hmin : 97 ≤ c.val.toNat := UInt32.le_iff_toNat_le.mp hmin
    omega
  have halpha : c.isAlpha = false := Bool.or_eq_false_iff.mpr ⟨hupper, hlower⟩
  simp [isInitialIdentifierCharacter, halpha, hne]

theorem lexNumber_append {digits rest : Text} (hdigits : digits.all isIdentifierCharacter = true)
    (hrest : ∀ c, rest.head? = some c → (Token.number digits).stopsAt c = true) (previous : Char) :
    lexNumber previous (digits ++ rest) = (digits, rest) := by
  induction digits generalizing previous with
  | nil =>
    cases rest with
    | nil => rfl
    | cons c rest =>
      have hstops := hrest c rfl
      simp only [Token.stopsAt, Bool.and_eq_true, Bool.not_eq_true', bne_iff_ne] at hstops
      obtain ⟨⟨⟨hc, hdot⟩, hplus⟩, hminus⟩ := hstops
      simp [lexNumber, continuesNumber, hc, hdot, hplus, hminus]
  | cons c digits ih =>
    rw [List.all_cons, Bool.and_eq_true] at hdigits
    rw [List.cons_append, lexNumber, if_pos (by simp [continuesNumber, hdigits.1]),
      ih hdigits.2 hrest c]

theorem lexString_append {contents : Text} (h : isEscaped contents = true) (rest : Text) :
    lexString (contents ++ '"' :: rest) = some (contents, rest) := by
  fun_induction isEscaped contents with
  | case1 => rfl
  | case2 => cases h
  | case3 c contents ih =>
    rw [List.cons_append, List.cons_append, lexString, ih h, Option.map_some]
  | case4 => cases h
  | case5 c contents hquote hescape hlast ih =>
    rw [List.cons_append, lexString, ih h, Option.map_some]
    · exact hquote
    · intro d more hc hd
      subst hc
      cases contents with
      | nil => exact hlast rfl rfl
      | cons e contents => exact hescape e contents rfl rfl

theorem lexToken_punctuator {p : Punctuator} {rest : Text}
    (hrest : ∀ c, rest.head? = some c → (Token.punctuator p).stopsAt c = true) :
    lexToken (p.spelling ++ rest) =
      (lexPunctuator (p.spelling ++ rest)).map fun (p, rest) => (.punctuator p, rest) := by
  cases p with
  | dot =>
    have hdigit : rest.head?.any Char.isDigit = false := by
      cases rest with
      | nil => rfl
      | cons c rest =>
        have hstops := hrest c rfl
        simp only [Token.stopsAt, Bool.and_eq_true, Bool.not_eq_true'] at hstops
        exact hstops.2
    show lexToken ('.' :: rest) = _
    rw [lexToken, if_neg (by decide), hdigit, if_neg (by decide), if_neg (by decide),
      if_neg (by simp)]
    rfl
  | slash =>
    have hcomment : (rest.head?.any fun d => d == '/' || d == '*') = false := by
      cases rest with
      | nil => rfl
      | cons c rest =>
        have hstops := hrest c rfl
        simp only [Token.stopsAt, Bool.and_eq_true, bne_iff_ne] at hstops
        simp [hstops.1.2, hstops.2]
    show lexToken ('/' :: rest) = _
    rw [lexToken, if_neg (by decide), if_neg (by simp), if_neg (by decide), hcomment,
      if_neg (by decide)]
    rfl
  | _ => rfl

theorem continues_of_stopsAt {p : Punctuator} {c : Char}
    (h : (Token.punctuator p).stopsAt c = true) : p.continues c = false := by
  cases p with
  | dot =>
    simp only [Token.stopsAt, Bool.and_eq_true, Bool.not_eq_true'] at h
    exact h.1
  | slash =>
    simp only [Token.stopsAt, Bool.and_eq_true, Bool.not_eq_true'] at h
    exact h.1.1
  | _ => simpa only [Token.stopsAt, Bool.not_eq_true'] using h

theorem Token.lexToken_spelling {t : Token} {rest : Text} (ht : t.isValid = true)
    (hrest : ∀ c, rest.head? = some c → t.stopsAt c = true) :
    lexToken (t.spelling ++ rest) = some (t, rest) := by
  cases t with
  | word name =>
    cases name with
    | nil => cases ht
    | cons c name =>
      rw [Token.isValid, validateIdentifier, Bool.and_eq_true, List.all_eq_true] at ht
      have hhead : rest.takeWhile isIdentifierCharacter = [] ∧
          rest.dropWhile isIdentifierCharacter = rest := by
        cases rest with
        | nil => exact ⟨rfl, rfl⟩
        | cons d rest =>
          have hd := hrest d rfl
          rw [Token.stopsAt, Bool.not_eq_true'] at hd
          simp [hd]
      rw [Token.spelling, List.cons_append, lexToken, if_pos ht.1,
        List.takeWhile_append_of_pos ht.2, List.dropWhile_append_of_pos ht.2, hhead.1,
        hhead.2, List.append_nil]
  | number digits =>
    cases digits with
    | nil => simp [Token.isValid] at ht
    | cons c digits =>
      simp only [Token.isValid, List.head?_cons, Option.any_some, Bool.and_eq_true,
        List.all_cons] at ht
      obtain ⟨hc, -, hdigits⟩ := ht
      rw [Token.spelling, List.cons_append, lexToken,
        isInitialIdentifierCharacter_of_isDigit hc, if_neg (by decide),
        if_pos (by rw [hc, Bool.true_or]), lexNumber_append hdigits hrest]
  | string contents =>
    have hsplit : (Token.string contents).spelling ++ rest = '"' :: (contents ++ '"' :: rest) := by
      simp [Token.spelling]
    rw [hsplit, lexToken, if_neg (by decide), if_neg (by simp), if_pos (by decide),
      lexString_append ht, Option.map_some]
  | punctuator p =>
    rw [Token.spelling, lexToken_punctuator hrest,
      lexPunctuator_append fun c hc => continues_of_stopsAt (hrest c hc), Option.map_some]

/-! ### All tokens -/

theorem length_lexNumber (previous : Char) (text : Text) :
    (lexNumber previous text).2.length ≤ text.length := by
  induction text generalizing previous with
  | nil => exact Nat.le_refl _
  | cons c text ih =>
    rw [lexNumber]
    split
    · exact Nat.le_succ_of_le (ih c)
    · exact Nat.le_refl _

theorem length_lexString {text contents rest : Text} (h : lexString text = some (contents, rest)) :
    rest.length < text.length := by
  fun_induction lexString text generalizing contents with
  | case1 => cases h
  | case2 text =>
    cases h
    exact Nat.lt_succ_self _
  | case3 c text ih =>
    rw [Option.map_eq_some_iff] at h
    obtain ⟨⟨contents, rest⟩, hread, heq⟩ := h
    cases heq
    have := ih hread
    simp only [List.length_cons]
    omega
  | case4 c text hquote hescape ih =>
    rw [Option.map_eq_some_iff] at h
    obtain ⟨⟨contents, rest⟩, hread, heq⟩ := h
    cases heq
    exact Nat.lt_succ_of_lt (ih hread)

theorem length_lexToken {text rest : Text} {t : Token} (h : lexToken text = some (t, rest)) :
    rest.length < text.length := by
  cases text with
  | nil => cases h
  | cons c text =>
    rw [lexToken] at h
    split at h
    · cases h
      exact Nat.lt_succ_of_le (List.dropWhile_sublist isIdentifierCharacter).length_le
    split at h
    · cases h
      exact Nat.lt_succ_of_le (length_lexNumber c text)
    split at h
    · rw [Option.map_eq_some_iff] at h
      obtain ⟨⟨contents, rest⟩, hread, heq⟩ := h
      cases heq
      exact Nat.lt_succ_of_lt (length_lexString hread)
    split at h
    · cases h
    rw [Option.map_eq_some_iff] at h
    obtain ⟨⟨p, rest⟩, hread, heq⟩ := h
    cases heq
    rw [lexPunctuator, Option.map_eq_some_iff] at hread
    obtain ⟨q, -, heq⟩ := hread
    cases heq
    have hpos := List.length_pos_iff.mpr (Punctuator.spelling_ne_nil p)
    rw [List.length_drop, List.length_cons]
    omega

/-- The tokens do not depend on the bound. -/
theorem lexTokens_of_le {n : Nat} {text : Text} (h : text.length ≤ n) :
    lexTokens n text = lex text := by
  have hsame : ∀ n m text, text.length ≤ n → text.length ≤ m → lexTokens n text = lexTokens m text := by
    intro n
    induction n with
    | zero =>
      intro m text hn _
      rw [List.length_eq_zero_iff.mp (Nat.le_zero.mp hn)]
      cases m <;> rfl
    | succ n ih =>
      intro m text hn hm
      cases text with
      | nil => cases m <;> rfl
      | cons c text =>
        cases m with
        | zero => cases hm
        | succ m =>
          rw [List.length_cons, Nat.succ_le_succ_iff] at hn hm
          by_cases hspace : c = ' '
          · subst hspace
            exact ih m text hn hm
          · rw [lexTokens, lexTokens]
            · refine Option.bind_congr fun ⟨t, rest⟩ hread => ?_
              have hlength := length_lexToken hread
              rw [List.length_cons] at hlength
              show (lexTokens n rest).map _ = _
              rw [ih m rest (by omega) (by omega)]
            · exact hspace
            · exact hspace
  exact hsame n text.length text h (Nat.le_refl _)

theorem lex_space (rest : Text) : lex (' ' :: rest) = lex rest := rfl

theorem Token.lex_spelling {t : Token} {rest : Text} (ht : t.isValid = true)
    (hrest : ∀ c, rest.head? = some c → t.stopsAt c = true) :
    lex (t.spelling ++ rest) = (lex rest).map (t :: ·) := by
  have hread := Token.lexToken_spelling ht hrest
  have hlength := length_lexToken hread
  cases htext : t.spelling ++ rest with
  | nil =>
    rw [htext] at hlength
    cases hlength
  | cons c text =>
    rw [htext] at hread hlength
    rw [lex, List.length_cons, lexTokens, hread, Option.bind_some]
    · show (lexTokens _ rest).map _ = _
      rw [lexTokens_of_le (Nat.le_of_lt_succ hlength)]
    · rintro rfl
      cases hread

/-! ## Pieces of a text -/

inductive Piece where
  | token (t : Token)
  | space
  deriving DecidableEq, Repr

namespace Piece

def spelling : Piece → Text
  | token t => t.spelling
  | space => [' ']

def token? : Piece → Option Token
  | token t => some t
  | space => none

/-- The second piece may come directly after the first. -/
def MayPrecede : Piece → Piece → Prop
  | token t, token t' => ∀ c, t'.spelling.head? = some c → t.stopsAt c = true
  | _, _ => True

end Piece

def spell (pieces : List Piece) : Text := pieces.flatMap Piece.spelling

def tokens (pieces : List Piece) : List Token := pieces.filterMap Piece.token?

/-- No token makes the one before it longer. -/
def Spaced (pieces : List Piece) : Prop := pieces.IsChain Piece.MayPrecede

def AllValid (pieces : List Piece) : Prop := ∀ t ∈ tokens pieces, t.isValid = true

theorem Token.stopsAt_space (t : Token) : t.stopsAt ' ' = true := by
  cases t with
  | punctuator p => cases p <;> decide
  | _ => rfl

theorem Token.spelling_ne_nil {t : Token} (h : t.isValid = true) : t.spelling ≠ [] := by
  cases t with
  | punctuator p => exact p.spelling_ne_nil
  | string contents => exact List.cons_ne_nil _ _
  | word name =>
    rintro rfl
    cases h
  | number digits =>
    rintro rfl
    cases h

section Spell

variable {pieces : List Piece} (hvalid : AllValid pieces) (hspaced : Spaced pieces)
include hvalid hspaced

/-- The tokens are read back before a text that does not make the last one longer. -/
theorem lex_spell_append {rest : Text}
    (hlast : ∀ t, pieces.getLast? = some (.token t) →
      ∀ c, rest.head? = some c → t.stopsAt c = true) :
    lex (spell pieces ++ rest) = (lex rest).map (tokens pieces ++ ·) := by
  induction pieces with
  | nil => exact Option.map_id'.symm
  | cons piece pieces ih =>
    have htail : lex (spell pieces ++ rest) = (lex rest).map (tokens pieces ++ ·) := by
      refine ih (fun t ht => hvalid t ?_) (List.isChain_cons.mp hspaced).2 fun t ht => hlast t ?_
      · cases piece with
        | token t' => exact List.mem_cons_of_mem _ ht
        | space => exact ht
      · rw [List.getLast?_cons, ht, Option.getD_some]
    cases piece with
    | space =>
      show lex (' ' :: (spell pieces ++ rest)) = _
      rw [lex_space, htail]
      rfl
    | token t =>
      show lex (t.spelling ++ spell pieces ++ rest) = _
      have ht : t.isValid = true := hvalid t List.mem_cons_self
      rw [List.append_assoc, Token.lex_spelling ht fun c hc => ?_, htail, Option.map_map]
      · rfl
      · -- The character comes from the next piece, or from the rest.
        cases pieces with
        | nil => exact hlast t rfl c hc
        | cons next pieces =>
          have hnext := (List.isChain_cons_cons.mp hspaced).1
          cases next with
          | space =>
            cases hc
            exact t.stopsAt_space
          | token t' =>
            have ht' : t'.isValid = true :=
              hvalid t' (List.mem_cons_of_mem _ List.mem_cons_self)
            refine hnext c ?_
            rw [← hc]
            show _ = (t'.spelling ++ spell pieces ++ rest).head?
            rw [List.append_assoc, List.head?_append_of_ne_nil _ (Token.spelling_ne_nil ht')]

/-- A text is cut into the tokens it was spelled from. -/
theorem lex_spell : lex (spell pieces) = some (tokens pieces) := by
  have h : lex (spell pieces ++ []) = (lex []).map (tokens pieces ++ ·) :=
    lex_spell_append hvalid hspaced fun _ _ _ h => nomatch h
  rw [List.append_nil] at h
  rw [h]
  show some (tokens pieces ++ []) = _
  rw [List.append_nil]

end Spell

end CliftEmitC
