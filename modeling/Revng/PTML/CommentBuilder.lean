import Mathlib.Algebra.Group.Nat.Defs
import Mathlib.Data.List.Basic
import Mathlib.Data.Option.Basic

/-!
# Wrapping comments

`CommentBuilder` prints the lines of a documentation comment.  Each line starts with the indentation
and the indicator, and text that does not fit is wrapped.  `tokenStep` is one round of the loop in
`token`, which has five cases, and every round either takes a character or starts a new line.

Sizes have no bound, but a difference of sizes is cut to 64 bits.  Markup is left out, and with it
the attributes of tokens.
-/

namespace PTML

/-! ## Tokens and lines -/

inductive DoxygenTokenType where
  | untagged
  | indentation
  | keyword
  | identifier
  deriving DecidableEq, Repr

structure DoxygenToken where
  type : DoxygenTokenType
  value : List Char
  deriving Repr

structure DoxygenLine where
  tags : List DoxygenToken
  internalIndentation : ℕ
  deriving Repr

namespace DoxygenLine

def emplaceBack (l : DoxygenLine) (tag : DoxygenToken) : DoxygenLine :=
  { l with tags := l.tags ++ [tag] }

/-- The text of the line without markup. -/
def text (l : DoxygenLine) : List Char := l.tags.flatMap DoxygenToken.value

/-- `CommentBuilder::toString`, behind its assertion. -/
def toString (l : DoxygenLine) : Option (List Char) :=
  if l.tags = [] then none else some (l.text ++ ['\n'])

end DoxygenLine

/-! ## Positions -/

/-- `StringRef::find` -/
def find (c : Char) (text : List Char) : Option ℕ := text.findIdx? (· = c)

def rfindBelow (c : Char) (text : List Char) : ℕ → Option ℕ
  | 0 => none
  | i + 1 => if text[i]? = some c then some i else rfindBelow c text i

/-- `StringRef::rfind`, which looks at the positions below `fromPosition`. -/
def rfind (c : Char) (text : List Char) (fromPosition : ℕ) : Option ℕ :=
  rfindBelow c text (min fromPosition text.length)

/-- A difference of `size_t`. -/
def sizeDifference (a b : ℕ) : ℕ := (a + (2 ^ 64 - b)) % 2 ^ 64

/-! ## The builder -/

structure CommentBuilder where
  indicator : List Char
  indentation : ℕ
  wrapAt : ℕ
  wrapAt_lt : wrapAt < 2 ^ 64

namespace CommentBuilder

variable (b : CommentBuilder)

def firstLine : DoxygenLine × ℕ :=
  (⟨(if b.indentation ≠ 0
        then [⟨.indentation, List.replicate b.indentation ' '⟩] else []) ++
      (if b.indicator ≠ [] then [⟨.untagged, b.indicator ++ [' ']⟩] else []), 0⟩,
    b.indentation + b.indicator.length)

def line (indentationSize : ℕ) : DoxygenLine × ℕ :=
  let (line, resultSize) := b.firstLine
  if indentationSize ≠ 0 then
    (⟨line.tags ++ [⟨.indentation, List.replicate indentationSize ' '⟩], indentationSize⟩,
      resultSize + indentationSize)
  else (line, resultSize)

/-! ## Tokens -/

structure TokenState where
  tagText : List Char
  resultLine : DoxygenLine
  currentSize : ℕ
  wereTagsEmittedSinceLastBreak : Bool
  /-- The lines that were appended to the result. -/
  result : List (List Char)

/-- Print the line and start another one. -/
def breakLine (internalIndentation : ℕ) (s : TokenState) : Option TokenState := do
  let text ← s.resultLine.toString
  let (resultLine, currentSize) := b.line internalIndentation
  return { s with
    resultLine, currentSize, wereTagsEmittedSinceLastBreak := false, result := s.result ++ [text] }

/-- There is a newline that fits in the line. -/
def newLine? (s : TokenState) : Option ℕ :=
  (find '\n' s.tagText).filter fun position => position + s.currentSize < b.wrapAt

/-- One round of the loop over the text of a token.  There is no result if an assertion fails. -/
def tokenStep (type : DoxygenTokenType) (internalIndentation : ℕ) (s : TokenState) :
    Option TokenState :=
  match b.newLine? s with
  | some position =>
      -- line breaks are only allowed in untagged sections
      if type ≠ .untagged then none
      else
        let resultLine :=
          if position ≠ 0 then s.resultLine.emplaceBack ⟨.untagged, s.tagText.take position⟩
          else s.resultLine
        b.breakLine internalIndentation
          { s with resultLine, tagText := s.tagText.drop (position + 1) }
  | none =>
    if s.tagText.length + s.currentSize < b.wrapAt then
      some { s with
        resultLine := s.resultLine.emplaceBack ⟨.untagged, s.tagText⟩
        currentSize := s.currentSize + s.tagText.length
        tagText := []
        wereTagsEmittedSinceLastBreak := true }
    else
      match rfind ' ' s.tagText (sizeDifference b.wrapAt s.currentSize) with
      | some lastSpace =>
          b.breakLine internalIndentation
            { s with
              resultLine := s.resultLine.emplaceBack ⟨type, s.tagText.take lastSpace⟩
              tagText := s.tagText.drop (lastSpace + 1) }
      | none =>
          if s.wereTagsEmittedSinceLastBreak then b.breakLine internalIndentation s
          else
            let firstSpace := (find ' ' s.tagText).getD s.tagText.length
            b.breakLine internalIndentation
              { s with
                resultLine := s.resultLine.emplaceBack ⟨type, s.tagText.take firstSpace⟩
                tagText := s.tagText.drop (firstSpace + 1) }

variable {b}

theorem breakLine_eq_some {internalIndentation : ℕ} {s s' : TokenState}
    (h : b.breakLine internalIndentation s = some s') :
    s'.tagText = s.tagText ∧ s'.wereTagsEmittedSinceLastBreak = false ∧
      s'.currentSize = (b.line internalIndentation).2 ∧
      s'.resultLine = (b.line internalIndentation).1 ∧
      s'.result = s.result ++ [s.resultLine.text ++ ['\n']] ∧ s.resultLine.tags ≠ [] := by
  rw [breakLine, DoxygenLine.toString] at h
  split_ifs at h with htags
  · cases h
  · cases h
    exact ⟨rfl, rfl, rfl, rfl, rfl, htags⟩

/-- Rounds that are left, at most. -/
def TokenState.rounds (s : TokenState) : ℕ :=
  2 * s.tagText.length + s.wereTagsEmittedSinceLastBreak.toNat

/-- Every round of the loop has fewer rounds left. -/
theorem rounds_tokenStep {type : DoxygenTokenType} {internalIndentation : ℕ} {s s' : TokenState}
    (hne : s.tagText ≠ []) (h : b.tokenStep type internalIndentation s = some s') :
    s'.rounds < s.rounds := by
  have hpositive : 0 < s.tagText.length := List.length_pos_iff.2 hne
  have hdrop (resultLine : DoxygenLine) (n : ℕ)
      (h : b.breakLine internalIndentation
        { s with resultLine, tagText := s.tagText.drop (n + 1) } = some s') :
      s'.rounds < s.rounds := by
    obtain ⟨htext, hflag, -⟩ := breakLine_eq_some h
    rw [TokenState.rounds, TokenState.rounds, htext, hflag, List.length_drop, Bool.toNat_false]
    omega
  simp only [tokenStep] at h
  split at h
  · split_ifs at h <;> exact hdrop _ _ h
  · split at h
    · cases h
      simp only [TokenState.rounds, List.length_nil, Bool.toNat_true]
      omega
    · split at h
      · exact hdrop _ _ h
      · split at h
        next hflag =>
          obtain ⟨htext, hflag', -⟩ := breakLine_eq_some h
          rw [TokenState.rounds, TokenState.rounds, htext, hflag, hflag', Bool.toNat_true,
            Bool.toNat_false]
          omega
        next => exact hdrop _ _ h

variable (b) in
/-- The loop over the text of a token. -/
def tokenLoop (type : DoxygenTokenType) (internalIndentation : ℕ) (s : TokenState) :
    Option TokenState :=
  if _hne : s.tagText = [] then some s
  else
    match _h : b.tokenStep type internalIndentation s with
    | none => none
    | some s' => tokenLoop type internalIndentation s'
termination_by s.rounds
decreasing_by exact rounds_tokenStep _hne _h

theorem tokenLoop_nil (type : DoxygenTokenType) (internalIndentation : ℕ) {s : TokenState}
    (h : s.tagText = []) : b.tokenLoop type internalIndentation s = some s := by
  rw [tokenLoop, dif_pos h]

theorem tokenLoop_eq_bind (type : DoxygenTokenType) (internalIndentation : ℕ) {s : TokenState}
    (h : s.tagText ≠ []) :
    b.tokenLoop type internalIndentation s =
      (b.tokenStep type internalIndentation s).bind (b.tokenLoop type internalIndentation) := by
  rw [tokenLoop, dif_neg h]
  cases b.tokenStep type internalIndentation s <;> rfl

variable (b)

def token (internalIndentation : ℕ) (s : TokenState) (t : DoxygenToken) : Option TokenState :=
  b.tokenLoop t.type internalIndentation { s with tagText := t.value }

/-! ## Comments -/

/-- The lines that a line of the comment is printed as. -/
def emitLine (l : DoxygenLine) : Option (List (List Char)) := do
  let (resultLine, currentSize) := b.line 0
  let result ← if l.tags = [] then (resultLine.toString).map ([·]) else some []
  let s ← l.tags.foldlM (b.token l.internalIndentation)
    ⟨[], resultLine, currentSize, false, result⟩
  if s.wereTagsEmittedSinceLastBreak then do
    let text ← s.resultLine.toString
    return s.result ++ [text]
  else return s.result

def emit (lines : List DoxygenLine) : Option (List Char) := do
  let results ← lines.mapM b.emitLine
  return results.flatten.flatten

end CommentBuilder

end PTML
