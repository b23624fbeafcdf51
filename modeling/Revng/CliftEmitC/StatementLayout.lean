import Revng.CliftEmitC.Statements

/-!
# Words that do not touch

Between two words of a text stands a space, a newline, a comment or punctuation (`WordsApart`), so that
the tokens can be told from the text.
-/

namespace CliftEmitC

open StatementPiece

variable {ε δ ν : Type}

/-- The text of the token may begin and end with characters of an identifier. -/
def StatementToken.isWord : StatementToken ε δ ν → Bool
  | keyword _ => true
  | identifier _ => true
  | expression _ => true
  | declaration _ => true
  | value _ => true
  | _ => false

/-- Whether a word comes last, where no word follows another one directly. -/
def endsInWord? : Bool → Pieces ε δ ν → Option Bool
  | afterWord, [] => some afterWord
  | _, space :: ps => endsInWord? false ps
  | _, newline :: ps => endsInWord? false ps
  | _, lineComment _ :: ps => endsInWord? false ps
  | afterWord, token t :: ps => if afterWord && t.isWord then none else endsInWord? t.isWord ps

/-- No two words touch. -/
def WordsApart (ps : Pieces ε δ ν) : Prop := (endsInWord? false ps).isSome = true

section

variable {ps qs : Pieces ε δ ν} {afterWord : Bool}

theorem endsInWord?_append :
    endsInWord? afterWord (ps ++ qs) = (endsInWord? afterWord ps).bind (endsInWord? · qs) := by
  induction ps generalizing afterWord with
  | nil => rfl
  | cons p ps ih =>
    cases p with
    | space => exact ih
    | newline => exact ih
    | lineComment text => exact ih
    | token t =>
      rw [List.cons_append, endsInWord?, endsInWord?]
      split_ifs
      · rfl
      · exact ih

/-- The pieces may stand alone: they begin after no word and do not end in one. -/
def IsApart (ps : Pieces ε δ ν) : Prop := endsInWord? false ps = some false

theorem isApart_nil : IsApart ([] : Pieces ε δ ν) := rfl

theorem IsApart.append (h : IsApart ps) (h' : IsApart qs) : IsApart (ps ++ qs) := by
  rw [IsApart, endsInWord?_append, h, Option.bind_some, h']

theorem isApart_emitComments (comments : List Text) :
    IsApart (emitComments comments : Pieces ε δ ν) := by
  induction comments with
  | nil => exact isApart_nil
  | cons text comments ih => exact ih

theorem isApart_emitEntityComment (comment : Text) :
    IsApart (emitEntityComment comment : Pieces ε δ ν) := by
  rw [emitEntityComment]
  split_ifs <;> rfl

/-- A body begins with a space or a newline, so it may come after a word. -/
theorem IsApart.implicitBlock (h : IsApart qs) (hwords : WordsApart ps) (emitBlock : Bool) :
    IsApart (ps ++ emitImplicitBlockStatement emitBlock qs) := by
  obtain ⟨afterWord, hafterWord⟩ := Option.isSome_iff_exists.1 hwords
  rw [IsApart, endsInWord?_append, hafterWord, Option.bind_some]
  cases emitBlock with
  | true => exact h.append (rfl : IsApart [token .rightBrace])
  | false => exact h

end

end CliftEmitC
