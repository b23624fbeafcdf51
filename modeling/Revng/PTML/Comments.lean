import Mathlib.Data.List.Flatten
import Revng.Lib.CTrivia

/-!
# Comments

A `CommentEmitter` opens a comment when it is constructed, takes any strings and closes the comment
when it is destroyed.  The lines of a line comment get a prefix each, and the end of a comment is
meant to be replaced inside of a block comment.

Two texts get out of their comment.  A backslash at the end of a line comment takes the next line
into the comment, and the delimiter that block comments are split at includes the NUL behind the
literal, so a plain end of a comment stays.  `contained_iff` says when nothing gets out, for a
compiler that splices lines as the standard has it.
-/

namespace PTML

open CTrivia

/-! ## Emission -/

/-- Each line but the last one ends in a newline. -/
def lineRange : List Char → List (List Char)
  | [] => []
  | c :: rest =>
      if c = '\n' then [c] :: lineRange rest
      else match lineRange rest with
        | [] => [[c]]
        | line :: lines => (c :: line) :: lines

inductive CommentKind where
  | line
  | block
deriving DecidableEq, Repr

structure CommentEmitter where
  kind : CommentKind
  isAtBeginningOfLine : Bool
  /-- The text so far. -/
  text : List Char

/-- The pieces between the delimiters.  The delimiter is the whole array, with its NUL. -/
def splitAtClose : List Char → List (List Char)
  | '*' :: '/' :: '\x00' :: rest => [] :: splitAtClose rest
  | c :: rest =>
      match splitAtClose rest with
      | [] => [[c]]
      | piece :: pieces => (c :: piece) :: pieces
  | [] => [[]]

namespace CommentEmitter

def emitLinePrefix : CommentKind → List Char
  | .line => ['/', '/']
  | .block => []

def emitEscaped (content : List Char) : CommentKind → List Char
  | .line => content
  | .block => [' ', ' '].intercalate (splitAtClose content)

/-- The loop over the lines, with `EmitLinePrefix`. -/
def emitLines (kind : CommentKind) : Bool → List (List Char) → List Char
  | _, [] => []
  | needsPrefix, line :: lines =>
      (if needsPrefix then emitLinePrefix kind else []) ++
        (if line = ['\n'] then ['\n'] else emitEscaped line kind) ++ emitLines kind true lines

/-- The constructor. -/
def construct (kind : CommentKind) : CommentEmitter :=
  ⟨kind, false, match kind with
    | .line => ['/', '/']
    | .block => ['/', '*']⟩

def emit (emitter : CommentEmitter) (content : List Char) : CommentEmitter :=
  if content = [] then emitter
  else
    ⟨emitter.kind, content.getLast? = some '\n',
      emitter.text ++ emitLines emitter.kind emitter.isAtBeginningOfLine (lineRange content)⟩

/-- The text after the destructor. -/
def destroy (emitter : CommentEmitter) : List Char :=
  emitter.text ++
    match emitter.kind with
    | .line => if emitter.isAtBeginningOfLine then [] else ['\n']
    | .block => ['*', '/']

end CommentEmitter

open CommentEmitter

/-- The text of a comment that gets these strings one by one. -/
def comment (kind : CommentKind) (strings : List (List Char)) : List Char :=
  (strings.foldl emit (construct kind)).destroy

/-- Comments and whitespace are all there is in the text of the comment, and what follows it is
read as if it were not there. -/
def Contained (kind : CommentKind) (strings : List (List Char)) : Prop :=
  ∀ after, skip .between (splice (comment kind strings ++ after)) = skip .between (splice after)

/-! ## Line comments -/

/-- A prefix in front of each line. -/
def prefixed : Bool → List Char → List Char
  | _, [] => []
  | needsPrefix, c :: rest =>
      (if needsPrefix then ['/', '/'] else []) ++ c :: prefixed (c = '\n') rest

/-- Whether a new line begins after the text. -/
def beginsLine : Bool → List Char → Bool
  | begins, [] => begins
  | _, c :: rest => beginsLine (c = '\n') rest

theorem beginsLine_of_ne_nil {begins : Bool} {content : List Char} (h : content ≠ []) :
    beginsLine begins content = decide (content.getLast? = some '\n') := by
  induction content generalizing begins with
  | nil => exact absurd rfl h
  | cons c rest ih =>
    cases rest with
    | nil => simp [beginsLine]
    | cons d rest => rw [beginsLine, ih (List.cons_ne_nil d rest), List.getLast?_cons_cons]

theorem beginsLine_append (begins : Bool) (x y : List Char) :
    beginsLine begins (x ++ y) = beginsLine (beginsLine begins x) y := by
  induction x generalizing begins with
  | nil => rfl
  | cons c x ih => exact ih _

theorem prefixed_append (needsPrefix : Bool) (x y : List Char) :
    prefixed needsPrefix (x ++ y) =
      prefixed needsPrefix x ++ prefixed (beginsLine needsPrefix x) y := by
  induction x generalizing needsPrefix with
  | nil => rfl
  | cons c x ih =>
    rw [List.cons_append, prefixed, prefixed, ih, List.append_assoc]
    rfl

theorem emitLines_line_cons (needsPrefix : Bool) (line : List Char) (lines : List (List Char)) :
    emitLines .line needsPrefix (line :: lines) =
      (if needsPrefix then ['/', '/'] else []) ++ line ++ emitLines .line true lines := by
  have hline : (if line = ['\n'] then ['\n'] else emitEscaped line .line) = line := by
    split_ifs with h
    · exact h.symm
    · rfl
  rw [emitLines, hline]
  rfl

theorem emitLines_line (needsPrefix : Bool) (content : List Char) :
    emitLines .line needsPrefix (lineRange content) = prefixed needsPrefix content := by
  induction content generalizing needsPrefix with
  | nil => rfl
  | cons c rest ih =>
    by_cases hc : c = '\n'
    · rw [lineRange, if_pos hc, emitLines_line_cons, ih, prefixed, decide_eq_true hc,
        List.append_assoc]
      rfl
    · rw [lineRange, if_neg hc, prefixed, decide_eq_false hc, ← ih false]
      cases lineRange rest with
      | nil => rw [emitLines_line_cons, emitLines, emitLines, List.append_nil]
      | cons line lines => simp [emitLines_line_cons]

/-- What a line comment has written after some strings. -/
theorem foldl_emit_line (strings : List (List Char)) (begins : Bool) (text : List Char) :
    strings.foldl emit ⟨.line, begins, text⟩ =
      ⟨.line, beginsLine begins strings.flatten, text ++ prefixed begins strings.flatten⟩ := by
  induction strings generalizing begins text with
  | nil => simp [beginsLine, prefixed]
  | cons content strings ih =>
    have hemit : emit ⟨.line, begins, text⟩ content =
        ⟨.line, beginsLine begins content, text ++ prefixed begins content⟩ := by
      rw [emit]
      split_ifs with hnil
      · rw [hnil, beginsLine, prefixed, List.append_nil]
      · rw [beginsLine_of_ne_nil hnil, emitLines_line]
    rw [List.foldl_cons, hemit, ih, List.flatten_cons, beginsLine_append, prefixed_append,
      List.append_assoc]

/-- The last line goes on with the next one. -/
def EndsInBackslash (content : List Char) : Prop :=
  content.getLast? = some '\\' ∨ ['\\', '\n'] <:+ content

instance : DecidablePred EndsInBackslash := fun _ => inferInstanceAs (Decidable (_ ∨ _))

theorem endsInBackslash_of_not_mem {line : List Char} (h : '\n' ∉ line) :
    EndsInBackslash line ↔ line.getLast? = some '\\' := by
  constructor
  · rintro (hlast | hsuffix)
    · exact hlast
    · exact absurd (hsuffix.subset (by simp)) h
  · exact .inl

theorem endsInBackslash_newline_iff (line : List Char) :
    EndsInBackslash (line ++ ['\n']) ↔ line.getLast? = some '\\' := by
  rw [List.getLast?_eq_some_iff]
  constructor
  · rintro (hlast | ⟨before, heq⟩)
    · simp at hlast
    · exact ⟨before, (List.append_cancel_right ((List.append_cons ..).symm.trans heq)).symm⟩
  · rintro ⟨before, rfl⟩
    exact .inr ⟨before, List.append_cons ..⟩

/-- Only the last line counts. -/
theorem endsInBackslash_append_iff (line : List Char) {rest : List Char} (h : rest ≠ []) :
    EndsInBackslash (line ++ '\n' :: rest) ↔ EndsInBackslash rest := by
  have hlast : (line ++ '\n' :: rest).getLast? = rest.getLast? := by
    rw [List.append_cons]
    exact List.getLast?_append_of_ne_nil _ h
  have hsuffix : ['\\', '\n'] <:+ line ++ '\n' :: rest ↔ ['\\', '\n'] <:+ rest := by
    constructor
    · intro hline
      rcases List.suffix_or_suffix_of_suffix hline (List.suffix_append line _) with hrest | hrest
      · exact (List.suffix_cons_iff.1 hrest).resolve_left (by simp)
      · have hlength := hrest.length_le
        have hpos := List.length_pos_of_ne_nil h
        have heq := hrest.eq_of_length (by simp at hlength ⊢; omega)
        simp at heq
    · exact fun hrest => hrest.trans ((List.suffix_cons _ _).trans (List.suffix_append _ _))
  rw [EndsInBackslash, EndsInBackslash, hlast, hsuffix]

/-- The rest of a line comment, in a line whose text so far is given. -/
theorem skip_prefixed (content : List Char) {line : List Char} (hline : '\n' ∉ line)
    (after : List Char) :
    skip .line (splice (line ++ (prefixed false content ++
        ((if beginsLine false content then [] else ['\n']) ++ after)))) =
      if EndsInBackslash (line ++ content) then skip .line (splice after)
      else skip .between (splice after) := by
  induction content generalizing line with
  | nil =>
    simp only [List.append_nil, endsInBackslash_of_not_mem hline]
    exact skip_line hline after
  | cons c rest ih =>
    by_cases hc : c = '\n'
    · subst hc
      cases rest with
      | nil =>
        simp only [endsInBackslash_newline_iff]
        exact skip_line hline after
      | cons d rest =>
        simp only [endsInBackslash_append_iff line (List.cons_ne_nil d rest)]
        exact (skip_line_comment hline _).trans (ih List.not_mem_nil)
    · have hmem : '\n' ∉ line ++ [c] := by
        simp [hline, Ne.symm hc]
      rw [List.append_cons, ← ih hmem]
      rw [prefixed, decide_eq_false hc, beginsLine, decide_eq_false hc]
      simp

theorem comment_line (strings : List (List Char)) :
    comment .line strings = '/' :: '/' :: (prefixed false strings.flatten ++
      if beginsLine false strings.flatten then [] else ['\n']) := by
  rw [comment, construct, foldl_emit_line]
  rfl

theorem skip_comment_line (strings : List (List Char)) (after : List Char) :
    skip .between (splice (comment .line strings ++ after)) =
      if EndsInBackslash strings.flatten then skip .line (splice after)
      else skip .between (splice after) := by
  rw [comment_line, List.cons_append, List.cons_append, splice_cons_of_ne (by decide),
    splice_cons_of_ne (by decide), List.append_assoc]
  exact skip_prefixed strings.flatten List.not_mem_nil after

theorem contained_line_iff (strings : List (List Char)) :
    Contained .line strings ↔ ¬EndsInBackslash strings.flatten := by
  constructor
  · intro h hends
    have hskip := (skip_comment_line strings ['x']).symm.trans (h ['x'])
    rw [if_pos hends] at hskip
    exact absurd hskip (by decide)
  · intro hends after
    rw [skip_comment_line, if_neg hends]

/-! ## Block comments -/

/-- The delimiters with their NUL become two spaces. -/
def blanked : List Char → List Char
  | '*' :: '/' :: '\x00' :: rest => ' ' :: ' ' :: blanked rest
  | c :: rest => c :: blanked rest
  | [] => []

theorem splitAtClose_ne_nil (content : List Char) : splitAtClose content ≠ [] := by
  fun_cases splitAtClose content <;> simp_all

theorem emitEscaped_block (content : List Char) : emitEscaped content .block = blanked content := by
  rw [emitEscaped]
  fun_induction blanked content with
  | case1 rest ih =>
    rw [splitAtClose, ← ih]
    cases h : splitAtClose rest with
    | nil => exact absurd h (splitAtClose_ne_nil rest)
    | cons piece pieces => rfl
  | case2 c rest hne ih =>
    rw [splitAtClose.eq_2 _ _ hne, ← ih]
    cases splitAtClose rest with
    | nil => rfl
    | cons piece pieces =>
      cases pieces with
      | nil => rfl
      | cons next pieces => rfl
  | case3 => rfl

theorem emitLines_block (needsPrefix : Bool) (lines : List (List Char)) :
    emitLines .block needsPrefix lines = (lines.map blanked).flatten := by
  induction lines generalizing needsPrefix with
  | nil => rfl
  | cons line lines ih =>
    have hline : (if line = ['\n'] then ['\n'] else emitEscaped line .block) = blanked line := by
      split_ifs with h
      · rw [h]
        rfl
      · exact emitEscaped_block line
    rw [emitLines, hline, ih]
    cases needsPrefix <;> rfl

theorem flatten_lineRange (content : List Char) : (lineRange content).flatten = content := by
  induction content with
  | nil => rfl
  | cons c rest ih =>
    by_cases hc : c = '\n'
    · rw [lineRange, if_pos hc, List.flatten_cons, ih, List.singleton_append]
    · rw [lineRange, if_neg hc]
      cases h : lineRange rest with
      | nil => rw [← ih, h, List.flatten_singleton, List.flatten_nil]
      | cons line lines => rw [← ih, h, List.flatten_cons, List.flatten_cons, List.cons_append]

/-- No delimiter goes over the end of a line. -/
theorem flatten_blanked_lineRange (content : List Char) :
    ((lineRange content).map blanked).flatten = blanked content := by
  fun_induction blanked content with
  | case1 rest ih =>
    rw [← ih]
    cases h : lineRange rest with
    | nil => simp [lineRange, h, blanked]
    | cons line lines => simp [lineRange, h, blanked]
  | case2 c rest hne ih =>
    have hflatten := flatten_lineRange rest
    rw [← ih, lineRange]
    split_ifs with hc
    · rw [hc]
      rfl
    · cases h : lineRange rest with
      | nil => simp [blanked]
      | cons line lines =>
        rw [h] at hflatten
        have hline : blanked (c :: line) = c :: blanked line := by
          refine blanked.eq_2 _ _ fun more hstar hmore => ?_
          rw [hmore] at hflatten
          exact hne (more ++ lines.flatten) hstar hflatten.symm
        simp [hline]
  | case3 => rfl

/-- What a block comment has written after some strings. -/
theorem foldl_emit_block (strings : List (List Char)) (begins : Bool) (text : List Char) :
    ∃ begins', strings.foldl emit ⟨.block, begins, text⟩ =
      ⟨.block, begins', text ++ (strings.map blanked).flatten⟩ := by
  induction strings generalizing begins text with
  | nil => exact ⟨begins, by simp⟩
  | cons content strings ih =>
    obtain ⟨begins', hemit⟩ : ∃ begins', emit ⟨.block, begins, text⟩ content =
        ⟨.block, begins', text ++ blanked content⟩ := by
      rw [emit]
      split_ifs with hnil
      · exact ⟨begins, by rw [hnil, blanked, List.append_nil]⟩
      · exact ⟨_, by rw [emitLines_block, flatten_blanked_lineRange]⟩
    obtain ⟨begins'', hrest⟩ := ih begins' (text ++ blanked content)
    exact ⟨begins'', by simp [hemit, hrest]⟩

theorem comment_block (strings : List (List Char)) :
    comment .block strings = '/' :: '*' :: ((strings.map blanked).flatten ++ ['*', '/']) := by
  obtain ⟨begins, hfold⟩ := foldl_emit_block strings false ['/', '*']
  rw [comment, construct, hfold]
  rfl

theorem skip_comment_block (strings : List (List Char)) (after : List Char) :
    skip .between (splice (comment .block strings ++ after)) =
      skip .block (splice (strings.map blanked).flatten ++ '*' :: '/' :: splice after) := by
  rw [comment_block, List.cons_append, List.cons_append, splice_cons_of_ne (by decide),
    splice_cons_of_ne (by decide), List.append_assoc, splice_append fun _ => by simp]
  rw [List.cons_append, List.cons_append, splice_cons_of_ne (by decide),
    splice_cons_of_ne (by decide)]
  rfl

theorem contained_block_iff (strings : List (List Char)) :
    Contained .block strings ↔ Inside (splice (strings.map blanked).flatten) := by
  constructor
  · intro h
    have hskip := fun after => (skip_comment_block strings after).symm.trans (h after)
    exact inside_of_skip_block (hskip []) (hskip ['x'])
  · intro h after
    rw [skip_comment_block, skip_block h]

/-! ## Both kinds -/

/-- No line goes on behind a line comment, and a block comment stays inside. -/
def StaysInside : CommentKind → List (List Char) → Prop
  | .line, strings => ¬EndsInBackslash strings.flatten
  | .block, strings => Inside (splice (strings.map blanked).flatten)

end PTML
