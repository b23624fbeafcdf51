import Revng.Lib.PrefixedLines
import Revng.PTML.CommentBuilder

/-!
# Wrapped text stays in the comment

A newline of the text starts a new line of the comment only where the text before it fits.  If the
word before the newline is too long for a line then the word is printed as it is, together with the
newline, and what follows has neither indentation nor indicator.
-/

namespace PTML

open PrefixedLines

/-! ## Words -/

/-- The size of the last word of a text, where `n` characters of it came before. -/
def wordLength : ℕ → List Char → ℕ
  | n, [] => n
  | n, a :: text => if a = ' ' then wordLength 0 text else wordLength (n + 1) text

/-- A word that is followed by a newline fits in a line that has `size` characters already. -/
def wordsFit (wrapAt size : ℕ) : ℕ → List Char → Prop
  | _, [] => True
  | n, a :: text =>
      if a = '\n' then n + size < wrapAt ∧ wordsFit wrapAt size 0 text
      else if a = ' ' then wordsFit wrapAt size 0 text
      else wordsFit wrapAt size (n + 1) text

variable {wrapAt size : ℕ}

theorem wordLength_le (n : ℕ) (text : List Char) : wordLength n text ≤ n + text.length := by
  induction text generalizing n with
  | nil => exact Nat.le_refl _
  | cons a text ih =>
    rw [wordLength, List.length_cons]
    split_ifs
    · exact Nat.le_trans (ih 0) (by omega)
    · exact Nat.le_trans (ih (n + 1)) (by omega)

variable {text : List Char}

theorem wordLength_of_not_mem (n : ℕ) (h : ' ' ∉ text) : wordLength n text = n + text.length := by
  induction text generalizing n with
  | nil => rfl
  | cons a text ih =>
    obtain ⟨ha, h⟩ := not_or.1 (mt List.mem_cons.2 h)
    rw [wordLength, if_neg (Ne.symm ha), ih (n + 1) h, List.length_cons]
    omega

theorem wordsFit_of_not_mem (n : ℕ) (h : '\n' ∉ text) : wordsFit wrapAt size n text := by
  induction text generalizing n with
  | nil => trivial
  | cons a text ih =>
    obtain ⟨ha, h⟩ := not_or.1 (mt List.mem_cons.2 h)
    rw [wordsFit, if_neg (Ne.symm ha)]
    split_ifs
    · exact ih 0 h
    · exact ih (n + 1) h

theorem wordsFit_space (n : ℕ) (rest : List Char) (h : '\n' ∉ text) :
    wordsFit wrapAt size n (text ++ ' ' :: rest) ↔ wordsFit wrapAt size 0 rest := by
  induction text generalizing n with
  | nil => simp [wordsFit]
  | cons a text ih =>
    obtain ⟨ha, h⟩ := not_or.1 (mt List.mem_cons.2 h)
    rw [List.cons_append, wordsFit, if_neg (Ne.symm ha)]
    split_ifs
    · exact ih 0 h
    · exact ih (n + 1) h

theorem wordsFit_newline (n : ℕ) (rest : List Char) (h : '\n' ∉ text) :
    wordsFit wrapAt size n (text ++ '\n' :: rest) ↔
      wordLength n text + size < wrapAt ∧ wordsFit wrapAt size 0 rest := by
  induction text generalizing n with
  | nil => simp [wordsFit, wordLength]
  | cons a text ih =>
    obtain ⟨ha, h⟩ := not_or.1 (mt List.mem_cons.2 h)
    rw [List.cons_append, wordsFit, if_neg (Ne.symm ha), wordLength]
    split_ifs
    · exact ih 0 h
    · exact ih (n + 1) h

theorem lt_of_wordsFit {n : ℕ} (h : wordsFit wrapAt size n text) (hmem : '\n' ∈ text) :
    size < wrapAt := by
  obtain ⟨before, rest, rfl, hbefore⟩ := List.eq_append_cons_of_mem hmem
  exact Nat.lt_of_le_of_lt (Nat.le_add_left _ _) ((wordsFit_newline n rest hbefore).1 h).1

/-! ## Positions -/

variable {c : Char} {text : List Char} {i position : ℕ}

theorem find_eq_some (h : find c text = some i) :
    i < text.length ∧ text = text.take i ++ c :: text.drop (i + 1) ∧ c ∉ text.take i := by
  obtain ⟨hlt, heq, hbefore⟩ := List.findIdx?_eq_some_iff_getElem.1 h
  refine ⟨hlt, ?_, ?_⟩
  · rw [← of_decide_eq_true heq, List.getElem_cons_drop, List.take_append_drop]
  · intro hmem
    obtain ⟨j, hj, heq⟩ := List.getElem_of_mem hmem
    rw [List.getElem_take] at heq
    rw [List.length_take] at hj
    exact hbefore j (by omega) (decide_eq_true heq)

theorem find_eq_none : find c text = none ↔ c ∉ text := by
  rw [find, List.findIdx?_eq_none_iff]
  constructor
  · intro h hmem
    exact of_decide_eq_false (h c hmem) rfl
  · intro h a ha
    exact decide_eq_false fun heq => h (heq ▸ ha)

theorem find_append {taken : List Char} (h : c ∉ taken) (rest : List Char) :
    find c (taken ++ c :: rest) = some taken.length := by
  rw [find, List.findIdx?_append, ← find, find_eq_none.2 h]
  simp [List.findIdx?_cons]

theorem rfind_eq_some (h : rfind c text position = some i) :
    i < position ∧ i < text.length ∧ text = text.take i ++ c :: text.drop (i + 1) := by
  have hbelow (n : ℕ) (h : rfindBelow c text n = some i) : i < n ∧ text[i]? = some c := by
    induction n with
    | zero => cases h
    | succ n ih =>
      rw [rfindBelow] at h
      split_ifs at h with heq
      · cases h
        exact ⟨Nat.lt_succ_self _, heq⟩
      · exact ⟨Nat.lt_succ_of_lt (ih h).1, (ih h).2⟩
  obtain ⟨hlt, heq⟩ := hbelow _ h
  obtain ⟨hlength, heq⟩ := List.getElem?_eq_some_iff.1 heq
  refine ⟨by omega, hlength, ?_⟩
  rw [← heq, List.getElem_cons_drop, List.take_append_drop]

theorem sizeDifference_of_le {a b : ℕ} (ha : a < 2 ^ 64) (h : b ≤ a) :
    sizeDifference a b = a - b := by
  rw [sizeDifference]
  omega

namespace CommentBuilder

variable {b : CommentBuilder} {internalIndentation : ℕ} {type : DoxygenTokenType}
  {s s' : TokenState} {taken rest : List Char}

/-! ## Starts of lines -/

variable (b) in
/-- What every line has to start with. -/
def start : List Char := List.replicate b.indentation ' ' ++ b.indicator

variable (b) in
/-- The size of a line without text. -/
def startSize (internalIndentation : ℕ) : ℕ :=
  b.indentation + b.indicator.length + internalIndentation

theorem text_emplaceBack (l : DoxygenLine) (tag : DoxygenToken) :
    (l.emplaceBack tag).text = l.text ++ tag.value := by
  simp [DoxygenLine.emplaceBack, DoxygenLine.text]

theorem line_size (internalIndentation : ℕ) :
    (b.line internalIndentation).2 = b.startSize internalIndentation := by
  rw [line, startSize]
  split_ifs with h
  · rfl
  · rw [not_not.1 h]
    rfl

theorem line_text (hb : b.indicator ≠ []) (internalIndentation : ℕ) :
    (b.line internalIndentation).1.text =
      b.start ++ ' ' :: List.replicate internalIndentation ' ' := by
  rw [line, firstLine, if_pos hb, start]
  by_cases hindentation : b.indentation = 0 <;> by_cases hinternal : internalIndentation = 0 <;>
    simp [DoxygenLine.text, hindentation, hinternal]

theorem tags_ne_nil {l : DoxygenLine} (h : l.text ≠ []) : l.tags ≠ [] := by
  intro htags
  rw [DoxygenLine.text, htags] at h
  exact h rfl

/-- A printed line. -/
def printed (b : CommentBuilder) (body : List Char) : List Char := b.start ++ body ++ ['\n']

/-- A letter that is not left out where a line is cut. -/
def visible (a : Char) : Bool := a ≠ ' ' && a ≠ '\n'

/-! ## One round -/

/-- The line was printed with `taken` at its end, and `rest` is left for the next one. -/
structure Wraps (b : CommentBuilder) (internalIndentation : ℕ) (s s' : TokenState)
    (taken rest : List Char) : Prop where
  tagText : s'.tagText = rest
  flag : s'.wereTagsEmittedSinceLastBreak = false
  size : s'.currentSize = b.startSize internalIndentation
  resultLine : s'.resultLine = (b.line internalIndentation).1
  result : s'.result = s.result ++ [s.resultLine.text ++ taken ++ ['\n']]

/-- Where text that does not fit is cut. -/
inductive Cut (b : CommentBuilder) (s : TokenState) : List Char → List Char → Prop
  | lastSpace {taken rest : List Char} : s.tagText = taken ++ ' ' :: rest →
      taken.length < sizeDifference b.wrapAt s.currentSize → Cut b s taken rest
  | again : s.wereTagsEmittedSinceLastBreak = true → Cut b s [] s.tagText
  | firstSpace {taken rest : List Char} : s.wereTagsEmittedSinceLastBreak = false →
      s.tagText = taken ++ ' ' :: rest → ' ' ∉ taken → Cut b s taken rest
  | word : s.wereTagsEmittedSinceLastBreak = false → ' ' ∉ s.tagText → Cut b s s.tagText []

/-- What a round of the loop can do. -/
inductive Round (b : CommentBuilder) (type : DoxygenTokenType) (internalIndentation : ℕ)
    (s : TokenState) : Option TokenState → Prop
  | rejected {taken rest : List Char} : s.tagText = taken ++ '\n' :: rest → type ≠ .untagged →
      Round b type internalIndentation s none
  | newline {taken rest : List Char} {s' : TokenState} : s.tagText = taken ++ '\n' :: rest →
      '\n' ∉ taken → taken.length + s.currentSize < b.wrapAt → type = .untagged →
      Wraps b internalIndentation s s' taken rest →
      Round b type internalIndentation s (some s')
  | fits : '\n' ∉ s.tagText → s.tagText.length + s.currentSize < b.wrapAt →
      Round b type internalIndentation s (some { s with
        resultLine := s.resultLine.emplaceBack ⟨.untagged, s.tagText⟩
        currentSize := s.currentSize + s.tagText.length
        tagText := []
        wereTagsEmittedSinceLastBreak := true })
  | wraps {taken rest : List Char} {s' : TokenState} :
      (∀ before after, s.tagText = before ++ '\n' :: after → '\n' ∉ before →
        b.wrapAt ≤ before.length + s.currentSize) →
      b.wrapAt ≤ s.tagText.length + s.currentSize → Cut b s taken rest →
      Wraps b internalIndentation s s' taken rest →
      Round b type internalIndentation s (some s')

theorem breakLine_wraps {resultLine : DoxygenLine} (taken rest : List Char)
    (hline : resultLine.tags ≠ []) (htext : resultLine.text = s.resultLine.text ++ taken) :
    ∃ s', b.breakLine internalIndentation { s with resultLine, tagText := rest } = some s' ∧
      Wraps b internalIndentation s s' taken rest := by
  rw [breakLine, DoxygenLine.toString, if_neg hline]
  exact ⟨_, rfl, rfl, rfl, line_size _, rfl, by rw [← htext]⟩

theorem breakLine_emplaceBack_wraps (type : DoxygenTokenType) (taken rest : List Char) :
    ∃ s', b.breakLine internalIndentation { s with
        resultLine := s.resultLine.emplaceBack ⟨type, taken⟩
        tagText := rest } = some s' ∧
      Wraps b internalIndentation s s' taken rest :=
  breakLine_wraps taken rest (List.append_ne_nil_of_right_ne_nil _ (List.cons_ne_nil _ _))
    (text_emplaceBack _ _)

theorem not_newLine? (h : b.newLine? s = none) {before after : List Char}
    (heq : s.tagText = before ++ '\n' :: after) (hbefore : '\n' ∉ before) :
    b.wrapAt ≤ before.length + s.currentSize := by
  rw [newLine?, heq, find_append hbefore, Option.filter_eq_none_iff] at h
  exact Nat.le_of_not_lt fun hlt => h _ rfl (decide_eq_true hlt)

theorem newLine?_eq_some {position : ℕ} (h : b.newLine? s = some position) :
    find '\n' s.tagText = some position ∧ position + s.currentSize < b.wrapAt := by
  rw [newLine?, Option.filter_eq_some_iff] at h
  exact ⟨h.1, of_decide_eq_true h.2⟩

/-- The text up to the newline is printed. -/
theorem tokenStep_newline (internalIndentation : ℕ) {position : ℕ}
    (hline : s.resultLine.tags ≠ []) (h : b.newLine? s = some position) (htype : type = .untagged) :
    ∃ s', b.tokenStep type internalIndentation s = some s' ∧
      Wraps b internalIndentation s s' (s.tagText.take position)
        (s.tagText.drop (position + 1)) := by
  by_cases hzero : position = 0
  · have hstep : b.tokenStep type internalIndentation s = b.breakLine internalIndentation
        { s with tagText := s.tagText.drop (position + 1) } := by
      simp [tokenStep, h, htype, hzero]
    rw [hstep]
    exact breakLine_wraps _ _ hline (by rw [hzero, List.take_zero, List.append_nil])
  · have hstep : b.tokenStep type internalIndentation s = b.breakLine internalIndentation
        { s with
          resultLine := s.resultLine.emplaceBack ⟨.untagged, s.tagText.take position⟩
          tagText := s.tagText.drop (position + 1) } := by
      simp [tokenStep, h, htype, hzero]
    rw [hstep]
    exact breakLine_emplaceBack_wraps _ _ _

/-- The text that does not fit is cut. -/
theorem tokenStep_cut (type : DoxygenTokenType) (internalIndentation : ℕ)
    (hline : s.resultLine.tags ≠ []) (h : b.newLine? s = none)
    (hfits : ¬s.tagText.length + s.currentSize < b.wrapAt) :
    ∃ s' taken rest, b.tokenStep type internalIndentation s = some s' ∧ Cut b s taken rest ∧
      Wraps b internalIndentation s s' taken rest := by
  simp only [tokenStep, h, if_neg hfits]
  split
  next lastSpace hlastSpace =>
    obtain ⟨hlt, hlength, heq⟩ := rfind_eq_some hlastSpace
    obtain ⟨s', hs', hwraps⟩ := breakLine_emplaceBack_wraps (b := b) (s := s) type
      (s.tagText.take lastSpace) (s.tagText.drop (lastSpace + 1))
    refine ⟨s', _, _, hs', .lastSpace heq ?_, hwraps⟩
    rwa [List.length_take_of_le (Nat.le_of_lt hlength)]
  next =>
    split_ifs with hflag
    · obtain ⟨s', hs', hwraps⟩ := breakLine_wraps (b := b) (s := s) [] s.tagText hline
        (List.append_nil _).symm
      exact ⟨s', _, _, hs', .again hflag, hwraps⟩
    · rw [Bool.not_eq_true] at hflag
      cases hfind : find ' ' s.tagText with
      | none =>
        obtain ⟨s', hs', hwraps⟩ := breakLine_emplaceBack_wraps (b := b) (s := s) type
          s.tagText []
        refine ⟨s', _, _, ?_, .word hflag (find_eq_none.1 hfind), hwraps⟩
        rw [Option.getD_none, List.take_length, List.drop_of_length_le (Nat.le_succ _)]
        exact hs'
      | some firstSpace =>
        obtain ⟨-, heq, hbefore⟩ := find_eq_some hfind
        obtain ⟨s', hs', hwraps⟩ := breakLine_emplaceBack_wraps (b := b) (s := s) type
          (s.tagText.take firstSpace) (s.tagText.drop (firstSpace + 1))
        exact ⟨s', _, _, hs', .firstSpace hflag heq hbefore, hwraps⟩

variable (b type internalIndentation) in
theorem round_tokenStep (hline : s.resultLine.tags ≠ []) :
    Round b type internalIndentation s (b.tokenStep type internalIndentation s) := by
  cases hnewLine : b.newLine? s with
  | some position =>
    obtain ⟨hfind, hfits⟩ := newLine?_eq_some hnewLine
    obtain ⟨hlt, heq, hbefore⟩ := find_eq_some hfind
    by_cases htype : type = .untagged
    · obtain ⟨s', hs', hwraps⟩ := tokenStep_newline internalIndentation hline hnewLine htype
      rw [hs']
      refine .newline heq hbefore ?_ htype hwraps
      rwa [List.length_take_of_le (Nat.le_of_lt hlt)]
    · rw [tokenStep, hnewLine]
      simp only [ne_eq, htype, not_false_eq_true, if_true]
      exact .rejected heq htype
  | none =>
    by_cases hfits : s.tagText.length + s.currentSize < b.wrapAt
    · rw [tokenStep, hnewLine]
      simp only [if_pos hfits]
      refine .fits (fun hmem => ?_) hfits
      obtain ⟨before, after, heq, hbefore⟩ := List.eq_append_cons_of_mem hmem
      have hoverflow := not_newLine? hnewLine heq hbefore
      rw [heq, List.length_append, List.length_cons] at hfits
      omega
    · obtain ⟨s', taken, rest, hs', hcut, hwraps⟩ :=
        tokenStep_cut type internalIndentation hline hnewLine hfits
      rw [hs']
      exact .wraps (fun _ _ => not_newLine? hnewLine) (Nat.le_of_not_lt hfits) hcut hwraps

/-! ## Newlines in lines -/

/-- The token can be wrapped in any line that starts with the internal indentation. -/
def Allowed (b : CommentBuilder) (internalIndentation : ℕ) (t : DoxygenToken) : Prop :=
  wordsFit b.wrapAt (b.startSize internalIndentation) 0 t.value ∧
    ('\n' ∈ t.value → t.type = .untagged)

/-- Every line that was printed has only the newline at its end. -/
def Clean (s : TokenState) : Prop :=
  (∀ l ∈ s.result, l.count '\n' = 1) ∧ '\n' ∉ s.resultLine.text

/-- The tokens can be wrapped after a line that is not full yet.  The first newline is found either
in this line or at the end of a word that fits in the next one. -/
def tokensFit (b : CommentBuilder) (internalIndentation : ℕ) : ℕ → List DoxygenToken → Prop
  | _, [] => True
  | size, t :: tags =>
      match find '\n' t.value with
      | none => tokensFit b internalIndentation (size + t.value.length) tags
      | some position =>
          t.type = .untagged ∧
            (position + size < b.wrapAt ∨
              wordLength 0 (t.value.take position) + b.startSize internalIndentation < b.wrapAt) ∧
            wordsFit b.wrapAt (b.startSize internalIndentation) 0 (t.value.drop (position + 1)) ∧
            ∀ t ∈ tags, Allowed b internalIndentation t

/-- No line has text that does not fit, other than one that was not wrapped yet. -/
structure Ready (b : CommentBuilder) (internalIndentation : ℕ) (s : TokenState) : Prop where
  tags : s.resultLine.tags ≠ []
  empty : s.wereTagsEmittedSinceLastBreak = false →
    s.currentSize ≤ b.startSize internalIndentation
  text : s.wereTagsEmittedSinceLastBreak = true → s.currentSize < b.wrapAt

/-- What the lines say, together with the text that is left. -/
def Says (b : CommentBuilder) (s : TokenState) (said : List Char) : Prop :=
  ∃ (bodies : List (List Char)) (body : List Char),
    s.result = bodies.map b.printed ∧ s.resultLine.text = b.start ++ body ∧
    (bodies.flatten ++ body ++ s.tagText).filter visible = said ∧
    (s.wereTagsEmittedSinceLastBreak = false → ∀ a ∈ body, a = ' ')

variable {t : DoxygenToken}

theorem allowed_of_not_mem (h : '\n' ∉ t.value) : Allowed b internalIndentation t :=
  ⟨wordsFit_of_not_mem 0 h, fun hmem => absurd hmem h⟩

theorem tokensFit_of_not_mem (h : '\n' ∉ t.value) (size : ℕ) (tags : List DoxygenToken) :
    tokensFit b internalIndentation size (t :: tags) ↔
      tokensFit b internalIndentation (size + t.value.length) tags := by
  rw [tokensFit, find_eq_none.2 h]

theorem tokensFit_newline (heq : t.value = taken ++ '\n' :: rest) (h : '\n' ∉ taken) (size : ℕ)
    (tags : List DoxygenToken) :
    tokensFit b internalIndentation size (t :: tags) ↔
      t.type = .untagged ∧
        (taken.length + size < b.wrapAt ∨
          wordLength 0 taken + b.startSize internalIndentation < b.wrapAt) ∧
        wordsFit b.wrapAt (b.startSize internalIndentation) 0 rest ∧
        ∀ t ∈ tags, Allowed b internalIndentation t := by
  rw [tokensFit, heq, find_append h]
  simp

/-- In a line that is full, or as long as one without text, there is no better place for a word. -/
theorem tokensFit_iff {size : ℕ} (tags : List DoxygenToken)
    (h : b.startSize internalIndentation ≤ size ∨ b.wrapAt ≤ size) :
    tokensFit b internalIndentation size tags ↔ ∀ t ∈ tags, Allowed b internalIndentation t := by
  induction tags generalizing size with
  | nil => simp [tokensFit]
  | cons t tags ih =>
    rw [List.forall_mem_cons]
    by_cases hmem : '\n' ∈ t.value
    · obtain ⟨taken, rest, heq, hnot⟩ := List.eq_append_cons_of_mem hmem
      have hlength := wordLength_le 0 taken
      have hplace : (taken.length + size < b.wrapAt ∨
          wordLength 0 taken + b.startSize internalIndentation < b.wrapAt) ↔
          wordLength 0 taken + b.startSize internalIndentation < b.wrapAt := by omega
      rw [tokensFit_newline heq hnot, hplace, Allowed, heq, wordsFit_newline 0 _ hnot]
      simp only [List.mem_append, List.mem_cons_self, or_true, true_implies]
      tauto
    · rw [tokensFit_of_not_mem hmem, and_iff_right (allowed_of_not_mem hmem)]
      exact ih (by omega)

theorem tokensFit_cons_of_overflow {tags : List DoxygenToken} {size : ℕ}
    (hoverflow : ∀ before after, t.value = before ++ '\n' :: after → '\n' ∉ before →
      b.wrapAt ≤ before.length + size) (hlong : b.wrapAt ≤ t.value.length + size) :
    tokensFit b internalIndentation size (t :: tags) ↔
      Allowed b internalIndentation t ∧ ∀ t ∈ tags, Allowed b internalIndentation t := by
  by_cases hmem : '\n' ∈ t.value
  · obtain ⟨taken, rest, heq, hnot⟩ := List.eq_append_cons_of_mem hmem
    rw [tokensFit_newline heq hnot, or_iff_right (Nat.not_lt.2 (hoverflow taken rest heq hnot)),
      Allowed, heq, wordsFit_newline 0 _ hnot]
    simp only [List.mem_append, List.mem_cons_self, or_true, true_implies]
    tauto
  · rw [tokensFit_of_not_mem hmem, and_iff_right (allowed_of_not_mem hmem)]
    exact tokensFit_iff tags (.inr (Nat.add_comm _ _ ▸ hlong))

/-- Text is cut at the newline only if it is not allowed. -/
theorem cut_allowed (hready : Ready b internalIndentation s)
    (hoverflow : ∀ before after, s.tagText = before ++ '\n' :: after → '\n' ∉ before →
      b.wrapAt ≤ before.length + s.currentSize)
    (hcut : Cut b s taken rest) :
    '\n' ∉ taken ∧ Allowed b internalIndentation ⟨type, rest⟩ ↔
      Allowed b internalIndentation ⟨type, s.tagText⟩ := by
  have hspace (heq : s.tagText = taken ++ ' ' :: rest)
      (hnot : '\n' ∈ taken → ¬Allowed b internalIndentation ⟨type, s.tagText⟩) :
      '\n' ∉ taken ∧ Allowed b internalIndentation ⟨type, rest⟩ ↔
        Allowed b internalIndentation ⟨type, s.tagText⟩ := by
    by_cases hmem : '\n' ∈ taken
    · exact iff_of_false (fun h => h.1 hmem) (hnot hmem)
    · rw [Allowed, Allowed, heq, wordsFit_space 0 rest hmem]
      simp [hmem]
  cases hcut with
  | lastSpace heq hlt =>
    refine hspace heq fun hmem hallowed => ?_
    have hfits := lt_of_wordsFit hallowed.1 (heq ▸ List.mem_append_left _ hmem)
    obtain ⟨before, after, rfl, hbefore⟩ := List.eq_append_cons_of_mem hmem
    have hlong := hoverflow before (after ++ ' ' :: rest) (by rw [heq]; simp) hbefore
    have hsize : s.currentSize ≤ b.wrapAt := by
      cases hflag : s.wereTagsEmittedSinceLastBreak with
      | true => exact Nat.le_of_lt (hready.text hflag)
      | false => exact Nat.le_trans (hready.empty hflag) (Nat.le_of_lt hfits)
    rw [sizeDifference_of_le b.wrapAt_lt hsize, List.length_append, List.length_cons] at hlt
    omega
  | again => simp
  | firstSpace hflag heq hword =>
    refine hspace heq fun hmem hallowed => ?_
    obtain ⟨before, after, rfl, hbefore⟩ := List.eq_append_cons_of_mem hmem
    rw [List.append_assoc, List.cons_append] at heq
    have hfits := hallowed.1
    rw [heq, wordsFit_newline 0 _ hbefore,
      wordLength_of_not_mem 0 fun h => hword (List.mem_append_left _ h)] at hfits
    have hlong := hoverflow before _ heq hbefore
    have hsize := hready.empty hflag
    omega
  | word hflag hword =>
    refine ⟨fun h => allowed_of_not_mem h.1, fun hallowed => ⟨fun hmem => ?_, ?_⟩⟩
    · obtain ⟨before, after, heq, hbefore⟩ := List.eq_append_cons_of_mem hmem
      have hfits := hallowed.1
      rw [heq, wordsFit_newline 0 _ hbefore,
        wordLength_of_not_mem 0 fun h => hword (heq ▸ List.mem_append_left _ h)] at hfits
      have hlong := hoverflow before _ heq hbefore
      have hsize := hready.empty hflag
      omega
    · exact allowed_of_not_mem List.not_mem_nil

section

variable (hindicator : b.indicator ≠ []) (hnewline : '\n' ∉ b.indicator)

include hindicator in
theorem Wraps.ready (h : Wraps b internalIndentation s s' taken rest) :
    Ready b internalIndentation s' := by
  refine ⟨tags_ne_nil ?_, fun _ => Nat.le_of_eq h.size, fun hflag => ?_⟩
  · rw [h.resultLine, line_text hindicator]
    exact List.append_ne_nil_of_right_ne_nil _ (List.cons_ne_nil _ _)
  · rw [h.flag] at hflag
    cases hflag

include hnewline in
theorem not_mem_start : '\n' ∉ b.start := by
  simp [start, hnewline]

include hindicator hnewline in
theorem Wraps.clean_iff (h : Wraps b internalIndentation s s' taken rest) :
    Clean s' ↔ Clean s ∧ '\n' ∉ taken := by
  have hline : '\n' ∉ (b.line internalIndentation).1.text := by
    simp [line_text hindicator, not_mem_start hnewline]
  have hcount : (s.resultLine.text ++ taken ++ ['\n']).count '\n' = 1 ↔
      '\n' ∉ s.resultLine.text ∧ '\n' ∉ taken := by
    rw [List.count_append, List.count_append, List.count_singleton_self, ← List.count_eq_zero,
      ← List.count_eq_zero]
    omega
  rw [Clean, Clean, h.result, h.resultLine, List.forall_mem_append, List.forall_mem_singleton,
    hcount]
  simp only [hline, not_false_eq_true, and_true, and_assoc]

/-! ## Runs of the loop -/

include hindicator in
/-- A round keeps the state ready, and a line stays at least as long as one without text. -/
theorem ready_round (h : Round b type internalIndentation s (some s')) :
    Ready b internalIndentation s' ∧
      (b.startSize internalIndentation ≤ s.currentSize →
        b.startSize internalIndentation ≤ s'.currentSize) := by
  cases h with
  | newline _ _ _ _ hwraps =>
    exact ⟨hwraps.ready hindicator, fun _ => Nat.le_of_eq hwraps.size.symm⟩
  | fits _ hfits =>
    refine ⟨⟨?_, fun h => absurd h (by simp), fun _ => ?_⟩, fun h => ?_⟩
    · exact List.append_ne_nil_of_right_ne_nil _ (List.cons_ne_nil _ _)
    · exact Nat.add_comm _ _ ▸ hfits
    · exact Nat.le_add_right_of_le h
  | wraps _ _ _ hwraps =>
    exact ⟨hwraps.ready hindicator, fun _ => Nat.le_of_eq hwraps.size.symm⟩

/-- Text that fits has no newline to print. -/
theorem clean_fits_iff (h : '\n' ∉ s.tagText) (size : ℕ) (flag : Bool) :
    Clean { s with
      resultLine := s.resultLine.emplaceBack ⟨.untagged, s.tagText⟩, currentSize := size
      tagText := [], wereTagsEmittedSinceLastBreak := flag } ↔ Clean s := by
  simp only [Clean, text_emplaceBack, List.mem_append, h, or_false]

include hindicator hnewline in
theorem clean_round_iff {result : Option TokenState} (hready : Ready b internalIndentation s)
    (hsize : b.startSize internalIndentation ≤ s.currentSize)
    (h : Round b type internalIndentation s result) :
    (∃ s', result = some s' ∧ Clean s' ∧ Allowed b internalIndentation ⟨type, s'.tagText⟩) ↔
      Clean s ∧ Allowed b internalIndentation ⟨type, s.tagText⟩ := by
  cases h with
  | rejected heq htype =>
    refine iff_of_false (fun ⟨_, h, _⟩ => nomatch h) fun h => htype (h.2.2 ?_)
    exact heq ▸ List.mem_append_right _ List.mem_cons_self
  | @newline taken rest s' heq hnot hfits htype hwraps =>
    have hlength := wordLength_le 0 taken
    have hword : wordLength 0 taken + b.startSize internalIndentation < b.wrapAt := by omega
    simp only [Option.some.injEq, exists_eq_left', hwraps.clean_iff hindicator hnewline,
      hwraps.tagText, Allowed, heq, wordsFit_newline 0 _ hnot, hnot, hword, htype,
      not_false_eq_true, and_true, true_and, implies_true]
  | fits hnot hfits =>
    simp only [Option.some.injEq, exists_eq_left', clean_fits_iff hnot]
    exact and_congr_right fun _ =>
      iff_of_true (allowed_of_not_mem List.not_mem_nil) (allowed_of_not_mem hnot)
  | wraps hoverflow _ hcut hwraps =>
    simp only [Option.some.injEq, exists_eq_left', hwraps.clean_iff hindicator hnewline,
      hwraps.tagText, and_assoc, cut_allowed hready hoverflow hcut]

include hindicator hnewline in
/-- A token that starts in a line that is at least as long as one without text. -/
theorem clean_tokenLoop_iff (type : DoxygenTokenType) (hready : Ready b internalIndentation s)
    (hsize : b.startSize internalIndentation ≤ s.currentSize) :
    ((∃ s', b.tokenLoop type internalIndentation s = some s' ∧ Clean s') ↔
      Clean s ∧ Allowed b internalIndentation ⟨type, s.tagText⟩) ∧
    ∀ s', b.tokenLoop type internalIndentation s = some s' → Ready b internalIndentation s' ∧
      b.startSize internalIndentation ≤ s'.currentSize := by
  fun_induction tokenLoop b type internalIndentation s with
  | case1 s hempty =>
    simp only [Option.some.injEq, exists_eq_left', hempty]
    refine ⟨(and_iff_left (allowed_of_not_mem List.not_mem_nil)).symm, ?_⟩
    rintro s' rfl
    exact ⟨hready, hsize⟩
  | case2 s hne hnone =>
    have hround := clean_round_iff hindicator hnewline hready hsize
      (round_tokenStep b internalIndentation type hready.tags)
    rw [hnone] at hround
    simpa using hround
  | case3 s hne s' hs' ih =>
    have hround := round_tokenStep b internalIndentation type hready.tags
    rw [hs'] at hround
    obtain ⟨hready', hsize'⟩ := ready_round hindicator hround
    obtain ⟨hclean, hnext⟩ := ih hready' (hsize' hsize)
    refine ⟨hclean.trans ?_, hnext⟩
    rw [← clean_round_iff hindicator hnewline hready hsize hround]
    simp

include hindicator hnewline in
theorem clean_tokens_iff (tags : List DoxygenToken) (hready : Ready b internalIndentation s)
    (hsize : b.startSize internalIndentation ≤ s.currentSize) :
    (∃ s', tags.foldlM (b.token internalIndentation) s = some s' ∧ Clean s') ↔
      Clean s ∧ ∀ t ∈ tags, Allowed b internalIndentation t := by
  induction tags generalizing s with
  | nil => simp
  | cons t tags ih =>
    obtain ⟨hclean, hnext⟩ := clean_tokenLoop_iff hindicator hnewline t.type
      (s := { s with tagText := t.value }) ⟨hready.tags, hready.empty, hready.text⟩ hsize
    rw [List.foldlM_cons, token, List.forall_mem_cons, ← and_assoc]
    change _ ↔ (Clean { s with tagText := t.value } ∧ _) ∧ _
    rw [← hclean]
    cases hloop : b.tokenLoop t.type internalIndentation { s with tagText := t.value } with
    | none => simp
    | some s' =>
      obtain ⟨hready', hsize'⟩ := hnext s' hloop
      simpa using ih hready' hsize'

include hindicator hnewline in
/-- Tokens in the first line. -/
theorem clean_line_iff (tags : List DoxygenToken) (hready : Ready b internalIndentation s) :
    (∃ s', tags.foldlM (b.token internalIndentation) s = some s' ∧ Clean s') ↔
      Clean s ∧ tokensFit b internalIndentation s.currentSize tags := by
  induction tags generalizing s with
  | nil => simp [tokensFit]
  | cons t tags ih =>
    rw [List.foldlM_cons, token]
    have hs : Ready b internalIndentation { s with tagText := t.value } :=
      ⟨hready.tags, hready.empty, hready.text⟩
    have hlater {s' : TokenState} (h : Ready b internalIndentation s')
        (hsize : b.startSize internalIndentation ≤ s'.currentSize) :=
      clean_tokens_iff hindicator hnewline (⟨t.type, s'.tagText⟩ :: tags) h hsize
    simp only [List.foldlM_cons, token, List.forall_mem_cons] at hlater
    by_cases hempty : t.value = []
    · have hnot : '\n' ∉ t.value := by simp [hempty]
      rw [tokenLoop_nil _ _ hempty, tokensFit_of_not_mem hnot, hempty]
      exact ih ⟨hready.tags, hready.empty, hready.text⟩
    rw [tokenLoop_eq_bind _ _ hempty]
    have hround := round_tokenStep b internalIndentation t.type hs.tags
    generalize b.tokenStep t.type internalIndentation { s with tagText := t.value } = result
      at hround
    cases hround with
    | rejected heq htype =>
      obtain ⟨before, after, heq, hnot⟩ :=
        List.eq_append_cons_of_mem (heq ▸ List.mem_append_right _ List.mem_cons_self)
      rw [tokensFit_newline heq hnot]
      exact iff_of_false (fun ⟨_, h, _⟩ => nomatch h) fun h => htype h.2.1
    | @newline taken rest s' heq hnot hfits htype hwraps =>
      refine (hlater (hwraps.ready hindicator) (Nat.le_of_eq hwraps.size.symm)).trans ?_
      rw [hwraps.clean_iff hindicator hnewline, tokensFit_newline heq hnot,
        and_iff_left hnot, hwraps.tagText, Allowed]
      simp only [htype, hfits, implies_true, and_true, true_or, true_and]
      rfl
    | fits hnot hfits =>
      rw [Option.bind_some, tokenLoop_nil _ _ rfl, tokensFit_of_not_mem hnot]
      have hround : Round b t.type internalIndentation _ (some _) := .fits hnot hfits
      refine (ih (ready_round hindicator hround).1).trans ?_
      rw [clean_fits_iff hnot]
      rfl
    | wraps hoverflow hlong hcut hwraps =>
      refine (hlater (hwraps.ready hindicator) (Nat.le_of_eq hwraps.size.symm)).trans ?_
      rw [hwraps.clean_iff hindicator hnewline, hwraps.tagText, ← and_assoc,
        and_assoc (b := _ ∉ _), cut_allowed hs hoverflow hcut, and_assoc,
        tokensFit_cons_of_overflow hoverflow hlong]
      rfl

/-! ## Letters in lines -/

include hindicator in
theorem start_ne_nil : b.start ≠ [] := List.append_ne_nil_of_right_ne_nil _ hindicator

theorem cut_visible (h : Cut b s taken rest) :
    (taken ++ rest).filter visible = s.tagText.filter visible := by
  cases h with
  | lastSpace heq _ => simp [heq, visible]
  | again _ => rfl
  | firstSpace _ heq _ => simp [heq, visible]
  | word _ _ => rw [List.append_nil]

variable {said : List Char}

include hindicator in
theorem Says.tags (h : Says b s said) : s.resultLine.tags ≠ [] := by
  obtain ⟨bodies, body, -, htext, -⟩ := h
  refine tags_ne_nil ?_
  rw [htext]
  exact List.append_ne_nil_of_left_ne_nil (start_ne_nil hindicator) _

include hindicator in
theorem Wraps.says (h : Wraps b internalIndentation s s' taken rest)
    (hvisible : (taken ++ rest).filter visible = s.tagText.filter visible) (hs : Says b s said) :
    Says b s' said := by
  obtain ⟨bodies, body, hresult, htext, hsaid, -⟩ := hs
  refine ⟨bodies ++ [body ++ taken], ' ' :: List.replicate internalIndentation ' ',
    ?_, ?_, ?_, ?_⟩
  · rw [h.result, hresult, htext, List.map_append, List.map_singleton, printed,
      List.append_assoc _ body taken]
  · rw [h.resultLine, line_text hindicator]
  · have hblank : (' ' :: List.replicate internalIndentation ' ').filter visible = [] := by
      rw [← List.replicate_succ, List.filter_replicate_of_neg (by simp [visible])]
    rw [List.filter_append] at hvisible
    rw [h.tagText, ← hsaid, List.flatten_append, List.flatten_singleton]
    simp only [List.filter_append, hblank, List.nil_append, List.append_assoc, hvisible]
  · intro _ a ha
    rcases List.mem_cons.1 ha with rfl | ha
    · rfl
    · exact List.eq_of_mem_replicate ha

include hindicator in
theorem says_round (h : Round b type internalIndentation s (some s')) (hs : Says b s said) :
    Says b s' said := by
  cases h with
  | newline heq _ _ _ hwraps =>
    refine hwraps.says hindicator ?_ hs
    simp [heq, visible]
  | fits _ _ =>
    obtain ⟨bodies, body, hresult, htext, hsaid, -⟩ := hs
    refine ⟨bodies, body ++ s.tagText, hresult, ?_, ?_, fun h => nomatch h⟩
    · rw [text_emplaceBack, htext, List.append_assoc]
    · rw [← hsaid, List.append_nil, List.append_assoc]
  | wraps _ _ hcut hwraps => exact hwraps.says hindicator (cut_visible hcut) hs

include hindicator in
theorem says_tokenLoop (hs : Says b s said) (h : b.tokenLoop type internalIndentation s = some s') :
    Says b s' said ∧ s'.tagText = [] := by
  fun_induction tokenLoop b type internalIndentation s with
  | case1 s hempty =>
    cases h
    exact ⟨hs, hempty⟩
  | case2 s hne hnone => cases h
  | case3 s hne s₁ hs₁ ih =>
    have hround := round_tokenStep b internalIndentation type (hs.tags hindicator)
    rw [hs₁] at hround
    exact ih (says_round hindicator hround hs) h

include hindicator in
theorem says_tokens (tags : List DoxygenToken) (hs : Says b s said) (hempty : s.tagText = [])
    (h : tags.foldlM (b.token internalIndentation) s = some s') :
    Says b s' (said ++ (tags.flatMap DoxygenToken.value).filter visible) ∧ s'.tagText = [] := by
  induction tags generalizing s said with
  | nil =>
    cases h
    rw [List.flatMap_nil, List.filter_nil, List.append_nil]
    exact ⟨hs, hempty⟩
  | cons t tags ih =>
    rw [List.foldlM_cons] at h
    obtain ⟨s₁, hs₁, h⟩ := Option.bind_eq_some_iff.1 h
    have hstart : Says b { s with tagText := t.value } (said ++ t.value.filter visible) := by
      obtain ⟨bodies, body, hresult, htext, hsaid, hflag⟩ := hs
      refine ⟨bodies, body, hresult, htext, ?_, hflag⟩
      rw [List.filter_append, ← hsaid, hempty, List.append_nil]
    obtain ⟨hheld, hempty'⟩ := says_tokenLoop hindicator hstart hs₁
    rw [List.flatMap_cons, List.filter_append, ← List.append_assoc]
    exact ih hheld hempty' h

include hnewline in
theorem count_printed (body : List Char) : (b.printed body).count '\n' = 1 ↔ '\n' ∉ body := by
  rw [printed, List.count_append, List.count_append, List.count_singleton_self,
    List.count_eq_zero_of_not_mem (not_mem_start hnewline), ← List.count_eq_zero]
  omega

/-! ## Lines of a comment -/

/-- The line is printed as lines of the comment that say the same, and these have no newlines inside
exactly if the tokens fit. -/
def PrintsInside (b : CommentBuilder) (l : DoxygenLine) (result : List (List Char)) : Prop :=
  ∃ bodies : List (List Char), result = bodies.map b.printed ∧
    bodies.flatten.filter visible = l.text.filter visible ∧
    ((∀ body ∈ bodies, '\n' ∉ body) ↔
      tokensFit b l.internalIndentation (b.startSize 0) l.tags)

include hindicator in
theorem line_tags (internalIndentation : ℕ) : (b.line internalIndentation).1.tags ≠ [] :=
  tags_ne_nil (line_text hindicator internalIndentation ▸
    List.append_ne_nil_of_right_ne_nil _ (List.cons_ne_nil _ _))

include hindicator in
theorem emitLine_nil (internalIndentation : ℕ) :
    ∃ result, b.emitLine ⟨[], internalIndentation⟩ = some result ∧
      PrintsInside b ⟨[], internalIndentation⟩ result := by
  refine ⟨[b.printed [' ']], ?_, [[' ']], rfl, rfl, ?_⟩
  · simp [emitLine, DoxygenLine.toString, line_tags hindicator, line_text hindicator, printed]
  · simp [tokensFit]

variable (b) in
/-- The state before the first token of a line. -/
def lineStart : TokenState := ⟨[], (b.line 0).1, (b.line 0).2, false, []⟩

/-- The line that is left after the last token is printed if there is text in it. -/
theorem emitLine_eq {l : DoxygenLine} (hl : l.tags ≠ []) :
    b.emitLine l = (l.tags.foldlM (b.token l.internalIndentation) b.lineStart).bind fun s =>
      if s.wereTagsEmittedSinceLastBreak then
        (s.resultLine.toString).map fun text => s.result ++ [text]
      else some s.result := by
  simp [emitLine, hl, lineStart, Option.map_eq_bind]

include hindicator in
theorem says_lineStart : Says b b.lineStart [] :=
  ⟨[], [' '], rfl, line_text hindicator 0, rfl, fun _ _ => List.mem_singleton.1⟩

include hnewline in
theorem clean_iff_of_says {bodies : List (List Char)} {body : List Char}
    (hresult : s.result = bodies.map b.printed) (htext : s.resultLine.text = b.start ++ body) :
    Clean s ↔ ∀ body' ∈ bodies ++ [body], '\n' ∉ body' := by
  rw [Clean, hresult, htext, List.forall_mem_map, List.forall_mem_append, List.forall_mem_singleton]
  simp only [count_printed hnewline, List.mem_append, not_mem_start hnewline, false_or]

include hindicator hnewline in
theorem emitLine_cons {l : DoxygenLine} (hl : l.tags ≠ []) :
    (b.emitLine l = none → ¬tokensFit b l.internalIndentation (b.startSize 0) l.tags) ∧
    ∀ result, b.emitLine l = some result → PrintsInside b l result := by
  have hsize : b.lineStart.currentSize = b.startSize 0 := line_size 0
  have hready : Ready b l.internalIndentation b.lineStart :=
    ⟨line_tags hindicator 0, fun _ => hsize ▸ Nat.le_add_right _ _, fun h => by cases h⟩
  have hclean : Clean b.lineStart := by
    simp [Clean, lineStart, line_text hindicator, not_mem_start hnewline]
  have hfit := clean_line_iff hindicator hnewline l.tags hready
  rw [and_iff_right hclean, hsize] at hfit
  rw [emitLine_eq hl, ← hfit]
  cases hs : l.tags.foldlM (b.token l.internalIndentation) b.lineStart with
  | none => simp
  | some s =>
    obtain ⟨⟨bodies, body, hresult, htext, hsaid, hflag⟩, hempty⟩ :=
      says_tokens hindicator l.tags (says_lineStart hindicator) rfl hs
    have htags := Says.tags hindicator ⟨bodies, body, hresult, htext, hsaid, hflag⟩
    have hiff := clean_iff_of_says hnewline hresult htext
    rw [hs] at hfit
    simp only [Option.some.injEq, exists_eq_left'] at hfit
    rw [hempty, List.append_nil, List.nil_append] at hsaid
    cases hemitted : s.wereTagsEmittedSinceLastBreak with
    | true =>
      simp only [Option.bind_some, hemitted, if_true, DoxygenLine.toString, if_neg htags,
        Option.map_some]
      refine ⟨by simp, ?_⟩
      rintro result ⟨⟩
      refine ⟨bodies ++ [body], ?_, ?_, hiff.symm.trans hfit⟩
      · rw [hresult, htext, List.map_append, List.map_singleton, printed]
      · rw [List.flatten_append, List.flatten_singleton]
        exact hsaid
    | false =>
      simp only [Option.bind_some, hemitted, Bool.false_eq_true, if_false]
      refine ⟨by simp, ?_⟩
      rintro result ⟨⟩
      have hblank := hflag hemitted
      refine ⟨bodies, hresult, ?_, ?_⟩
      · have hnone : body.filter visible = [] :=
          List.filter_eq_nil_iff.2 fun a ha => by rw [hblank a ha]; decide
        rw [List.filter_append, hnone, List.append_nil] at hsaid
        exact hsaid
      · rw [← hfit, hiff, List.forall_mem_append, List.forall_mem_singleton]
        refine (and_iff_left fun hmem => ?_).symm
        exact absurd (hblank _ hmem) (by decide)

include hindicator hnewline in
theorem emitLine_spec (l : DoxygenLine) :
    (b.emitLine l = none → ¬tokensFit b l.internalIndentation (b.startSize 0) l.tags) ∧
    ∀ result, b.emitLine l = some result → PrintsInside b l result := by
  obtain ⟨tags, internalIndentation⟩ := l
  cases tags with
  | nil =>
    obtain ⟨result, hresult, hprints⟩ := emitLine_nil hindicator internalIndentation
    rw [hresult]
    refine ⟨nofun, ?_⟩
    rintro _ ⟨⟩
    exact hprints
  | cons t tags => exact emitLine_cons hindicator hnewline (List.cons_ne_nil _ _)

theorem emit_cons (l : DoxygenLine) (lines : List DoxygenLine) :
    b.emit (l :: lines) = (b.emitLine l).bind fun result =>
      (b.emit lines).map fun out => result.flatten ++ out := by
  simp only [emit, List.mapM_cons, Option.bind_eq_bind, Option.pure_def]
  cases b.emitLine l with
  | none => rfl
  | some result => cases List.mapM b.emitLine lines <;> simp

end

/-! ## Comments -/

/-- The output consists of lines that start with the indentation and the indicator, and without
these it says what the input says. -/
def StaysInside (b : CommentBuilder) (lines : List DoxygenLine) : Prop :=
  ∃ out, b.emit lines = some out ∧
    ∃ bodies : List (List Char), (∀ body ∈ bodies, '\n' ∉ body) ∧
      out = prefixed b.start '\n' bodies ∧
      bodies.flatten.filter visible = (lines.flatMap DoxygenLine.text).filter visible

/-- The output is always lines with a prefix, but the bodies may have newlines in them. -/
theorem emit_spec (hindicator : b.indicator ≠ []) (hnewline : '\n' ∉ b.indicator)
    (lines : List DoxygenLine) :
    (b.emit lines = none →
      ¬∀ l ∈ lines, tokensFit b l.internalIndentation (b.startSize 0) l.tags) ∧
    ∀ out, b.emit lines = some out → ∃ bodies : List (List Char),
      out = prefixed b.start '\n' bodies ∧
      bodies.flatten.filter visible = (lines.flatMap DoxygenLine.text).filter visible ∧
      ((∀ body ∈ bodies, '\n' ∉ body) ↔
        ∀ l ∈ lines, tokensFit b l.internalIndentation (b.startSize 0) l.tags) := by
  induction lines with
  | nil =>
    refine ⟨nofun, ?_⟩
    rintro out ⟨⟩
    exact ⟨[], rfl, rfl, by simp⟩
  | cons l lines ih =>
    obtain ⟨hnone, hsome⟩ := emitLine_spec hindicator hnewline l
    rw [emit_cons, List.forall_mem_cons]
    cases hl : b.emitLine l with
    | none => exact ⟨fun _ h => hnone hl h.1, nofun⟩
    | some result =>
      obtain ⟨bodies, rfl, hsaid, hfit⟩ := hsome result hl
      cases hlines : b.emit lines with
      | none => exact ⟨fun _ h => ih.1 hlines h.2, nofun⟩
      | some out =>
        obtain ⟨bodies', rfl, hsaid', hfit'⟩ := ih.2 out hlines
        refine ⟨nofun, ?_⟩
        rintro _ ⟨⟩
        refine ⟨bodies ++ bodies', ?_, ?_, ?_⟩
        · rw [prefixed_append, ← List.flatMap_def]
          rfl
        · rw [List.flatten_append, List.filter_append, hsaid, hsaid', List.flatMap_cons,
            List.filter_append]
        · rw [List.forall_mem_append, hfit, hfit']

section

variable (hindicator : ∃ a ∈ b.indicator, visible a = true) (hnewline : '\n' ∉ b.indicator)

include hindicator hnewline in
/-- The output cannot be read as other lines that say the same. -/
theorem tokensFit_of_staysInside {lines : List DoxygenLine} (h : StaysInside b lines) :
    ∀ l ∈ lines, tokensFit b l.internalIndentation (b.startSize 0) l.tags := by
  obtain ⟨a, ha, hvisible⟩ := hindicator
  obtain ⟨out, hout, bodies, hbodies, hlines, hsaid⟩ := h
  obtain ⟨bodies', rfl, hsaid', hfit⟩ :=
    (emit_spec (List.ne_nil_of_mem ha) hnewline lines).2 out hout
  have hsolid : ∃ a ∈ b.start, visible a = true := ⟨a, List.mem_append_right _ ha, hvisible⟩
  have hsep : visible '\n' = false := rfl
  refine hfit.1 ((exists_lines_iff hsep (not_mem_start hnewline) hsolid bodies').1 ?_)
  exact ⟨bodies, hbodies, hlines, hsaid.trans hsaid'.symm⟩

include hindicator hnewline in
/-- The text stays inside the comment exactly if every newline is in untagged text, and after text
that fits. -/
theorem staysInside_iff (lines : List DoxygenLine) :
    StaysInside b lines ↔
      ∀ l ∈ lines, tokensFit b l.internalIndentation (b.startSize 0) l.tags := by
  refine ⟨tokensFit_of_staysInside hindicator hnewline, fun h => ?_⟩
  obtain ⟨a, ha, -⟩ := hindicator
  obtain ⟨hnone, hsome⟩ := emit_spec (List.ne_nil_of_mem ha) hnewline lines
  cases hout : b.emit lines with
  | none => exact absurd h (hnone hout)
  | some out =>
      obtain ⟨bodies, hlines, hsaid, hfit⟩ := hsome out hout
      exact ⟨out, hout, bodies, hfit.2 h, hlines, hsaid⟩

end

/-- A word that fits is wrapped, and so is the line after it. -/
theorem staysInside_word : StaysInside ⟨"//".toList, 0, 5, by decide⟩
    [⟨[⟨.untagged, "ab\ncd".toList⟩], 0⟩] := by
  refine (staysInside_iff ⟨'/', by simp, by simp [visible]⟩ (by simp) _).2 ?_
  simp [tokensFit, find, wordLength, wordsFit, startSize, List.findIdx?_cons]

/-- A word that is too long is printed together with the newline after it. -/
theorem not_staysInside : ¬StaysInside ⟨"//".toList, 0, 3, by decide⟩
    [⟨[⟨.untagged, "ab\nc".toList⟩], 0⟩] := by
  intro h
  have hfit := tokensFit_of_staysInside ⟨'/', by simp, by simp [visible]⟩ (by simp) h
  simp [tokensFit, find, wordLength, startSize, List.findIdx?_cons] at hfit

end CommentBuilder

end PTML
