import Revng.Lib.SeparatedText
import Revng.TupleTree.Diff

/-!
# Paths as strings

`pathAsString` prints a path with the names of the fields, the names of the kinds and the keys,
and `stringAsPath` reads it back along the type.  Components are separated by `/`.  A composite
key has its parts separated by `-`.  The name of a kind comes with the field below it, as in
`Kind::Field`.  A key that is spelled `*` is a wildcard, and a text that has ended is a path
that has ended.

Nothing is escaped.  `pathCodec_iff` says which paths come back.
-/

namespace TupleTree

open SeparatedText

/-- A string, as its characters. -/
abbrev Text := List Char

/-! ## Key types -/

/-- The text cannot be taken for something else: it has a character, no `/` and no `*`, and
does not end in a `-`. -/
def Tidy (text : Text) : Prop :=
  text ≠ [] ∧ '/' ∉ text ∧ '*' ∉ text ∧ text.getLast? ≠ some '-'

/-- The type of a part of a key, with `getNameFromYAMLScalar` and `getValueFromYAMLScalar`.
Numbers, enumerators, addresses and block identifiers have tidy texts.  A string is its own
text, whatever is in it.  `initial` is the value of a key that was default-constructed. -/
structure KeyType (S : Type) extends Field Char S where
  initial : S
  verbatim_or_tidy : ∀ v, Mem v → (∀ x, parse x = v → x = print v) ∨ Tidy (print v)
  print_initial : print initial = [] ∨ Tidy (print initial)

variable {S : Type}

def keyTexts (types : List (KeyType S)) (key : List S) : List Text :=
  texts (types.map KeyType.toField) key

/-- `CompositeScalar::output`, or the scalar of a simple key. -/
def keyText (types : List (KeyType S)) (key : List S) : Text := join '-' (keyTexts types key)

/-- The spelling of a wildcard.  The key of a polymorphic type ends with its kind, which a
wildcard still names. -/
def isWildcard (polymorphic : Bool) (text : Text) : Bool :=
  if polymorphic then (split '-' text).1 == ['*'] else text == ['*']

/-- The key that stands for a wildcard.  The component of one without a kind is empty. -/
def wildcardKey (types : List (KeyType S)) (polymorphic : Bool) (text : Text) : List S :=
  if polymorphic then
    types.dropLast.map KeyType.initial ++
      (types.getLast?.map fun t => t.parse (split '-' text).2).toList
  else []

/-- `getValueFromYAMLScalar` on the key of a container.  There is no result when the assertion
at the end of `CompositeScalar::input` fails. -/
def readKey (types : List (KeyType S)) (polymorphic : Bool) (text : Text) : Option (List S) :=
  if isWildcard polymorphic text then some (wildcardKey types polymorphic text)
  else
    match types with
    | [t] => some [t.parse text]
    | _ => readAll '-' (types.map KeyType.toField) text

/-! ## Which keys come back -/

/-- The text of a key is not taken for something else. -/
structure PrintableKey (types : List (KeyType S)) (polymorphic : Bool) (key : List S) : Prop where
  not_wildcard : isWildcard polymorphic (keyText types key) = false
  no_slash : '/' ∉ keyText types key
  no_dash : 2 ≤ types.length → ∀ text ∈ keyTexts types key, '-' ∉ text

section Keys

variable {types : List (KeyType S)} {polymorphic : Bool} {key : List S} {text : Text}

theorem exists_of_mem_keyTexts {R : KeyType S → S → Prop} (h : List.Forall₂ R types key)
    (htext : text ∈ keyTexts types key) : ∃ t v, R t v ∧ text = t.print v := by
  induction h with
  | nil => cases htext
  | @cons t v types key hv _ ih =>
    rcases List.mem_cons.mp htext with rfl | htext
    · exact ⟨t, v, hv, rfl⟩
    · exact ih htext

/-- Every part of a key is read from a part of the text, or it is the initial value. -/
theorem forall₂_of_readKey (hkey : key ≠ []) (h : readKey types polymorphic text = some key) :
    List.Forall₂ (fun t v => v = t.initial ∨ ∃ part, part ⊆ text ∧ t.parse part = v)
      types key := by
  have hinitial : ∀ ts : List (KeyType S), List.Forall₂
      (fun t v => v = t.initial ∨ ∃ part, part ⊆ text ∧ t.parse part = v) ts
        (ts.map KeyType.initial) := by
    intro ts
    rw [List.forall₂_map_right_iff]
    exact List.forall₂_same.mpr fun t _ => Or.inl rfl
  unfold readKey at h
  split at h
  · cases h
    unfold wildcardKey
    split
    · rcases List.eq_nil_or_concat types with rfl | ⟨front, last, rfl⟩
      · exact .nil
      · simp only [List.concat_eq_append, List.dropLast_concat, List.getLast?_append,
          List.getLast?_singleton, Option.some_or, Option.map_some, Option.toList_some]
        exact List.rel_append (hinitial front)
          (.cons (Or.inr ⟨_, (split_subset text).2, rfl⟩) .nil)
    next hempty => exact absurd (if_neg hempty) hkey
  · split at h
    next t =>
      cases h
      exact .cons (Or.inr ⟨text, List.Subset.refl _, rfl⟩) .nil
    · have hparts := forall₂_of_readAll h
      rw [List.forall₂_map_left_iff] at hparts
      exact hparts.imp fun t v hpart => Or.inr hpart

/-- A key that has a `/` in its text is not read from a text without one. -/
theorem readKey_ne_of_slash (hmem : List.Forall₂ (fun t v => t.Mem v) types key)
    (hslash : '/' ∈ keyText types key) (htext : '/' ∉ text) :
    readKey types polymorphic text ≠ some key := by
  intro h
  have hkey : key ≠ [] := by
    rintro rfl
    cases hmem
    cases hslash
  obtain ⟨part, hpart, hin⟩ : ∃ part ∈ keyTexts types key, '/' ∈ part := by
    rcases mem_join hslash with hsep | hpart
    · cases hsep
    · exact hpart
  obtain ⟨t, v, ⟨hv, hread⟩, rfl⟩ := exists_of_mem_keyTexts
    (List.Forall₂.mp (fun _ _ hv hread => And.intro hv hread) hmem (forall₂_of_readKey hkey h)) hpart
  rcases hread with rfl | ⟨part, hsub, hparse⟩
  · rcases t.print_initial with hempty | htidy
    · rw [hempty] at hin
      cases hin
    · exact htidy.2.1 hin
  · rcases t.verbatim_or_tidy v hv with honly | htidy
    · rw [← honly part hparse] at hin
      exact htext (hsub hin)
    · exact htidy.2.1 hin

theorem isWildcard_true {text : Text} :
    isWildcard true text = true ↔ (split '-' text).1 = ['*'] := by
  simp [isWildcard]

/-- A key that is spelled like a wildcard is not the one that a wildcard stands for. -/
theorem wildcardKey_ne (hne : types ≠ []) (hlength : polymorphic = true → 2 ≤ types.length)
    (hmem : List.Forall₂ (fun t v => t.Mem v) types key)
    (hwildcard : isWildcard polymorphic (keyText types key) = true) :
    wildcardKey types polymorphic (keyText types key) ≠ key := by
  intro h
  -- The first part of the key is the initial value of its type, and has a `*` in its text.
  cases hmem with
  | nil => exact hne rfl
  | @cons t v types key hv hmem =>
    cases polymorphic with
    | false => cases h
    | true =>
      have hinitial : v = t.initial := by
        obtain ⟨u, types, rfl⟩ : ∃ u us, types = u :: us := by
          cases types with
          | nil => exact absurd (hlength rfl) (by simp)
          | cons u us => exact ⟨u, us, rfl⟩
        exact (List.cons.inj h).1.symm
      have hstar : '*' ∈ t.print v := by
        have hhead : '*' ∈ (split '-' (keyText (t :: types) (v :: key))).1 := by
          rw [isWildcard_true.mp hwildcard]
          exact List.mem_singleton_self _
        exact mem_of_mem_split_join hhead
      rw [hinitial] at hstar
      rcases t.print_initial with hempty | htidy
      · rw [hempty] at hstar
        cases hstar
      · exact htidy.2.2.1 hstar

/-- Which keys are read back from a text without a `/`. -/
theorem readKey_keyText_iff (hne : types ≠ []) (hlength : polymorphic = true → 2 ≤ types.length)
    (hmem : List.Forall₂ (fun t v => t.Mem v) types key) :
    readKey types polymorphic (keyText types key) = some key ↔
      isWildcard polymorphic (keyText types key) = false ∧
        (2 ≤ types.length → ∀ text ∈ keyTexts types key, '-' ∉ text) := by
  unfold readKey
  cases hwildcard : isWildcard polymorphic (keyText types key) with
  | true =>
    refine iff_of_false (fun h => ?_) fun h => by cases h.1
    exact wildcardKey_ne hne hlength hmem hwildcard (Option.some.inj h)
  | false =>
    simp only [Bool.false_eq_true, if_false, true_and]
    split
    next t =>
      cases hmem with
      | cons hv hrest =>
        cases hrest
        refine iff_of_true ?_ fun h => absurd h (by simp)
        exact congrArg (some [·]) (t.parse_print _ hv)
    next hmany =>
      have htwo : 2 ≤ types.length := by
        cases types with
        | nil => exact absurd rfl hne
        | cons t rest =>
          cases rest with
          | nil => exact absurd rfl (hmany t)
          | cons u rest => exact Nat.le_add_left 2 rest.length
      have hfaithful : ∀ f ∈ types.map KeyType.toField, f.Faithful '-' := by
        intro f hf
        obtain ⟨t, -, rfl⟩ := List.mem_map.mp hf
        intro v hv
        exact (t.verbatim_or_tidy v hv).imp_right fun h => ⟨h.1, h.2.2.2⟩
      rw [keyText, keyTexts, readAll_join_iff hfaithful (by simpa using hne)
        (List.forall₂_map_left_iff.mpr hmem)]
      exact ⟨fun h _ => h, fun h => h htwo⟩

end Keys

/-! ## Schemas with names -/

/-- A schema with the names of `TupleLikeTraits` and the types of the keys. -/
inductive NamedSchema (S : Type) where
  | scalar
  | struct (key : List Nat) (names : List Text) (fields : List (NamedSchema S))
  | pointer (key : List Nat) (kindField : Nat) (kinds : List (S × Text)) (names : S → List Text)
      (alternatives : S → List (NamedSchema S))
  | container (kind : ContainerKind) (keyTypes : List (KeyType S)) (element : NamedSchema S)

def NamedSchema.isPointer : NamedSchema S → Bool
  | .pointer .. => true
  | _ => false

/-- A name in the generated C++ code. -/
def Identifier (name : Text) : Prop := name ≠ [] ∧ '/' ∉ name ∧ ':' ∉ name

def Names (names : List Text) : Prop := names.Nodup ∧ ∀ n ∈ names, Identifier n

mutual

/-- The names of a type are distinct identifiers.  The key of a polymorphic type has more than
its kind. -/
def NamedSchema.WellNamed : NamedSchema S → Prop
  | .scalar => True
  | .struct _ names fields =>
      Names names ∧ names.length = fields.length ∧ NamedSchema.AllWellNamed fields
  | .pointer _ _ kinds names alternatives =>
      (kinds.map Prod.fst).Nodup ∧ Names (kinds.map Prod.snd) ∧ ∀ kind, Names (names kind) ∧
        (names kind).length = (alternatives kind).length ∧
        NamedSchema.AllWellNamed (alternatives kind)
  | .container _ keyTypes element =>
      keyTypes ≠ [] ∧ (element.isPointer = true → 2 ≤ keyTypes.length) ∧ element.WellNamed

def NamedSchema.AllWellNamed : List (NamedSchema S) → Prop
  | [] => True
  | f :: fs => f.WellNamed ∧ NamedSchema.AllWellNamed fs

end

/-! ## Printing -/

variable [DecidableEq S]

/-- `pathAsString`, with `DumpPathVisitor`. -/
def pathAsString : NamedSchema S → Path S → Option Text
  | _, [] => some []
  | .struct _ names fields, .field i :: rest =>
      match names[i]?, fields[i]? with
      | some name, some f => (pathAsString f rest).map fun text => '/' :: name ++ text
      | _, _ => none
  | .pointer _ _ kinds names alternatives, .kind k :: .field i :: rest =>
      match kinds.find? (·.1 = k), (names k)[i]?, (alternatives k)[i]? with
      | some (_, kind), some name, some f =>
          (pathAsString f rest).map fun text => '/' :: kind ++ [':', ':'] ++ name ++ text
      | _, _, _ => none
  | .container _ keyTypes element, .key key :: rest =>
      (pathAsString element rest).map fun text => '/' :: keyText keyTypes key ++ text
  | _, _ => none

/-! ## Reading -/

/-- `split("::")` -/
def splitScope : Text → Text × Text
  | ':' :: ':' :: rest => ([], rest)
  | c :: rest => (c :: (splitScope rest).1, (splitScope rest).2)
  | [] => ([], [])

mutual

/-- `PathMatcher::visitTupleTreeNode`, with the path that is read.  The positions of the
wildcards are left out: `stringAsPath` does not use them. -/
def visitTupleTreeNode : NamedSchema S → Text → Option (Path S)
  | .scalar, text => if text = [] then some [] else none
  | .struct _ names fields, text =>
      if text = [] then some []
      else visitTuple (split '/' text).1 (split '/' text).2 0 names fields
  | .pointer _ _ kinds names alternatives, text =>
      if text = [] then some []
      else
        match kinds.find? (·.2 = (splitScope text).1) with
        | some (k, _) =>
            let rest := split '/' (splitScope text).2
            (visitTuple rest.1 rest.2 0 (names k) (alternatives k)).map (.kind k :: ·)
        | none => none
  | .container _ keyTypes element, text =>
      if text = [] then some []
      else
        match readKey keyTypes element.isPointer (split '/' text).1 with
        | some key => (visitTupleTreeNode element (split '/' text).2).map (.key key :: ·)
        | none => none

/-- `PathMatcher::visitTuple`, from the field with the index `i` on. -/
def visitTuple (current rest : Text) (i : Nat) :
    List Text → List (NamedSchema S) → Option (Path S)
  | name :: names, f :: fields =>
      if name = current then (visitTupleTreeNode f rest).map (.field i :: ·)
      else visitTuple current rest (i + 1) names fields
  | _, _ => none

end

/-- `stringAsPath` and `PathMatcher::create`, which asserts that the text starts with a
`/`. -/
def stringAsPath (s : NamedSchema S) : Text → Option (Path S)
  | '/' :: text => visitTupleTreeNode s text
  | _ => none

/-! ## The paths that come back -/

/-- The paths of a type.  The parts of a key are values of their types. -/
def NamedSchema.Valid : NamedSchema S → Path S → Prop
  | _, [] => True
  | .struct _ _ fields, .field i :: rest => ∃ f, fields[i]? = some f ∧ f.Valid rest
  | .pointer _ _ kinds _ alternatives, .kind k :: .field i :: rest =>
      k ∈ kinds.map Prod.fst ∧ ∃ f, (alternatives k)[i]? = some f ∧ f.Valid rest
  | .container _ keyTypes element, .key key :: rest =>
      List.Forall₂ (fun t v => t.Mem v) keyTypes key ∧ element.Valid rest
  | _, _ => False

/-- The keys of the path are printable, and a key at the end has a text. -/
def NamedSchema.Printable : NamedSchema S → Path S → Prop
  | .struct _ _ fields, .field i :: rest => ∀ f, fields[i]? = some f → f.Printable rest
  | .pointer _ _ _ _ alternatives, .kind k :: .field i :: rest =>
      ∀ f, (alternatives k)[i]? = some f → f.Printable rest
  | .container _ keyTypes element, .key key :: rest =>
      PrintableKey keyTypes element.isPointer key ∧
        (rest = [] → keyText keyTypes key ≠ []) ∧ element.Printable rest
  | _, _ => True

/-! ## Which paths come back -/

variable {fields : List (NamedSchema S)} {f : NamedSchema S}

omit [DecidableEq S] in
theorem NamedSchema.AllWellNamed.get (h : NamedSchema.AllWellNamed fields) {i : Nat}
    (hf : fields[i]? = some f) : f.WellNamed := by
  induction fields generalizing i with
  | nil => cases hf
  | cons g gs ih =>
    rw [NamedSchema.AllWellNamed] at h
    cases i with
    | zero =>
      cases hf
      exact h.1
    | succ i => exact ih h.2 hf

variable {name text : Text}

/-- A part without a separator is cut off, whatever comes after it. -/
theorem split_component (hname : '/' ∉ name) (htext : text = [] ∨ text.head? = some '/') :
    split '/' (name ++ text) = (name, text.tail) := by
  cases text with
  | nil => simp [hname]
  | cons c rest =>
    obtain rfl : c = '/' := by simpa using htext
    exact split_append hname rest

theorem splitScope_append {kind : Text} (h : ':' ∉ kind) (text : Text) :
    splitScope (kind ++ ':' :: ':' :: text) = (kind, text) := by
  induction kind with
  | nil => rfl
  | cons c rest ih =>
    rw [List.mem_cons, not_or] at h
    rw [List.cons_append]
    unfold splitScope
    split
    next heq => exact absurd (List.cons.inj heq).1.symm h.1
    next heq =>
      cases heq
      rw [ih h.2]
    next heq => cases heq

variable {names : List Text}

omit [DecidableEq S] in
/-- A field is found by its name. -/
theorem visitTuple_eq {rest : Text} (hnodup : names.Nodup) :
    ∀ {i j : Nat}, names[i]? = some name → fields[i]? = some f →
      visitTuple name rest j names fields =
        (visitTupleTreeNode f rest).map (.field (j + i) :: ·) := by
  induction names generalizing fields with
  | nil =>
    intro i j hname
    cases hname
  | cons n names ih =>
    intro i j hname hf
    rw [List.nodup_cons] at hnodup
    cases fields with
    | nil => cases hf
    | cons g fields =>
      cases i with
      | zero =>
        cases hname
        cases hf
        simp [visitTuple]
      | succ i =>
        have hne : n ≠ name := by
          rintro rfl
          exact hnodup.1 (List.mem_of_getElem? hname)
        rw [visitTuple, if_neg hne, ih hnodup.2 hname hf, Nat.add_right_comm, Nat.add_assoc]

/-- An entry of a table with distinct names is found by its name, and one with distinct kinds
by its kind. -/
theorem find?_kind {kinds : List (S × Text)} (hkinds : (kinds.map Prod.fst).Nodup)
    (hnames : (kinds.map Prod.snd).Nodup) {k : S} (h : (k, name) ∈ kinds) :
    kinds.find? (·.1 = k) = some (k, name) ∧ kinds.find? (·.2 = name) = some (k, name) := by
  induction kinds with
  | nil => cases h
  | cons e kinds ih =>
    rw [List.map_cons, List.nodup_cons] at hkinds hnames
    rcases List.mem_cons.mp h with rfl | h
    · simp
    · have hk : e.1 ≠ k := fun heq => hkinds.1 (heq ▸ List.mem_map_of_mem h)
      have hn : e.2 ≠ name := fun heq => hnames.1 (heq ▸ List.mem_map_of_mem h)
      simpa [hk, hn] using ih hkinds.2 hnames.2 h

/-- The text of a path starts with a `/` when there is something to print. -/
structure TextOf (text : Text) (p : Path S) : Prop where
  nil : p = [] → text = []
  head : p ≠ [] → text.head? = some '/'

omit [DecidableEq S] in
theorem TextOf.cases {p : Path S} (h : TextOf text p) : text = [] ∨ text.head? = some '/' := by
  by_cases hp : p = []
  · exact Or.inl (h.nil hp)
  · exact Or.inr (h.head hp)

omit [DecidableEq S] in
theorem TextOf.cons (text : Text) (c : PathComponent S) (p : Path S) :
    TextOf ('/' :: text) (c :: p) where
  nil h := by cases h
  head _ := rfl

omit [DecidableEq S] in
theorem Names.exists_name (h : Names names) (hlength : names.length = fields.length) {i : Nat}
    (hf : fields[i]? = some f) : ∃ name, names[i]? = some name ∧ Identifier name := by
  have hlt : i < names.length := hlength ▸ (List.getElem?_eq_some_iff.mp hf).1
  exact ⟨names[i], List.getElem?_eq_getElem hlt, h.2 _ (List.getElem_mem hlt)⟩

omit [DecidableEq S] in
/-- The component of a field comes back when the rest of the path does. -/
theorem visitTuple_component {i : Nat} {rest : Path S} (hnames : Names names)
    (hname : names[i]? = some name) (hf : fields[i]? = some f) (htext : TextOf text rest) :
    visitTuple (split '/' (name ++ text)).1 (split '/' (name ++ text)).2 0 names fields =
        some (.field i :: rest) ↔
      visitTupleTreeNode f text.tail = some rest := by
  have hid := hnames.2 name (List.mem_of_getElem? hname)
  rw [split_component hid.2.1 htext.cases, visitTuple_eq hnames.1 hname hf, Nat.zero_add]
  simp

omit [DecidableEq S] in
/-- The component of a key comes back when the key is printable and the rest of the path
does. -/
theorem visitKey_component {kind : ContainerKind} {types : List (KeyType S)}
    {element : NamedSchema S} {key : List S} {rest : Path S} (hne : types ≠ [])
    (hlength : element.isPointer = true → 2 ≤ types.length)
    (hmem : List.Forall₂ (fun t v => t.Mem v) types key) (htext : TextOf text rest) :
    visitTupleTreeNode (.container kind types element) (keyText types key ++ text) =
        some (.key key :: rest) ↔
      PrintableKey types element.isPointer key ∧ (rest = [] → keyText types key ≠ []) ∧
        visitTupleTreeNode element text.tail = some rest := by
  rw [visitTupleTreeNode]
  by_cases hempty : keyText types key ++ text = []
  · obtain ⟨hkey, hnil⟩ := List.append_eq_nil_iff.mp hempty
    have hrest : rest = [] := by
      by_contra hrest
      have hhead := htext.head hrest
      rw [hnil] at hhead
      cases hhead
    rw [if_pos hempty]
    exact iff_of_false (by simp) fun h => h.2.1 hrest hkey
  · rw [if_neg hempty]
    have hlast : rest = [] → keyText types key ≠ [] := by
      rintro hrest hkey
      exact hempty (by rw [hkey, htext.nil hrest]; rfl)
    by_cases hslash : '/' ∈ keyText types key
    · refine iff_of_false (fun h => ?_) fun h => h.1.no_slash hslash
      obtain ⟨a, b, hab, ha⟩ := List.eq_append_cons_of_mem hslash
      rw [hab, List.append_assoc, List.cons_append, split_append ha] at h
      split at h
      next key' hread =>
        obtain ⟨rest', -, heq⟩ := Option.map_eq_some_iff.mp h
        cases heq
        exact readKey_ne_of_slash hmem hslash ha hread
      · cases h
    · rw [split_component hslash htext.cases]
      have hread := readKey_keyText_iff hne hlength hmem
      constructor
      · intro h
        split at h
        next key' hkey =>
          obtain ⟨rest', hrest, heq⟩ := Option.map_eq_some_iff.mp h
          cases heq
          obtain ⟨hwildcard, hdash⟩ := hread.mp hkey
          exact ⟨⟨hwildcard, hslash, hdash⟩, hlast, hrest⟩
        · cases h
      · rintro ⟨hkey, -, hrest⟩
        simp only [hread.mpr ⟨hkey.not_wildcard, hkey.no_dash⟩, hrest, Option.map_some]

/-- A path of a type is printed, and comes back when its keys are printable.  The first `/` is
not part of the text that a component is read from. -/
theorem visitTupleTreeNode_iff (s : NamedSchema S) (p : Path S) (hnamed : s.WellNamed)
    (hvalid : s.Valid p) :
    ∃ text, pathAsString s p = some text ∧ TextOf text p ∧
      (visitTupleTreeNode s text.tail = some p ↔ s.Printable p) := by
  induction s, p using NamedSchema.Valid.induct with
  | case1 s =>
    refine ⟨[], by cases s <;> rfl, ⟨fun _ => rfl, fun h => absurd rfl h⟩, ?_⟩
    cases s <;> simp [visitTupleTreeNode, NamedSchema.Printable]
  | case2 key names fields i rest ih =>
    rw [NamedSchema.WellNamed] at hnamed
    rw [NamedSchema.Valid] at hvalid
    obtain ⟨hnames, hlength, hall⟩ := hnamed
    obtain ⟨f, hf, hrest⟩ := hvalid
    obtain ⟨text, hprint, htext, hiff⟩ := ih f (hall.get hf) hrest
    obtain ⟨name, hname, hid⟩ := hnames.exists_name hlength hf
    refine ⟨'/' :: name ++ text, by simp [pathAsString, hname, hf, hprint], .cons _ _ _, ?_⟩
    rw [List.cons_append, List.tail_cons, visitTupleTreeNode, if_neg (by simp [hid.1]),
      visitTuple_component hnames hname hf htext, hiff]
    simp [NamedSchema.Printable, hf]
  | case3 key kindField kinds names alternatives k i rest ih =>
    rw [NamedSchema.WellNamed] at hnamed
    rw [NamedSchema.Valid] at hvalid
    obtain ⟨hkinds, hkindNames, hall⟩ := hnamed
    obtain ⟨hnames, hlength, hall⟩ := hall k
    obtain ⟨hk, f, hf, hrest⟩ := hvalid
    obtain ⟨text, hprint, htext, hiff⟩ := ih f (hall.get hf) hrest
    obtain ⟨name, hname, hid⟩ := hnames.exists_name hlength hf
    obtain ⟨⟨_, kind⟩, hmem, rfl⟩ := List.mem_map.mp hk
    obtain ⟨hfind, hfindName⟩ := find?_kind hkinds hkindNames.1 hmem
    have hkindId := hkindNames.2 kind (List.mem_map_of_mem hmem)
    refine ⟨'/' :: kind ++ [':', ':'] ++ name ++ text,
      by simp [pathAsString, hfind, hname, hf, hprint], .cons _ _ _, ?_⟩
    have htail : ('/' :: kind ++ [':', ':'] ++ name ++ text).tail =
        kind ++ ':' :: ':' :: (name ++ text) := by simp
    rw [htail, visitTupleTreeNode, if_neg (by simp), splitScope_append hkindId.2.2]
    simp only [hfindName, Option.map_eq_some_iff, List.cons.injEq, true_and, exists_eq_right]
    rw [visitTuple_component hnames hname hf htext, hiff]
    simp [NamedSchema.Printable, hf]
  | case4 kind keyTypes element key rest ih =>
    rw [NamedSchema.WellNamed] at hnamed
    rw [NamedSchema.Valid] at hvalid
    obtain ⟨hne, hlength, hnamed⟩ := hnamed
    obtain ⟨hmem, hrest⟩ := hvalid
    obtain ⟨text, hprint, htext, hiff⟩ := ih hnamed hrest
    refine ⟨'/' :: keyText keyTypes key ++ text, by simp [pathAsString, hprint], .cons _ _ _, ?_⟩
    rw [List.cons_append, List.tail_cons, visitKey_component hne hlength hmem htext, hiff,
      NamedSchema.Printable]
  | case5 s p h1 h2 h3 h4 =>
    rw [NamedSchema.Valid] at hvalid
    · exact hvalid.elim
    · exact h1
    · exact h2
    · exact h3
    · exact h4

/-- Printing a path and reading it back gives the path exactly when the path is not empty and
its keys are printable. -/
theorem stringAsPath_pathAsString_iff (s : NamedSchema S) (hnamed : s.WellNamed) {p : Path S}
    (hvalid : s.Valid p) :
    (pathAsString s p).bind (stringAsPath s) = some p ↔ p ≠ [] ∧ s.Printable p := by
  obtain ⟨text, hprint, htext, hiff⟩ := visitTupleTreeNode_iff s p hnamed hvalid
  rw [hprint, Option.bind_some]
  by_cases hp : p = []
  · rw [htext.nil hp, stringAsPath]
    exact iff_of_false (by simp) fun h => h.1 hp
    · simp
  · obtain ⟨rest, rfl⟩ : ∃ rest, text = '/' :: rest := by
      have hhead := htext.head hp
      cases text with
      | nil => cases hhead
      | cons c rest => exact ⟨rest, by rw [Option.some.inj hhead]⟩
    rw [stringAsPath]
    exact hiff.trans ⟨fun h => ⟨hp, h⟩, fun h => h.2⟩

/-- A string that is a key. -/
def stringKey : KeyType Text where
  print := id
  parse := id
  Mem _ := True
  parse_print _ _ := rfl
  initial := []
  verbatim_or_tidy _ _ := Or.inl fun _ h => h
  print_initial := Or.inl rfl

/-- The imported functions of a binary, by their names. -/
def importSchema : NamedSchema Text :=
  .struct [] ["Imports".toList] [.container .sortedVector [stringKey]
    (.struct [0] ["Name".toList, "Comment".toList] [.scalar, .scalar])]

theorem importSchema_wellNamed : importSchema.WellNamed := by
  simp only [importSchema, NamedSchema.WellNamed, NamedSchema.AllWellNamed, NamedSchema.isPointer,
    Names, Identifier]
  decide

/-- The comment of an imported function. -/
def commentPath (name : String) : Path Text := [.field 0, .key [name.toList], .field 1]

theorem commentPath_valid (name : String) : importSchema.Valid (commentPath name) :=
  ⟨_, rfl, .cons trivial .nil, _, rfl, trivial⟩

end TupleTree
