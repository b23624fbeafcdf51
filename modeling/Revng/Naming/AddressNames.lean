import Mathlib.Data.List.Forall2
import Revng.Naming.ReservedWords

/-!
# Function names

The automatic name of a function ends in the address of its entry, with `_` between the parts.
To recognise it the code turns each `_` back into the `:` that the reader of addresses knows.
The `_` of a type such as `Code_arm` has to stay: it is skipped, by a jump that lands past the
end of the type and further.  The `_` right after the type is skipped with it, so an address
with an epoch or an address space is not recognised, unless what follows happens to complete
the name of another type (`isPrefixAndAddress_iff`).
-/

namespace Naming

open Binary (MetaAddress MetaAddressType IntegerText)

/-- What follows the first type the text starts with.  A text that starts with none stays. -/
def consumeFromString (text : Text) : Text :=
  match MetaAddressType.values.find? fun type => type.toString.isPrefixOf text with
  | some type => text.drop type.toString.length
  | none => text

/-- Where to go on after the `_` of a type, when there is one here. -/
def typeJump (text : Text) (index : Nat) : Option Nat :=
  if 5 < index ∧ (text.drop (index - 4)).take 5 = "Code_".toList then
    let s := (consumeFromString (text.drop (index - 4))).length
    if s ≠ text.length then some (index + (text.length - s - 1) + 1) else none
  else none

/-- Turn the `_` from an index on into `:`. -/
def rehydrate (text : Text) (index : Nat) : Text :=
  if h : index < text.length then
    if text[index] ≠ '_' then rehydrate text (index + 1)
    else
      match hjump : typeJump text index with
      | some next => rehydrate text next
      | none => rehydrate (text.set index ':') (index + 1)
  else text
  termination_by text.length - index
  decreasing_by
    · omega
    · simp only [typeJump] at hjump
      split at hjump
      · split at hjump
        · cases hjump
          omega
        · cases hjump
      · cases hjump
    · rw [List.length_set]
      omega

/-- The name is the given text and an address. -/
def isPrefixAndAddress (name start : Text) : Bool :=
  start.isPrefixOf name &&
    (MetaAddress.fromString .llvm (rehydrate (name.drop start.length) 0)).isValid

/-! ## Turning the separators back -/

/-- A text with some of its `_` turned into `:`. -/
abbrev Rehydrated (x y : Text) : Prop := List.Forall₂ (fun c d => d = c ∨ c = '_' ∧ d = ':') x y

theorem rehydrated_refl (x : Text) : Rehydrated x x := List.forall₂_same.mpr fun _ _ => Or.inl rfl

variable {text : Text} {index : Nat}

theorem lt_typeJump {next : Nat} (h : typeJump text index = some next) : index < next := by
  simp only [typeJump] at h
  split at h
  · split at h
    · cases h
      omega
    · cases h
  · cases h

/-- What is before the index stays. -/
theorem rehydrate_eq (text : Text) (index : Nat) :
    ∃ w, rehydrate text index = text.take index ++ w ∧ Rehydrated (text.drop index) w := by
  have hlater {i j : Nat} (hij : i ≤ j) {x w : Text} (hw : Rehydrated (x.drop j) w) :
      ∃ w', x.take j ++ w = x.take i ++ w' ∧ Rehydrated (x.drop i) w' := by
    refine ⟨(x.drop i).take (j - i) ++ w, ?_, ?_⟩
    · rw [← List.append_assoc, ← List.take_add, Nat.add_sub_cancel' hij]
    · conv => lhs; rw [← List.take_append_drop (j - i) (x.drop i), List.drop_drop,
        Nat.add_sub_cancel' hij]
      exact List.rel_append (rehydrated_refl _) hw
  fun_induction rehydrate text index with
  | case1 text index h hc ih =>
    obtain ⟨w, hw, hrehydrated⟩ := ih
    rw [hw]
    exact hlater (Nat.le_succ _) hrehydrated
  | case2 text index h hc next hjump ih =>
    obtain ⟨w, hw, hrehydrated⟩ := ih
    rw [hw]
    exact hlater (Nat.le_of_lt (lt_typeJump hjump)) hrehydrated
  | case3 text index h hc hjump ih =>
    obtain ⟨w, hw, hrehydrated⟩ := ih
    refine ⟨':' :: w, ?_, ?_⟩
    · rw [hw, List.take_succ_eq_append_getElem (by simpa using h)]
      simp [List.take_set_of_le]
    · rw [List.drop_eq_getElem_cons h, not_not.mp hc]
      refine .cons (Or.inr ⟨rfl, rfl⟩) ?_
      rwa [List.drop_set_of_lt (Nat.lt_succ_self _)] at hrehydrated
  | case4 text index h =>
    refine ⟨[], ?_, ?_⟩
    · rw [List.append_nil, List.take_of_length_le (Nat.le_of_not_lt h)]
    · rw [List.drop_eq_nil_of_le (Nat.le_of_not_lt h)]
      exact .nil

/-! ## The jump over the type -/

theorem rehydrate_of_ne (h : index < text.length) (hc : text[index] ≠ '_') :
    rehydrate text index = rehydrate text (index + 1) := by
  rw [rehydrate, dif_pos h, if_pos hc]

theorem rehydrate_of_jump {next : Nat} (h : index < text.length) (hc : text[index] = '_')
    (hjump : typeJump text index = some next) : rehydrate text index = rehydrate text next := by
  rw [rehydrate, dif_pos h, if_neg (not_not_intro hc)]
  split
  next hnext => rw [Option.some.inj (hjump.symm.trans hnext)]
  next hnext => rw [hjump] at hnext; cases hnext

theorem rehydrate_of_no_jump (h : index < text.length) (hc : text[index] = '_')
    (hjump : typeJump text index = none) :
    rehydrate text index = rehydrate (text.set index ':') (index + 1) := by
  rw [rehydrate, dif_pos h, if_neg (not_not_intro hc)]
  split
  next hnext => rw [hjump] at hnext; cases hnext
  next => rfl

/-- A part without `_` is passed over. -/
theorem rehydrate_append {x y z : Text} (hy : '_' ∉ y) :
    rehydrate (x ++ (y ++ z)) x.length = rehydrate (x ++ (y ++ z)) (x.length + y.length) := by
  induction y generalizing x with
  | nil => rfl
  | cons c y ih =>
    rw [List.mem_cons, not_or] at hy
    have hlt : x.length < (x ++ (c :: y ++ z)).length := by simp
    have hc : (x ++ (c :: y ++ z))[x.length] ≠ '_' := by simpa using Ne.symm hy.1
    have hlater := ih (x := x ++ [c]) hy.2
    simp only [List.length_append, List.length_singleton, List.append_assoc,
      List.singleton_append] at hlater
    rw [rehydrate_of_ne hlt hc, List.cons_append, hlater, List.length_cons]
    congr 1
    omega

variable {address rest : Text}

theorem typeJump_address (hlast : address.getLast? ≠ some 'e') :
    typeJump (address ++ '_' :: rest) address.length = none := by
  have hnotCode : ¬(5 < address.length ∧
      ((address ++ '_' :: rest).drop (address.length - 4)).take 5 = "Code_".toList) := by
    rintro ⟨hlength, htake⟩
    have hfourth := congrArg (·[3]?) htake
    have hindex : address.length - 4 + 3 = address.length - 1 := by omega
    have hlt : address.length - 1 < address.length := by omega
    simp only [List.getElem?_take_of_lt (by decide : 3 < 5), List.getElem?_drop, hindex,
      List.getElem?_append_left hlt] at hfourth
    rw [← List.getLast?_eq_getElem?] at hfourth
    exact hlast hfourth
  rw [typeJump, if_neg hnotCode]

/-- Only the separator before the type is turned back before the jump. -/
theorem rehydrate_code (hnot : '_' ∉ address) (hne : address ≠ [])
    (hlast : address.getLast? ≠ some 'e')
    (hconsume : (consumeFromString ("Code_".toList ++ rest)).length ≤ rest.length) :
    rehydrate (address ++ '_' :: ("Code_".toList ++ rest)) 0 =
      rehydrate (address ++ ':' :: ("Code_".toList ++ rest))
        (2 * address.length + 11 + rest.length -
          (consumeFromString ("Code_".toList ++ rest)).length) := by
  have hpos : 0 < address.length := List.length_pos_of_ne_nil hne
  have hfirst := rehydrate_append (x := []) (z := '_' :: ("Code_".toList ++ rest)) hnot
  rw [List.nil_append, List.length_nil, Nat.zero_add] at hfirst
  rw [hfirst, rehydrate_of_no_jump (by simp) (by simp) (typeJump_address hlast)]
  have hset : (address ++ '_' :: ("Code_".toList ++ rest)).set address.length ':' =
      address ++ ':' :: ("Code_".toList ++ rest) := by simp
  have hcode := rehydrate_append (x := address ++ [':']) (y := "Code".toList) (z := '_' :: rest)
    (by decide)
  have htext : address ++ [':'] ++ ("Code".toList ++ '_' :: rest) =
      address ++ ':' :: ("Code_".toList ++ rest) := by simp
  rw [htext, List.length_append, List.length_singleton] at hcode
  rw [hset, hcode]
  have hafter : address ++ ':' :: ("Code_".toList ++ rest) =
      address ++ ':' :: "Code".toList ++ '_' :: rest := by simp
  have hindex : (address ++ ':' :: "Code".toList).length =
      address.length + 1 + "Code".toList.length := by simp [Nat.add_assoc]
  have hlength : (address ++ ':' :: ("Code_".toList ++ rest)).length =
      address.length + 6 + rest.length := by simp; omega
  have hfour : address.length + 1 + "Code".toList.length = address.length + 5 := rfl
  have hdrop : (address ++ ':' :: ("Code_".toList ++ rest)).drop (address.length + 5 - 4) =
      "Code_".toList ++ rest := by simp
  rw [hfour] at hindex ⊢
  refine rehydrate_of_jump (by omega) (List.getElem_of_append hafter hindex) ?_
  rw [typeJump, hdrop, if_pos ⟨by omega, List.take_left' rfl⟩, hlength]
  simp only
  rw [if_pos (by omega)]
  congr 1
  omega

theorem rehydrate_of_le (h : text.length ≤ index) : rehydrate text index = text := by
  obtain ⟨w, heq, hw⟩ := rehydrate_eq text index
  rw [List.drop_eq_nil_of_le h] at hw
  cases hw
  rw [heq, List.append_nil, List.take_of_length_le h]

/-! ## Types -/

variable {type : MetaAddressType}

theorem toString_eq_of_isCode (h : type.isCode = true) :
    type.toString = "Code_".toList ++ type.toString.drop 5 := by
  cases type <;> first | rfl | cases h

theorem length_toString_of_isCode (h : type.isCode = true) :
    8 ≤ type.toString.length ∧ type.toString.length ≤ 14 := by
  revert h
  cases type <;> decide

/-- What is taken for the type has at least eight characters. -/
theorem length_consumeFromString (h : type.isCode = true) (rest : Text) :
    (consumeFromString (type.toString ++ rest)).length + 8 ≤ type.toString.length + rest.length := by
  have hconsume : ∃ k, 8 ≤ k ∧ k ≤ type.toString.length ∧
      consumeFromString (type.toString ++ rest) = type.toString.drop k ++ rest := by
    cases type with
    | codeX86 => exact ⟨8, by decide, by decide, rfl⟩
    | codeX86_64 => exact ⟨8, by decide, by decide, rfl⟩
    | codeMips => exact ⟨9, by decide, by decide, rfl⟩
    | codeMipsel => exact ⟨9, by decide, by decide, rfl⟩
    | codeArm => exact ⟨8, by decide, by decide, rfl⟩
    | codeArmThumb => exact ⟨8, by decide, by decide, rfl⟩
    | codeAarch64 => exact ⟨12, by decide, by decide, rfl⟩
    | codeSystemz => exact ⟨12, by decide, by decide, rfl⟩
    | invalid | generic32 | generic64 => cases h
  obtain ⟨k, hk, hle, heq⟩ := hconsume
  rw [heq, List.length_append, List.length_drop]
  omega

/-- The only names of types that go on after another type and a `_`. -/
theorem toString_of_prefix {type' : MetaAddressType}
    (h : type.toString ++ ['_'] <+: type'.toString) :
    type = .codeX86 ∧ type'.toString = type.toString ++ '_' :: "64".toList ∨
      type = .codeArm ∧ type'.toString = type.toString ++ '_' :: "thumb".toList := by
  revert h
  cases type <;> cases type' <;> decide

/-! ## What is recognised -/

/-- An address that is read has the name of a type after its first `:`. -/
theorem type_of_fromString {x y : Text} (hx : ':' ∉ x)
    (h : (MetaAddress.fromString .llvm (x ++ ':' :: y)).isValid = true) :
    ∃ type : MetaAddressType, type.toString = y ∨ type.toString ++ [':'] <+: y := by
  have hread : ∃ a, MetaAddress.readParts .llvm ((x ++ ':' :: y).splitOn ':') = some a := by
    rw [MetaAddress.fromString] at h
    split at h
    · cases h
    · split at h
      · cases h
      · cases hparts : MetaAddress.readParts .llvm ((x ++ ':' :: y).splitOn ':') with
        | none => rw [hparts] at h; cases h
        | some a => exact ⟨a, rfl⟩
  rw [List.splitOn_append_cons_self_of_not_mem hx] at hread
  obtain ⟨a, hread⟩ := hread
  obtain ⟨piece, rest, hsplit, hpiece⟩ : ∃ piece rest, y.splitOn ':' = piece :: rest ∧
      (piece = y ∨ piece ++ [':'] <+: y) := by
    by_cases hy : ':' ∈ y
    · obtain ⟨piece, later, rfl, hpiece⟩ := List.eq_append_cons_of_mem hy
      refine ⟨piece, _, List.splitOn_append_cons_self_of_not_mem hpiece _, Or.inr ⟨later, ?_⟩⟩
      rw [List.append_assoc, List.singleton_append]
    · exact ⟨y, [], List.splitOn_eq_singleton hy, Or.inl rfl⟩
  rw [hsplit] at hread
  have htype : MetaAddressType.fromString piece ≠ .invalid := by
    obtain ⟨_, -, hread⟩ := Option.bind_eq_some_iff.mp hread
    obtain ⟨_, -, hread⟩ := Option.bind_eq_some_iff.mp hread
    obtain ⟨_, hguard, -⟩ := Option.bind_eq_some_iff.mp hread
    intro hinvalid
    rw [hinvalid] at hguard
    cases hguard
  have hname : ∃ type : MetaAddressType, type.toString = piece := by
    rw [MetaAddressType.fromString] at htype
    cases hfind : MetaAddressType.values.tail.find? (fun type => piece = type.toString) with
    | none => rw [hfind] at htype; exact absurd rfl htype
    | some type =>
      have heq := List.find?_some hfind
      exact ⟨type, (of_decide_eq_true heq).symm⟩
  obtain ⟨type, rfl⟩ := hname
  exact ⟨type, hpiece⟩

/-- The name that is read goes past the `_`. -/
theorem toString_prefix_of {type' : MetaAddressType} {rest : Text}
    (h : type'.toString = type.toString ++ '_' :: rest ∨
      type'.toString ++ [':'] <+: type.toString ++ '_' :: rest) :
    type.toString ++ ['_'] <+: type'.toString := by
  have hstart : type.toString ++ ['_'] <+: type.toString ++ '_' :: rest :=
    ⟨rest, by rw [List.append_assoc, List.singleton_append]⟩
  rcases h with h | h
  · rwa [h]
  rcases List.prefix_or_prefix_of_prefix h hstart with hshort | hlong
  · -- The name of a type has no `:`.
    have hmem := hshort.subset (List.mem_append_right _ (List.mem_singleton_self ':'))
    rw [List.mem_append, List.mem_singleton] at hmem
    rcases hmem with hmem | hmem
    · exact absurd hmem (MetaAddressType.colon_notMem_toString type)
    · cases hmem
  · rcases List.prefix_concat_iff.mp hlong with heq | hname
    · cases (List.append_inj' heq rfl).2
    · exact hname

section Tail

variable {type : MetaAddressType} (htype : type.isCode = true) {rest : Text}
include htype

/-- The jump goes past the type and what could complete its name. -/
theorem rehydrate_typed (rest : Text) (hnot : '_' ∉ address) (hlength : 3 ≤ address.length)
    (hlast : address.getLast? ≠ some 'e') :
    ∃ next, 2 * address.length + 14 ≤ next ∧
      rehydrate (address ++ '_' :: (type.toString ++ rest)) 0 =
        rehydrate (address ++ ':' :: (type.toString ++ rest)) next := by
  have hconsume := length_consumeFromString htype rest
  obtain ⟨hmin, -⟩ := length_toString_of_isCode htype
  have htail : (type.toString.drop 5 ++ rest).length + 5 = type.toString.length + rest.length := by
    rw [List.length_append, List.length_drop]
    omega
  have htext : type.toString ++ rest = "Code_".toList ++ (type.toString.drop 5 ++ rest) := by
    rw [← List.append_assoc, ← toString_eq_of_isCode htype]
  have hne : address ≠ [] := by
    rintro rfl
    cases hlength
  rw [htext] at hconsume ⊢
  exact ⟨_, by omega, rehydrate_code hnot hne hlast (by omega)⟩

/-- A type with nothing after it is turned back whole. -/
theorem rehydrate_typed_nil (hnot : '_' ∉ address) (hlength : 3 ≤ address.length)
    (hlast : address.getLast? ≠ some 'e') :
    rehydrate (address ++ '_' :: type.toString) 0 = address ++ ':' :: type.toString := by
  obtain ⟨next, hnext, heq⟩ := rehydrate_typed htype [] hnot hlength hlast
  obtain ⟨-, hmax⟩ := length_toString_of_isCode htype
  rw [List.append_nil] at heq
  rw [heq, rehydrate_of_le (by simp; omega)]

/-- The `_` after a type stays, so the text is read only as another type. -/
theorem rehydrate_typed_cons (hnot : '_' ∉ address) (hcolon : ':' ∉ address)
    (hlength : 3 ≤ address.length) (hlast : address.getLast? ≠ some 'e') (hrest : ':' ∉ rest)
    {c : Char} (hc : rest.head? = some c) (hdigit : c.isDigit = true)
    (hvalid : (MetaAddress.fromString .llvm
      (rehydrate (address ++ '_' :: (type.toString ++ '_' :: rest)) 0)).isValid = true) :
    type = .codeX86 ∧ rest = "64".toList := by
  obtain ⟨next, hnext, heq⟩ := rehydrate_typed htype ('_' :: rest) hnot hlength hlast
  obtain ⟨-, hmax⟩ := length_toString_of_isCode htype
  obtain ⟨w, hw, hrehydrated⟩ := rehydrate_eq (address ++ ':' :: (type.toString ++ '_' :: rest)) next
  rw [heq, hw] at hvalid
  -- The part that stays reaches past the type and its `_`.
  obtain ⟨j, rfl⟩ : ∃ j, next = address.length + (type.toString.length + (j + 1) + 1) :=
    ⟨next - address.length - 1 - type.toString.length - 1, by omega⟩
  simp only [List.take_length_add_append, List.drop_length_add_append, List.take_succ_cons,
    List.drop_succ_cons, List.append_assoc, List.cons_append] at hvalid hrehydrated
  have hsize : (rest.take j ++ w).length = rest.length := by
    rw [List.length_append, ← hrehydrated.length_eq, ← List.length_append, List.take_append_drop]
  have hsame : ∀ i < j, (rest.take j ++ w)[i]? = rest[i]? := fun i hi => by
    rcases Nat.lt_or_ge i rest.length with hlt | hge
    · have htake : i < (rest.take j).length := by
        rw [List.length_take]
        omega
      rw [List.getElem?_append_left htake, List.getElem?_take_of_lt hi]
    · rw [List.getElem?_eq_none (by omega), List.getElem?_eq_none hge]
  obtain ⟨type', htype'⟩ := type_of_fromString hcolon hvalid
  generalize rest.take j ++ w = read at hsize hsame htype'
  have hmore {more : Text} (h : type'.toString = type.toString ++ '_' :: more) :
      more = read ∨ more ++ [':'] <+: read := by
    rw [h] at htype'
    refine htype'.imp (fun heq => ?_) fun hstart => ?_
    · exact (List.cons.inj (List.append_cancel_left heq)).2
    · rw [List.append_assoc, List.prefix_append_right_inj, List.cons_append] at hstart
      exact (List.cons_prefix_cons.mp hstart).2
  have hat {more : Text} (h : more = read ∨ more ++ [':'] <+: read) {d : Char} {i : Nat} (hi : i < j)
      (hd : more[i]? = some d) : rest[i]? = some d := by
    rw [← hsame i hi]
    rcases h with rfl | ⟨later, rfl⟩
    · exact hd
    · rw [List.append_assoc, List.getElem?_append_left (List.getElem?_eq_some_iff.mp hd).1, hd]
  rcases toString_of_prefix (toString_prefix_of htype') with ⟨rfl, hname⟩ | ⟨rfl, hname⟩
  · have hj : 3 ≤ j := by
      have : MetaAddressType.codeX86.toString.length = 8 := rfl
      omega
    refine ⟨rfl, ?_⟩
    rcases hmore hname with rfl | ⟨later, rfl⟩
    · refine (List.ext_getElem? fun i => ?_).symm
      rcases Nat.lt_or_ge i j with hi | hi
      · exact hsame i hi
      · rw [List.getElem?_eq_none (Nat.le_trans (by decide) (Nat.le_trans hj hi)),
          List.getElem?_eq_none (by rw [← hsize]; exact Nat.le_trans (by decide) (Nat.le_trans hj hi))]
    · have hthird : rest[2]? = some ':' := by
        rw [← hsame 2 (by omega)]
        rfl
      exact absurd (List.mem_of_getElem? hthird) hrest
  · have hfirst := hat (hmore hname) (i := 0) (by omega) rfl
    rw [← List.head?_eq_getElem?, hc] at hfirst
    cases hfirst
    cases hdigit

end Tail

/-! ## Addresses of functions -/

variable {a : MetaAddress}

def hexAddress (a : MetaAddress) : Text := '0' :: 'x' :: IntegerText.llvm.utohexstr a.address.toNat

/-- The epoch and the address space, as far as they are printed. -/
def spaceText (a : MetaAddress) : Text :=
  (if a.epoch ≠ 0 then '_' :: decimal a.epoch.toNat else []) ++
    if a.addressSpace ≠ 0 then '_' :: decimal a.addressSpace.toNat else []

theorem toIdentifier_eq (hverify : a.verify = true) :
    a.toIdentifier .llvm .invalid = some (hexAddress a ++ '_' :: (a.type.toString ++ spaceText a)) := by
  have hvalid : a.isInvalid = false := by
    simp only [MetaAddress.verify, Bool.and_eq_true, decide_eq_true_eq] at hverify
    simpa [MetaAddress.isInvalid] using hverify.1.1
  rw [MetaAddress.toIdentifier, MetaAddress.toStringImpl, hvalid, if_neg Bool.false_ne_true,
    if_neg (by simp)]
  simp [MetaAddress.printsType, hexAddress, spaceText, decimal, IntegerText.llvm]

theorem isAlphanum_of_mem_hexAddress {c : Char} (h : c ∈ hexAddress a) : c.isAlphanum = true := by
  rcases List.mem_cons.mp h with rfl | h
  · rfl
  rcases List.mem_cons.mp h with rfl | h
  · rfl
  · exact IntegerText.llvm.isAlphanum_utohexstr h

theorem notMem_hexAddress {c : Char} (h : c.isAlphanum = false) : c ∉ hexAddress a := fun hmem => by
  rw [isAlphanum_of_mem_hexAddress hmem] at h
  cases h

theorem getLast?_hexAddress (a : MetaAddress) : (hexAddress a).getLast? ≠ some 'e' := by
  have hne : IntegerText.llvm.utohexstr a.address.toNat ≠ [] :=
    Numeral.writeDigits_ne_nil (by decide) _
  have hdigit : ∀ d < 16, d.digitChar.toUpper ≠ 'e' := by decide
  rw [hexAddress, List.getLast?_cons_cons, List.getLast?_cons_of_ne_nil hne]
  exact fun h => Numeral.forall_mem_writeDigits (p := (· ≠ 'e')) (by decide) hdigit _ _
    (List.mem_of_getLast? h) rfl

theorem length_hexAddress (a : MetaAddress) : 3 ≤ (hexAddress a).length := by
  have hpos : 0 < (IntegerText.llvm.utohexstr a.address.toNat).length :=
    List.length_pos_of_ne_nil (Numeral.writeDigits_ne_nil (by decide) _)
  simp only [hexAddress, List.length_cons]
  omega

/-- An address is read when only its type follows. -/
theorem isValid_fromString_typed (hverify : a.verify = true) (hepoch : a.epoch = 0)
    (hspace : a.addressSpace = 0) :
    (MetaAddress.fromString .llvm (hexAddress a ++ ':' :: a.type.toString)).isValid = true := by
  have hvalid : a.isValid = true := by
    simp only [MetaAddress.verify, Bool.and_eq_true, decide_eq_true_eq] at hverify
    simpa [MetaAddress.isValid, MetaAddress.isInvalid] using hverify.1.1
  have hprints : a.printsType .invalid = true := rfl
  have hparts : a.parts .llvm .invalid = [hexAddress a, a.type.toString] := by
    simp [MetaAddress.parts, hprints, hepoch, hspace, hexAddress]
  have hread : MetaAddress.fromString .llvm ([':'].intercalate (a.parts .llvm .invalid)) =
      ((MetaAddress.readParts .llvm (a.parts .llvm .invalid)).map MetaAddress.validate).getD
        MetaAddress.invalid := MetaAddress.fromString_parts
  rw [MetaAddress.readParts_of_printsType hvalid hprints, if_neg fun h => h.2 hspace, hparts] at hread
  rw [show hexAddress a ++ ':' :: a.type.toString =
    [':'].intercalate [hexAddress a, a.type.toString] by simp [List.intercalate], hread,
    Option.map_some, Option.getD_some, MetaAddress.validate_of_verify hverify, hvalid]

theorem isValid_fromString_rehydrate (hverify : a.verify = true) (hcode : a.type.isCode = true)
    (hepoch : a.epoch = 0) (hspace : a.addressSpace = 0) :
    (MetaAddress.fromString .llvm
      (rehydrate (hexAddress a ++ '_' :: a.type.toString) 0)).isValid = true := by
  rw [rehydrate_typed_nil hcode (notMem_hexAddress rfl) (length_hexAddress a)
    (getLast?_hexAddress a)]
  exact isValid_fromString_typed hverify hepoch hspace

theorem decimal_eq_iff {w : Nat} {n : BitVec w} (hw : 6 < w) :
    decimal n.toNat = "64".toList ↔ n = 64 := by
  have hsixtyFour : (64 : BitVec w).toNat = 64 :=
    Nat.mod_eq_of_lt (Nat.pow_lt_pow_right (by decide : 1 < 2) hw)
  refine ⟨fun h => BitVec.eq_of_toNat_eq ?_, ?_⟩
  · rw [hsixtyFour]
    exact decimal_injective h
  · rintro rfl
    rw [hsixtyFour]
    rfl

/-- The epoch and the address space complete the name of another type only as a single `64`. -/
theorem spaceText_eq_iff :
    spaceText a = '_' :: "64".toList ↔
      (a.epoch = 64 ∧ a.addressSpace = 0) ∨ (a.epoch = 0 ∧ a.addressSpace = 64) := by
  rw [spaceText]
  by_cases he : a.epoch = 0
  · by_cases hs : a.addressSpace = 0
    · simp [he, hs]
    · rw [if_neg (not_not_intro he), if_pos hs, List.nil_append, List.cons.injEq,
        decimal_eq_iff (by decide)]
      simp [he]
  · by_cases hs : a.addressSpace = 0
    · rw [if_pos he, if_neg (not_not_intro hs), List.append_nil, List.cons.injEq,
        decimal_eq_iff (by decide)]
      simp [hs]
    · have hmem : '_' ∈ decimal a.epoch.toNat ++ '_' :: decimal a.addressSpace.toNat := by simp
      refine iff_of_false (fun h => ?_) (by tauto)
      rw [if_pos he, if_pos hs, List.cons_append] at h
      rw [(List.cons.inj h).2] at hmem
      revert hmem
      decide

theorem spaceText_eq_nil : spaceText a = [] ↔ a.epoch = 0 ∧ a.addressSpace = 0 := by
  simp [spaceText]

/-- What is printed starts with a digit, after a `_`. -/
theorem spaceText_eq_cons (h : spaceText a ≠ []) :
    ∃ c rest, spaceText a = '_' :: rest ∧ rest.head? = some c ∧ c.isDigit = true ∧ ':' ∉ rest := by
  have hdecimal (n : Nat) (rest : Text) :
      ∃ c, (decimal n ++ rest).head? = some c ∧ c.isDigit = true := by
    obtain ⟨c, digits, heq⟩ := List.exists_cons_of_ne_nil (decimal_ne_nil n)
    exact ⟨c, by rw [heq]; rfl, isDigit_of_mem_decimal (heq ▸ List.mem_cons_self)⟩
  have hcolon (n : Nat) : ':' ∉ decimal n := fun h => by
    have := isDigit_of_mem_decimal h
    cases this
  rw [Ne, spaceText_eq_nil] at h
  by_cases he : a.epoch = 0
  · have hs : a.addressSpace ≠ 0 := fun hs => h ⟨he, hs⟩
    obtain ⟨c, hc, hdigit⟩ := hdecimal a.addressSpace.toNat []
    rw [List.append_nil] at hc
    exact ⟨c, _, by rw [spaceText, if_neg (not_not_intro he), if_pos hs, List.nil_append], hc, hdigit,
      hcolon _⟩
  · obtain ⟨c, hc, hdigit⟩ := hdecimal a.epoch.toNat
      (if a.addressSpace ≠ 0 then '_' :: decimal a.addressSpace.toNat else [])
    refine ⟨c, _, by rw [spaceText, if_pos he, List.cons_append], hc, hdigit, ?_⟩
    rw [List.mem_append, not_or]
    refine ⟨hcolon _, ?_⟩
    split
    · rw [List.mem_cons, not_or]
      exact ⟨by decide, hcolon _⟩
    · exact List.not_mem_nil

/-- The name of a function is recognised exactly when its entry has neither an epoch nor an address
space, or they complete the name of another type. -/
theorem isPrefixAndAddress_iff (hverify : a.verify = true) (hcode : a.type.isCode = true)
    (start : Text) {identifier : Text} (h : a.toIdentifier .llvm .invalid = some identifier) :
    isPrefixAndAddress (start ++ identifier) start = true ↔
      (a.epoch = 0 ∧ a.addressSpace = 0) ∨
        (a.type = .codeX86 ∧ ((a.epoch = 64 ∧ a.addressSpace = 0) ∨
          (a.epoch = 0 ∧ a.addressSpace = 64))) := by
  rw [toIdentifier_eq hverify] at h
  cases h
  rw [isPrefixAndAddress, List.isPrefixOf_iff_prefix.mpr (List.prefix_append _ _), List.drop_left,
    Bool.true_and, ← spaceText_eq_iff, ← spaceText_eq_nil]
  refine ⟨fun hvalid => ?_, ?_⟩
  · refine or_iff_not_imp_left.mpr fun hne => ?_
    obtain ⟨c, rest, hrest, hc, hdigit, hcolon⟩ := spaceText_eq_cons hne
    rw [hrest] at hvalid ⊢
    obtain ⟨htype, rfl⟩ := rehydrate_typed_cons hcode (notMem_hexAddress rfl)
      (notMem_hexAddress rfl) (length_hexAddress a) (getLast?_hexAddress a) hcolon hc hdigit hvalid
    exact ⟨htype, rfl⟩
  · rintro (hnil | ⟨htype, hcons⟩)
    · obtain ⟨hepoch, hspace⟩ := spaceText_eq_nil.mp hnil
      rw [hnil, List.append_nil]
      exact isValid_fromString_rehydrate hverify hcode hepoch hspace
    · -- The name is the one of the same address in the other type.
      have hother : MetaAddress.verify ⟨0, 0, .codeX86_64, a.address⟩ = true := by
        have hmask : MetaAddressType.codeX86_64.addressMask = BitVec.allOnes 64 := rfl
        simp [MetaAddress.verify, hmask, MetaAddressType.alignment, Nat.mod_one, -BitVec.reduceAllOnes]
      have hvalid := isValid_fromString_rehydrate hother rfl rfl rfl
      rw [htype, hcons]
      exact hvalid

end Naming
