import Mathlib.Data.Option.Basic
import Revng.Binary.RawBinaryView

/-!
# What a read through the segments returns

A read finds the one segment that contains the first address and takes its bytes from the file
at the offset of that address.  Nothing checks that the segment goes on, nor that it has data,
up to the last address: the bytes are the ones of the segment exactly when some segment has
data for the whole range (`reads_iff`).
-/

namespace Binary

/-! ## Addresses -/

namespace MetaAddress

variable {a b : MetaAddress}

theorem isInvalid_eq_false : a.isInvalid = false ↔ a.isValid = true := by simp [isValid]

theorem addressLowerThan_eq_true : a.addressLowerThan b = some true ↔
    a.isValid = true ∧ b.isValid = true ∧ (a.epoch < b.epoch ∨ a.epoch = b.epoch ∧
      (a.addressSpace < b.addressSpace ∨ a.addressSpace = b.addressSpace ∧
        a.address < b.address)) := by
  rw [addressLowerThan]
  cases ha : a.isInvalid <;> cases hb : b.isInvalid <;> simp [isValid, ha, hb]

theorem addressLowerThanOrEqual_eq_true : a.addressLowerThanOrEqual b = some true ↔
    a.isValid = true ∧ b.isValid = true ∧ (a.epoch < b.epoch ∨ a.epoch = b.epoch ∧
      (a.addressSpace < b.addressSpace ∨ a.addressSpace = b.addressSpace ∧
        a.address ≤ b.address)) := by
  rw [addressLowerThanOrEqual]
  cases ha : a.isInvalid <;> cases hb : b.isInvalid <;> simp [isValid, ha, hb]

theorem validate_eq_or (a : MetaAddress) : a.validate = a ∨ a.validate = invalid := by
  rw [validate]
  split
  · exact Or.inl rfl
  · exact Or.inr rfl

theorem toNat_lt_of_verify (h : a.verify = true) : a.address.toNat < 2 ^ a.type.bitSize := by
  simp only [verify, Bool.and_eq_true, decide_eq_true_eq] at h
  obtain ⟨⟨htype, -⟩, hmask⟩ := h
  have hle : a.address.toNat ≤ a.type.addressMask.toNat := by
    rw [hmask, BitVec.toNat_and]
    exact Nat.and_le_right
  have hmask : a.type.addressMask.toNat < 2 ^ a.type.bitSize := by
    cases htypeOf : a.type <;> first | exact absurd htypeOf htype | decide
  omega

/-- A number that fits the type is not changed by its mask. -/
theorem and_addressMask {type : MetaAddressType} {n : Nat} (htype : type ≠ .invalid)
    (h : n < 2 ^ type.bitSize) : (BitVec.ofNat 64 n &&& type.addressMask).toNat = n := by
  have hmask : type.addressMask.toNat = 2 ^ type.bitSize - 1 := by
    cases type <;> first | exact absurd rfl htype | decide
  have hsize : 2 ^ type.bitSize ≤ 2 ^ 64 := by
    cases type <;> decide
  rw [BitVec.toNat_and, BitVec.toNat_ofNat, Nat.mod_eq_of_lt (by omega), hmask,
    Nat.and_two_pow_sub_one_eq_mod, Nat.mod_eq_of_lt h]

/-- A sum that is valid stays in the epoch and the address space, and did not overflow. -/
theorem add_valid {offset : BitVec 64} (h : (a.add offset).isValid = true) :
    a.isValid = true ∧ (a.add offset).epoch = a.epoch ∧
      (a.add offset).addressSpace = a.addressSpace ∧
      (a.add offset).address.toNat =
        a.address.toNat % 2 ^ a.type.bitSize + offset.toNat % 2 ^ a.type.bitSize ∧
      (a.add offset).address.toNat < 2 ^ a.type.bitSize := by
  rw [add] at h ⊢
  split at h
  next hinvalid => exact absurd (isInvalid_eq_false.mpr h) (by simp [hinvalid])
  next hvalid =>
    rw [if_neg hvalid]
    have htype : a.type ≠ .invalid := by simpa [isInvalid] using hvalid
    have hvalid : a.isValid = true := isInvalid_eq_false.mp (Bool.eq_false_iff.mpr hvalid)
    dsimp only at h ⊢
    split at h
    next hlt =>
      rw [if_pos hlt, setAddress]
      rw [setAddress] at h
      rcases validate_eq_or { a with
        address := .ofNat 64 _ &&& a.type.addressMask } with heq | heq
      · rw [heq]
        have haddress := and_addressMask htype hlt
        exact ⟨hvalid, rfl, rfl, haddress, Nat.lt_of_le_of_lt (Nat.le_of_eq haddress) hlt⟩
      · rw [heq] at h
        cases h
    next => cases h

end MetaAddress

/-! ## Segments -/

namespace Segment

open MetaAddress

variable {s : Segment} {a : MetaAddress}

/-- The address lies in the range of addresses of the segment. -/
def Covers (s : Segment) (a : MetaAddress) : Prop :=
  s.startAddress.epoch = a.epoch ∧ s.startAddress.addressSpace = a.addressSpace ∧
    s.startAddress.address.toNat ≤ a.address.toNat ∧
    a.address.toNat < s.endAddress.address.toNat

theorem containsAddress_eq_true : s.containsAddress a = some true ↔
    a.isValid = true ∧ s.endAddress.isValid = true ∧ s.Covers a := by
  constructor
  · intro h
    rw [containsAddress] at h
    split at h
    next => simp at h
    next =>
      obtain ⟨above, habove, h⟩ := Option.bind_eq_some_iff.mp h
      split at h
      next htrue =>
        subst htrue
        obtain ⟨-, ha, hstart⟩ := addressLowerThanOrEqual_eq_true.mp habove
        obtain ⟨-, hvalid, hend⟩ := addressLowerThan_eq_true.mp h
        obtain ⟨-, hepoch, hspace, -⟩ := add_valid hvalid
        rw [← endAddress] at hepoch hspace
        rw [hepoch, hspace] at hend
        refine ⟨ha, hvalid, ?_⟩
        simp only [BitVec.lt_def, BitVec.le_def, ← BitVec.toNat_inj] at hstart hend
        simp only [Covers, ← BitVec.toNat_inj]
        omega
      next => simp at h
  · rintro ⟨ha, hvalid, hepoch, hspace, hstart, hend⟩
    obtain ⟨hstartValid, hepoch', hspace', -⟩ := add_valid hvalid
    rw [← endAddress] at hepoch' hspace'
    have habove : s.startAddress.addressLowerThanOrEqual a = some true :=
      addressLowerThanOrEqual_eq_true.mpr
        ⟨hstartValid, ha, Or.inr ⟨hepoch, Or.inr ⟨hspace, hstart⟩⟩⟩
    have hbelow : a.addressLowerThan s.endAddress = some true :=
      addressLowerThan_eq_true.mpr ⟨ha, hvalid, Or.inr ⟨by rw [hepoch', hepoch],
        Or.inr ⟨by rw [hspace', hspace], hend⟩⟩⟩
    rw [containsAddress, isInvalid_eq_false.mpr ha, if_neg Bool.false_ne_true, habove]
    exact hbelow

/-- The segment has data for the given number of addresses. -/
def Backs (s : Segment) (a : MetaAddress) (size : Nat) : Prop :=
  s.endAddress.isValid = true ∧ s.startAddress.epoch = a.epoch ∧
    s.startAddress.addressSpace = a.addressSpace ∧
    s.startAddress.address.toNat ≤ a.address.toNat ∧
    a.address.toNat + size ≤ s.endAddress.address.toNat ∧
    a.address.toNat - s.startAddress.address.toNat + size ≤ s.fileSize.toNat

instance : Decidable (s.Backs a n) := inferInstanceAs (Decidable (_ ∧ _))

/-- The data of the segment stays in its range of addresses, and its end can be represented. -/
def Fits (s : Segment) : Prop :=
  s.endAddress.isValid = true ∧
  s.startAddress.address.toNat + s.fileSize.toNat ≤ s.endAddress.address.toNat ∧
    s.startOffset.toNat + s.fileSize.toNat < 2 ^ 64

/-- The offset in the file of an address of the segment. -/
def Maps (s : Segment) (a : MetaAddress) (offset : BitVec 64) : Prop :=
  offset.toNat = s.startOffset.toNat + (a.address.toNat - s.startAddress.address.toNat)

/-- The address of an offset in the data of the segment. -/
def addressOf (s : Segment) (offset : BitVec 64) : MetaAddress :=
  s.startAddress.add (offset - s.startOffset)

theorem Backs.containsAddress {size : Nat} (h : s.Backs a size) (ha : a.isValid = true)
    (hsize : 0 < size) : s.containsAddress a = some true := by
  obtain ⟨hvalid, hepoch, hspace, hstart, hend, -⟩ := h
  exact containsAddress_eq_true.mpr ⟨ha, hvalid, hepoch, hspace, hstart, by omega⟩

theorem contains_zero : s.contains a 0 = s.containsAddress a := by
  rw [contains]
  cases s.containsAddress a with
  | none => rfl
  | some first => cases first <;> rfl

theorem containsAddress_of_contains {size : BitVec 64} (h : s.contains a size = some true) :
    s.containsAddress a = some true := by
  obtain ⟨first, hfirst, h⟩ := Option.bind_eq_some_iff.mp h
  cases first with
  | true => exact hfirst
  | false => simp at h

end Segment

/-! ## Finding a segment -/

section FindMatch

variable {α : Type} {p : α → Option Bool}

theorem findMatch_some_iff {xs : List α} {x y : α} :
    findMatch p xs (some x) = some (some y) ↔ x = y ∧ ∀ z ∈ xs, p z = some false := by
  induction xs with
  | nil => simp [findMatch]
  | cons z rest ih =>
    rw [findMatch]
    cases hz : p z with
    | none => simp [hz]
    | some found => cases found <;> simp [hz, ih]

/-- What is found is the only match. -/
theorem findMatch_none_iff {xs : List α} {x : α} : findMatch p xs none = some (some x) ↔
    (∀ y ∈ xs, p y ≠ none) ∧ xs.filter (fun y => p y = some true) = [x] := by
  induction xs with
  | nil => simp [findMatch]
  | cons z rest ih =>
    rw [findMatch]
    cases hz : p z with
    | none => simp [hz]
    | some found =>
      cases found with
      | false => simp [hz, ih]
      | true =>
        have hother (w : α) : p w = some false ↔ p w ≠ none ∧ p w ≠ some true := by
          rcases p w with - | (- | -) <;> simp
        simp only [Option.bind_eq_bind, Option.bind_some, if_true, findMatch_some_iff, hother,
          List.forall_mem_cons, List.filter_cons, hz, decide_true, List.cons.injEq,
          List.filter_eq_nil_iff, decide_eq_true_eq, ne_eq, reduceCtorEq, not_false_eq_true,
          true_and]
        exact ⟨fun h => ⟨fun w hw => (h.2 w hw).1, h.1, fun w hw => (h.2 w hw).2⟩,
          fun h => ⟨h.2.1, fun w hw => ⟨h.1 w hw, h.2.2 w hw⟩⟩⟩

theorem eq_of_filter_eq {q : α → Bool} {xs : List α} {x : α} (h : xs.filter q = [x]) :
    x ∈ xs ∧ q x = true ∧ ∀ y ∈ xs, q y = true → y = x := by
  have hmem (y : α) : y ∈ xs ∧ q y = true ↔ y = x := by
    rw [← List.mem_filter, h, List.mem_singleton]
  obtain ⟨hx, hq⟩ := (hmem x).mpr rfl
  exact ⟨hx, hq, fun y hy hq => (hmem y).mp ⟨hy, hq⟩⟩

end FindMatch

theorem safeAdd_eq_some {x y z : BitVec 64} (h : safeAdd x y = some z) :
    z.toNat = x.toNat + y.toNat := by
  rw [safeAdd] at h
  split at h
  next hlt =>
    cases h
    rw [BitVec.toNat_add, Nat.mod_eq_of_lt hlt]
  next => cases h

theorem safeSub_eq_some {x y z : BitVec 64} (h : safeSub x y = some z) :
    y.toNat ≤ x.toNat ∧ z.toNat = x.toNat - y.toNat := by
  rw [safeSub] at h
  split at h
  next hle =>
    cases h
    rw [BitVec.le_def] at hle
    exact ⟨hle, BitVec.toNat_sub_of_le hle⟩
  next => cases h

/-! ## Reads -/

namespace RawBinaryView

open MetaAddress

variable {view : RawBinaryView} {a : MetaAddress} {size : BitVec 64} {bytes : List UInt8}

/-- The byte of the file at an offset. -/
def fileByte (view : RawBinaryView) (offset : Nat) : Option UInt8 :=
  match view.provider with
  | some provider => some (provider.content offset)
  | none => view.data[offset]?

variable {offset : BitVec 64}

theorem getByOffset_eq_some (h : view.getByOffset offset size = some bytes) :
    bytes.length = size.toNat ∧
      ∀ i < bytes.length, bytes[i]? = view.fileByte (offset.toNat + i) := by
  rw [getByOffset] at h
  split at h
  next provider hprovider =>
    have hbytes := provider.getByOffset_eq h
    have hlength : bytes.length = size.toNat := by simp [hbytes]
    refine ⟨hlength, fun i hi => ?_⟩
    rw [hlength] at hi
    simp [fileByte, hbytes, hprovider, hi]
  next hnone =>
    obtain ⟨sum, hsum, h⟩ := Option.bind_eq_some_iff.mp h
    obtain ⟨_, hle, h⟩ := Option.bind_eq_some_iff.mp h
    cases h
    rw [Option.guard_eq_some'] at hle
    have hsum := safeAdd_eq_some hsum
    have hlength : ((view.data.drop offset.toNat).take size.toNat).length = size.toNat := by
      rw [List.length_take, List.length_drop]
      omega
    refine ⟨hlength, fun i hi => ?_⟩
    rw [hlength] at hi
    have hbyte : view.fileByte (offset.toNat + i) = view.data[offset.toNat + i]? := by
      simp only [fileByte, hnone]
    rw [hbyte, List.getElem?_take_of_lt hi, List.getElem?_drop]

variable {s : Segment}

/-- Exactly one segment covers the address. -/
def CoversAddress (view : RawBinaryView) (s : Segment) (a : MetaAddress) : Prop :=
  view.segments.filter (fun t => t.containsAddress a = some true) = [s]

theorem CoversAddress.spec (h : view.CoversAddress s a) :
    s ∈ view.segments ∧ s.containsAddress a = some true ∧
      ∀ t ∈ view.segments, t.containsAddress a = some true → t = s := by
  obtain ⟨hmem, hcontains, hunique⟩ := eq_of_filter_eq h
  exact ⟨hmem, of_decide_eq_true hcontains, fun t ht htrue => hunique t ht (decide_eq_true htrue)⟩

theorem findOffsetInSegment_iff : view.findOffsetInSegment a 0 = some (some (s, offset)) ↔
    (∀ t ∈ view.segments, t.containsAddress a ≠ none) ∧ view.CoversAddress s a ∧
      offset.toNat = a.address.toNat - s.startAddress.address.toNat := by
  have hfind (t : Segment) : findMatch (·.contains a 0) view.segments none = some (some t) ↔
      (∀ t ∈ view.segments, t.containsAddress a ≠ none) ∧ view.CoversAddress t a := by
    simp only [findMatch_none_iff, Segment.contains_zero]
    rfl
  rw [findOffsetInSegment, Option.bind_eq_bind, Option.bind_eq_some_iff]
  constructor
  · rintro ⟨found, hfound, h⟩
    cases found with
    | none => cases h
    | some t =>
      obtain ⟨k, hk, heq⟩ := Option.map_eq_some_iff.mp (Option.some.inj h)
      cases heq
      obtain ⟨hnone, hcovers⟩ := (hfind s).mp hfound
      exact ⟨hnone, hcovers, (safeSub_eq_some hk).2⟩
  · rintro ⟨hnone, hcovers, hoffset⟩
    refine ⟨some s, (hfind s).mpr ⟨hnone, hcovers⟩, ?_⟩
    obtain ⟨-, -, -, -, hle, -⟩ := Segment.containsAddress_eq_true.mp hcovers.spec.2.1
    have hsub : a.address - s.startAddress.address = offset :=
      BitVec.eq_of_toNat_eq ((BitVec.toNat_sub_of_le hle).trans hoffset.symm)
    simp [safeSub, BitVec.le_def.mpr hle, hsub]

/-- The segment that was found is the only one that contains the address. -/
theorem findOffsetInSegment_eq_some (h : view.findOffsetInSegment a 0 = some (some (s, offset))) :
    s ∈ view.segments ∧ s.containsAddress a = some true ∧
      (∀ t ∈ view.segments, t.containsAddress a = some true → t = s) ∧
      offset.toNat = a.address.toNat - s.startAddress.address.toNat := by
  obtain ⟨-, hcovers, hoffset⟩ := findOffsetInSegment_iff.mp h
  obtain ⟨hmem, hcontains, hunique⟩ := hcovers.spec
  exact ⟨hmem, hcontains, hunique, hoffset⟩

theorem addressToOffset_iff : view.addressToOffset a 0 = some (some offset) ↔
    (∀ t ∈ view.segments, t.containsAddress a ≠ none) ∧
      ∃ s, view.CoversAddress s a ∧ s.Maps a offset := by
  rw [addressToOffset, Option.bind_eq_bind, Option.bind_eq_some_iff]
  constructor
  · rintro ⟨found, hfound, h⟩
    cases found with
    | none => cases h
    | some found =>
      obtain ⟨s, k⟩ := found
      obtain ⟨hnone, hcovers, hk⟩ := findOffsetInSegment_iff.mp hfound
      have hoffset := safeAdd_eq_some (Option.some.inj h)
      exact ⟨hnone, s, hcovers, by rw [Segment.Maps, hoffset, hk]⟩
  · rintro ⟨hnone, s, hcovers, hmaps⟩
    rw [Segment.Maps] at hmaps
    have hbound := offset.isLt
    have hk : (offset - s.startOffset).toNat =
        a.address.toNat - s.startAddress.address.toNat := by
      rw [BitVec.toNat_sub_of_le (BitVec.le_def.mpr (by omega))]
      omega
    refine ⟨some (s, offset - s.startOffset), findOffsetInSegment_iff.mpr ⟨hnone, hcovers, hk⟩, ?_⟩
    have hadd : s.startOffset + (offset - s.startOffset) = offset := by
      rw [BitVec.add_comm, BitVec.sub_add_cancel]
    simp [safeAdd, hk, hadd, ← hmaps, hbound]

theorem addressToOffset_eq_some (h : view.addressToOffset a 0 = some (some offset)) :
    ∃ s ∈ view.segments, s.containsAddress a = some true ∧
      (∀ t ∈ view.segments, t.containsAddress a = some true → t = s) ∧ s.Maps a offset := by
  obtain ⟨-, s, hcovers, hmaps⟩ := addressToOffset_iff.mp h
  obtain ⟨hmem, hcontains, hunique⟩ := hcovers.spec
  exact ⟨s, hmem, hcontains, hunique, hmaps⟩

/-- The bytes are the ones the segment maps at the addresses from `a` on. -/
def BackedBy (view : RawBinaryView) (s : Segment) (a : MetaAddress) (bytes : List UInt8) : Prop :=
  s.Backs a bytes.length ∧ ∀ i < bytes.length, bytes[i]? = view.fileByte
    (s.startOffset.toNat + (a.address.toNat - s.startAddress.address.toNat) + i)

/-- One segment maps all the bytes. -/
def Backed (view : RawBinaryView) (a : MetaAddress) (bytes : List UInt8) : Prop :=
  bytes = [] ∨ ∃ s ∈ view.segments, view.BackedBy s a bytes

/-- Some segment has data for the whole range. -/
def HasData (view : RawBinaryView) (a : MetaAddress) (size : Nat) : Prop :=
  ∃ s ∈ view.segments, s.Backs a size

theorem getByAddress_eq_some (h : view.getByAddress a size = some (some bytes)) :
    ∃ s ∈ view.segments, s.containsAddress a = some true ∧
      (∀ t ∈ view.segments, t.containsAddress a = some true → t = s) ∧
      bytes.length = size.toNat ∧ ∀ i < bytes.length, bytes[i]? = view.fileByte
        (s.startOffset.toNat + (a.address.toNat - s.startAddress.address.toNat) + i) := by
  obtain ⟨found, hfound, h⟩ := Option.bind_eq_some_iff.mp h
  cases found with
  | none => cases h
  | some offset =>
    obtain ⟨s, hmem, hcontains, hunique, hoffset⟩ := addressToOffset_eq_some hfound
    obtain ⟨hlength, hbytes⟩ := getByOffset_eq_some (Option.some.inj h)
    rw [Segment.Maps] at hoffset
    rw [hoffset] at hbytes
    exact ⟨s, hmem, hcontains, hunique, hlength, hbytes⟩

/-- Bytes taken from the file at the offset of the address. -/
theorem backed_iff (hcontains : s.containsAddress a = some true)
    (hunique : ∀ t ∈ view.segments, t.containsAddress a = some true → t = s)
    (hbytes : ∀ i < bytes.length, bytes[i]? = view.fileByte
      (s.startOffset.toNat + (a.address.toNat - s.startAddress.address.toNat) + i)) :
    view.Backed a bytes ↔ bytes = [] ∨ view.HasData a bytes.length := by
  have ha : a.isValid = true := (Segment.containsAddress_eq_true.mp hcontains).1
  constructor
  · rintro (hnil | ⟨t, ht, hbacks, -⟩)
    · exact Or.inl hnil
    · exact Or.inr ⟨t, ht, hbacks⟩
  · rintro (hnil | ⟨t, ht, hbacks⟩)
    · exact Or.inl hnil
    · rcases bytes.eq_nil_or_concat with hnil | ⟨_, _, hconcat⟩
      · exact Or.inl hnil
      · have hpos : 0 < bytes.length := by simp [hconcat]
        obtain rfl := hunique t ht (hbacks.containsAddress ha hpos)
        exact Or.inr ⟨t, ht, hbacks, hbytes⟩

theorem getByAddress_backed_iff (h : view.getByAddress a size = some (some bytes)) :
    view.Backed a bytes ↔ size = 0 ∨ view.HasData a size.toNat := by
  obtain ⟨s, -, hcontains, hunique, hlength, hbytes⟩ := getByAddress_eq_some h
  rw [backed_iff hcontains hunique hbytes, hlength, ← List.length_eq_zero_iff, hlength,
    ← BitVec.toNat_inj]
  rfl

variable {isLittleEndian : Bool}

variable {value : Nat}

theorem readInteger_eq_some (h : view.readInteger a size isLittleEndian = some (some value)) :
    ∃ bytes, view.getByAddress a size = some (some bytes) ∧ size.toNat ∈ [1, 2, 4, 8] ∧
      value = integerOf isLittleEndian bytes := by
  obtain ⟨found, hfound, h⟩ := Option.bind_eq_some_iff.mp h
  cases found with
  | none => cases h
  | some bytes =>
    obtain ⟨_, hsize, h⟩ := Option.bind_eq_some_iff.mp h
    rw [Option.guard_eq_some'] at hsize
    cases h
    exact ⟨bytes, hfound, hsize, rfl⟩

/-- The integer is the one of the bytes the segment maps. -/
def ReadsInteger (view : RawBinaryView) (s : Segment) (a : MetaAddress) (size : BitVec 64)
    (isLittleEndian : Bool) (value : Nat) : Prop :=
  ∃ bytes, bytes.length = size.toNat ∧ view.BackedBy s a bytes ∧
    value = integerOf isLittleEndian bytes

theorem readInteger_backed_iff (h : view.readInteger a size isLittleEndian = some (some value)) :
    (∃ s ∈ view.segments, view.ReadsInteger s a size isLittleEndian value) ↔
      view.HasData a size.toNat := by
  obtain ⟨bytes, hbytes, hsize, rfl⟩ := readInteger_eq_some h
  constructor
  · rintro ⟨s, hs, bytes', hlength, ⟨hbacks, -⟩, -⟩
    rw [hlength] at hbacks
    exact ⟨s, hs, hbacks⟩
  · intro hdata
    obtain ⟨-, -, -, -, hlength, -⟩ := getByAddress_eq_some hbytes
    rcases (getByAddress_backed_iff hbytes).mpr (Or.inr hdata) with hnil | ⟨s, hs, hbacked⟩
    · rw [hnil, List.length_nil] at hlength
      rw [← hlength] at hsize
      simp at hsize
    · exact ⟨s, hs, bytes, hlength, hbacked, rfl⟩

theorem getFromAddressOn_backed_iff (h : view.getFromAddressOn a = some (some bytes)) :
    view.Backed a bytes ↔
      ∃ s ∈ view.segments, s.containsAddress a = some true ∧ s.Fits := by
  obtain ⟨found, hfound, h⟩ := Option.bind_eq_some_iff.mp h
  cases found with
  | none => cases h
  | some found =>
    obtain ⟨s, k⟩ := found
    obtain ⟨hmem, hcontains, hunique, hk⟩ := findOffsetInSegment_eq_some hfound
    obtain ⟨start, hstart, h⟩ := Option.bind_eq_some_iff.mp (Option.some.inj h)
    obtain ⟨size, hsize, h⟩ := Option.bind_eq_some_iff.mp h
    obtain ⟨hlength, hbytes⟩ := getByOffset_eq_some h
    have hstart := safeAdd_eq_some hstart
    obtain ⟨hle, hsize⟩ := safeSub_eq_some hsize
    rw [hstart, hk] at hbytes
    obtain ⟨-, hvalid, hcovers⟩ := Segment.containsAddress_eq_true.mp hcontains
    obtain ⟨hepoch, hspace, hbelow, habove⟩ := hcovers
    -- The end of the data did not wrap around, since it is not before the start.
    have hend : s.endOffset.toNat = s.startOffset.toNat + s.fileSize.toNat := by
      have := s.fileSize.isLt
      have := s.startOffset.isLt
      rw [Segment.endOffset, BitVec.toNat_add] at hle ⊢
      omega
    rw [backed_iff hcontains hunique hbytes, ← List.length_eq_zero_iff, hlength]
    constructor
    · intro hdata
      refine ⟨s, hmem, hcontains, ?_⟩
      refine ⟨hvalid, ?_, hend ▸ s.endOffset.isLt⟩
      rcases Nat.eq_zero_or_pos size.toNat with hzero | hpos
      · omega
      · obtain ⟨t, ht, hbacks⟩ := hdata.resolve_left (Nat.ne_of_gt hpos)
        have ha := (Segment.containsAddress_eq_true.mp hcontains).1
        obtain rfl := hunique t ht (hbacks.containsAddress ha hpos)
        obtain ⟨-, -, -, -, habove, -⟩ := hbacks
        omega
    · rintro ⟨t, ht, htcontains, hfits⟩
      obtain rfl := hunique t ht htcontains
      obtain ⟨-, hfits, -⟩ := hfits
      refine Or.inr ⟨t, ht, hvalid, hepoch, hspace, hbelow, ?_, ?_⟩
      · omega
      · omega

/-! ## Constants -/

theorem isReadOnly_go {segments : List Segment} (h : isReadOnly.go a size segments = some true) :
    ∃ s ∈ segments, s.contains a size = some true ∧ s.isWriteable = false := by
  induction segments with
  | nil => simp [isReadOnly.go] at h
  | cons s rest ih =>
    have hrest (h : isReadOnly.go a size rest = some true) :
        ∃ t ∈ s :: rest, t.contains a size = some true ∧ t.isWriteable = false := by
      obtain ⟨t, ht, hcontains⟩ := ih h
      exact ⟨t, List.mem_cons_of_mem _ ht, hcontains⟩
    obtain ⟨found, hfound, h⟩ := Option.bind_eq_some_iff.mp h
    cases found with
    | false => exact hrest h
    | true =>
      cases hwriteable : s.isWriteable with
      | false => exact ⟨s, List.mem_cons_self .., hfound, hwriteable⟩
      | true =>
        rw [hwriteable] at h
        exact hrest h

theorem load_eq_constant (h : view.load a size isLittleEndian = some (.constant value)) :
    view.readInteger a size isLittleEndian = some (some value) ∧
      ∃ s ∈ view.segments, s.contains a size = some true ∧ s.isWriteable = false := by
  obtain ⟨found, hfound, h⟩ := Option.bind_eq_some_iff.mp h
  obtain ⟨readOnly, hreadOnly, h⟩ := Option.bind_eq_some_iff.mp h
  cases found with
  | none => cases h
  | some found =>
    cases readOnly with
    | false => cases h
    | true =>
      cases h
      exact ⟨hfound, isReadOnly_go hreadOnly⟩

/-- The constant is made of bytes of a segment that is not writeable. -/
theorem load_backed_iff (h : view.load a size isLittleEndian = some (.constant value)) :
    (∃ s ∈ view.segments, s.isWriteable = false ∧
      view.ReadsInteger s a size isLittleEndian value) ↔ view.HasData a size.toNat := by
  obtain ⟨hread, t, ht, hcontains, hwriteable⟩ := load_eq_constant h
  rw [← readInteger_backed_iff hread]
  constructor
  · rintro ⟨s, hs, -, hreads⟩
    exact ⟨s, hs, hreads⟩
  · rintro ⟨s, hs, hreads⟩
    refine ⟨s, hs, ?_, hreads⟩
    -- Both segments contain the address, and only one does.
    obtain ⟨bytes, hbytes, hsize, -⟩ := readInteger_eq_some hread
    obtain ⟨u, -, -, hunique, -⟩ := getByAddress_eq_some hbytes
    obtain rfl := hunique t ht (Segment.containsAddress_of_contains hcontains)
    obtain ⟨bytes', hlength, ⟨hbacks, -⟩, -⟩ := hreads
    have hpos : 0 < bytes'.length := by
      rw [hlength]
      simp only [List.mem_cons, List.not_mem_nil, or_false] at hsize
      omega
    have ha := (Segment.containsAddress_eq_true.mp
      (Segment.containsAddress_of_contains hcontains)).1
    rw [hunique s hs (hbacks.containsAddress ha hpos)]
    exact hwriteable

/-! ## Offsets and addresses -/

/-- Exactly one segment covers the offset. -/
def CoversOffset (view : RawBinaryView) (s : Segment) (offset : BitVec 64) : Prop :=
  view.segments.filter (·.containsOffset offset) = [s]

/-- The offset is found in one segment, and the address is counted from its start. -/
theorem offsetToAddress_iff {b : MetaAddress} (hb : b.isValid = true) :
    view.offsetToAddress offset = b ↔ ∃ s, view.CoversOffset s offset ∧ s.addressOf offset = b := by
  have hfind (t : Segment) :
      (findMatch (fun s => some (s.containsOffset offset)) view.segments none).join = some t ↔
        view.CoversOffset t offset := by
    simp [Option.join_eq_some_iff, findMatch_none_iff, CoversOffset]
  have heq {t : Segment} (ht : view.CoversOffset t offset) :
      view.offsetToAddress offset = t.addressOf offset := by
    have hcontains := (eq_of_filter_eq ht).2.1
    simp only [Segment.containsOffset, Bool.and_eq_true, decide_eq_true_eq] at hcontains
    simp [offsetToAddress, (hfind t).mpr ht, safeSub, hcontains.1, Segment.addressOf]
  constructor
  · rintro rfl
    cases hfound : (findMatch (fun s => some (s.containsOffset offset)) view.segments none).join with
    | none =>
      rw [offsetToAddress, hfound] at hb
      cases hb
    | some t => exact ⟨t, (hfind t).mp hfound, (heq ((hfind t).mp hfound)).symm⟩
  · rintro ⟨t, ht, rfl⟩
    exact heq ht

/-- From the address to its offset and back. -/
def AddressReturns (view : RawBinaryView) (a : MetaAddress) : Prop :=
  ∃ offset, view.addressToOffset a 0 = some (some offset) ∧
    (view.offsetToAddress offset).isValid = true ∧ (view.offsetToAddress offset).SameAddress a

/-- From the offset to its address and back. -/
def OffsetReturns (view : RawBinaryView) (offset : BitVec 64) : Prop :=
  (view.offsetToAddress offset).isValid = true ∧
    view.addressToOffset (view.offsetToAddress offset) 0 = some (some offset)

theorem addressReturns_iff (h : view.CoversAddress s a) : view.AddressReturns a ↔
    (∀ t ∈ view.segments, t.containsAddress a ≠ none) ∧ ∃ offset, s.Maps a offset ∧
      ∃ t, view.CoversOffset t offset ∧ (t.addressOf offset).isValid = true ∧
        (t.addressOf offset).SameAddress a := by
  simp only [AddressReturns, addressToOffset_iff]
  constructor
  · rintro ⟨offset, ⟨hnone, s', hcovers, hmaps⟩, hvalid, hsame⟩
    obtain rfl := h.spec.2.2 s' hcovers.spec.1 hcovers.spec.2.1
    obtain ⟨t, ht, heq⟩ := (offsetToAddress_iff hvalid).mp rfl
    exact ⟨hnone, offset, hmaps, t, ht, heq ▸ hvalid, heq ▸ hsame⟩
  · rintro ⟨hnone, offset, hmaps, t, ht, hvalid, hsame⟩
    have heq := (offsetToAddress_iff hvalid).mpr ⟨t, ht, rfl⟩
    exact ⟨offset, ⟨hnone, s, h, hmaps⟩, heq ▸ hvalid, heq ▸ hsame⟩

theorem offsetReturns_iff {t : Segment} (h : view.CoversOffset t offset) :
    view.OffsetReturns offset ↔ (t.addressOf offset).isValid = true ∧
      (∀ u ∈ view.segments, u.containsAddress (t.addressOf offset) ≠ none) ∧
      ∃ s, view.CoversAddress s (t.addressOf offset) ∧ s.Maps (t.addressOf offset) offset := by
  have heq (hvalid : (view.offsetToAddress offset).isValid = true) :
      view.offsetToAddress offset = t.addressOf offset := by
    obtain ⟨t', ht', heq⟩ := (offsetToAddress_iff hvalid).mp rfl
    obtain ⟨hmem, htrue, -⟩ := eq_of_filter_eq ht'
    rw [← heq, (eq_of_filter_eq h).2.2 t' hmem htrue]
  rw [OffsetReturns]
  constructor
  · rintro ⟨hvalid, hoffset⟩
    have haddress := heq hvalid
    rw [haddress] at hvalid hoffset
    exact ⟨hvalid, addressToOffset_iff.mp hoffset⟩
  · rintro ⟨hvalid, hfound⟩
    rw [(offsetToAddress_iff hvalid).mpr ⟨t, h, rfl⟩]
    exact ⟨hvalid, addressToOffset_iff.mpr hfound⟩

/-! ## Models that are verified -/

theorem containsAddress_ne_none (h : s.verify = true) : s.containsAddress a ≠ none := by
  simp only [Segment.verify, Bool.and_eq_true, isValid, Bool.not_eq_true'] at h
  rw [Segment.containsAddress]
  cases ha : a.isInvalid with
  | true => simp
  | false =>
    simp only [addressLowerThanOrEqual, addressLowerThan, h.1.1.1.1.1, ha, h.2, Bool.or_self,
      Bool.false_eq_true, if_false, Option.bind_eq_bind, Option.bind_some]
    split <;> exact Option.some_ne_none _

/-- An address of the segment comes from the offset that it is mapped to. -/
theorem addressOf_of_maps (h : s.verify = true) (hcontains : s.containsAddress a = some true)
    (hmaps : s.Maps a offset) :
    (s.addressOf offset).isValid = true ∧ (s.addressOf offset).SameAddress a := by
  simp only [Segment.verify, Bool.and_eq_true] at h
  have hstart := h.1.1.1.1.1
  obtain ⟨-, hend, hepoch, hspace, hle, hlt⟩ := Segment.containsAddress_eq_true.mp hcontains
  obtain ⟨-, -, -, -, hlimit⟩ := add_valid hend
  rw [← Segment.endAddress] at hlimit
  rw [Segment.Maps] at hmaps
  have hk : (offset - s.startOffset).toNat = a.address.toNat - s.startAddress.address.toNat := by
    rw [BitVec.toNat_sub_of_le (BitVec.le_def.mpr (by omega))]
    omega
  have hsum : s.startAddress.address.toNat % 2 ^ s.startAddress.type.bitSize +
      (offset - s.startOffset).toNat % 2 ^ s.startAddress.type.bitSize = a.address.toNat := by
    rw [hk, Nat.mod_eq_of_lt (by omega), Nat.mod_eq_of_lt (by omega)]
    omega
  have htype : s.startAddress.type ≠ .invalid := by
    simpa [isValid, isInvalid] using hstart
  have haddress : BitVec.ofNat 64 a.address.toNat &&& s.startAddress.type.addressMask =
      a.address := BitVec.eq_of_toNat_eq (and_addressMask htype (by omega))
  have hverify : verify { s.startAddress with address := a.address } = true := by
    have halignment : s.startAddress.type.alignment = 1 := by
      have hgeneric := h.1.1.1.1.2
      cases htypeOf : s.startAddress.type <;> simp_all [MetaAddressType.isGeneric] <;> rfl
    simp only [verify, halignment, Nat.mod_one, htype, ne_eq, not_false_eq_true, decide_true,
      Bool.true_and, decide_eq_true_eq]
    rw [BitVec.ofNat_toNat, BitVec.setWidth_eq] at haddress
    exact haddress.symm
  rw [Segment.addressOf, add, if_neg (by simpa [isValid] using hstart)]
  simp only [hsum, show a.address.toNat < 2 ^ s.startAddress.type.bitSize by omega, if_true,
    setAddress, haddress, validate_of_verify hverify]
  exact ⟨hstart, hepoch, hspace, rfl⟩

/-- The address of an offset in the data lies in the segment, which maps it back. -/
theorem containsAddress_addressOf (h : s.verify = true) (hfits : s.Fits)
    (hcontains : s.containsOffset offset = true) : (s.addressOf offset).isValid = true ∧
      s.containsAddress (s.addressOf offset) = some true ∧ s.Maps (s.addressOf offset) offset := by
  obtain ⟨hend, hfits, hlimit⟩ := hfits
  rw [Segment.containsOffset, Bool.and_eq_true, decide_eq_true_eq, decide_eq_true_eq,
    BitVec.le_def, BitVec.lt_def, Segment.endOffset, BitVec.toNat_add,
    Nat.mod_eq_of_lt hlimit] at hcontains
  have hstart := (add_valid hend).1
  have hbound := s.endAddress.address.isLt
  let b : MetaAddress := { s.startAddress with
    address := s.startAddress.address + (offset - s.startOffset) }
  have hb : b.address.toNat =
      s.startAddress.address.toNat + (offset.toNat - s.startOffset.toNat) := by
    rw [BitVec.toNat_add, BitVec.toNat_sub_of_le (BitVec.le_def.mpr hcontains.1),
      Nat.mod_eq_of_lt (by omega)]
  have hcovers (c : MetaAddress) (hc : c.isValid = true) (hsame : c.SameAddress b) :
      s.containsAddress c = some true ∧ s.Maps c offset := by
    obtain ⟨hepoch, hspace, haddress⟩ := hsame
    rw [Segment.Maps, haddress]
    exact ⟨Segment.containsAddress_eq_true.mpr ⟨hc, hend, hepoch.symm, hspace.symm,
      by rw [haddress]; omega, by rw [haddress]; omega⟩, by omega⟩
  obtain ⟨hcontains', hmaps⟩ := hcovers b hstart ⟨rfl, rfl, rfl⟩
  obtain ⟨hvalid, hsame⟩ := addressOf_of_maps h hcontains' hmaps
  exact ⟨hvalid, hcovers _ hvalid hsame⟩

/-- What a verified model maps is returned exactly if the segment alone covers what it is mapped to. -/
theorem returns_iff_of_verify (h : ∀ s ∈ view.segments, s.verify = true ∧ s.Fits) :
    (∀ s, view.CoversAddress s a → (view.AddressReturns a ↔
      ∃ offset, s.Maps a offset ∧ view.CoversOffset s offset)) ∧
    ∀ s offset, view.CoversOffset s offset → (view.OffsetReturns offset ↔
      view.CoversAddress s (s.addressOf offset)) := by
  have hnone (b : MetaAddress) : ∀ t ∈ view.segments, t.containsAddress b ≠ none :=
    fun t ht => containsAddress_ne_none (h t ht).1
  refine ⟨fun s hcovers => ?_, fun s offset hcovers => ?_⟩
  · obtain ⟨hs, hcontains, hunique⟩ := hcovers.spec
    rw [addressReturns_iff hcovers, and_iff_right (hnone a)]
    refine exists_congr fun offset => and_congr_right fun hmaps => ⟨?_, fun hoffset => ?_⟩
    · rintro ⟨t, ht, hvalid, hepoch, hspace, haddress⟩
      obtain ⟨hmem, htrue, -⟩ := eq_of_filter_eq ht
      obtain ⟨-, hend, hcovers'⟩ := Segment.containsAddress_eq_true.mp
        (containsAddress_addressOf (h t hmem).1 (h t hmem).2 htrue).2.1
      rw [Segment.Covers, hepoch, hspace, haddress] at hcovers'
      have ha := (Segment.containsAddress_eq_true.mp hcontains).1
      rw [← hunique t hmem (Segment.containsAddress_eq_true.mpr ⟨ha, hend, hcovers'⟩)]
      exact ht
    · exact ⟨s, hoffset, addressOf_of_maps (h s hs).1 hcontains hmaps⟩
  · obtain ⟨hs, htrue, -⟩ := eq_of_filter_eq hcovers
    obtain ⟨hvalid, hcontains, hmaps⟩ := containsAddress_addressOf (h s hs).1 (h s hs).2 htrue
    rw [offsetReturns_iff hcovers, and_iff_right hvalid, and_iff_right (hnone _)]
    constructor
    · rintro ⟨t, ht, -⟩
      obtain rfl := ht.spec.2.2 s hs hcontains
      exact ht
    · exact fun ht => ⟨s, ht, hmaps⟩

/-! ## All the reads -/

/-- Reads give the bytes of one segment exactly when some segment has data for the range.  What exactly
one segment covers is translated there and back exactly when what it is mapped to is covered by exactly
one segment, which maps it back. -/
theorem reads_iff (view : RawBinaryView) (a : MetaAddress) :
    (∀ size bytes, view.getByAddress a size = some (some bytes) →
      (view.Backed a bytes ↔ size = 0 ∨ view.HasData a size.toNat)) ∧
    (∀ size isLittleEndian value, view.readInteger a size isLittleEndian = some (some value) →
      ((∃ s ∈ view.segments, view.ReadsInteger s a size isLittleEndian value) ↔
        view.HasData a size.toNat)) ∧
    (∀ bytes, view.getFromAddressOn a = some (some bytes) →
      (view.Backed a bytes ↔ ∃ s ∈ view.segments, s.containsAddress a = some true ∧ s.Fits)) ∧
    (∀ size isLittleEndian value, view.load a size isLittleEndian = some (.constant value) →
      ((∃ s ∈ view.segments, s.isWriteable = false ∧
        view.ReadsInteger s a size isLittleEndian value) ↔ view.HasData a size.toNat)) ∧
    (∀ s, view.CoversAddress s a → (view.AddressReturns a ↔
      (∀ t ∈ view.segments, t.containsAddress a ≠ none) ∧ ∃ offset, s.Maps a offset ∧
        ∃ t, view.CoversOffset t offset ∧ (t.addressOf offset).isValid = true ∧
          (t.addressOf offset).SameAddress a)) ∧
    (∀ s offset, view.CoversOffset s offset → (view.OffsetReturns offset ↔
      (s.addressOf offset).isValid = true ∧
        (∀ t ∈ view.segments, t.containsAddress (s.addressOf offset) ≠ none) ∧
        ∃ t, view.CoversAddress t (s.addressOf offset) ∧ t.Maps (s.addressOf offset) offset)) ∧
    ((∀ s ∈ view.segments, s.verify = true ∧ s.Fits) →
      (∀ s, view.CoversAddress s a → (view.AddressReturns a ↔
        ∃ offset, s.Maps a offset ∧ view.CoversOffset s offset)) ∧
      ∀ s offset, view.CoversOffset s offset → (view.OffsetReturns offset ↔
        view.CoversAddress s (s.addressOf offset))) :=
  ⟨fun _ _ => getByAddress_backed_iff, fun _ _ _ => readInteger_backed_iff,
    fun _ => getFromAddressOn_backed_iff, fun _ _ _ => load_backed_iff,
    fun _ => addressReturns_iff, fun _ _ => offsetReturns_iff, returns_iff_of_verify⟩

/-- A segment with one byte of data, and a longer file. -/
def zeroPadded : RawBinaryView where
  segments := [⟨⟨0, 0, .generic64, 0x1000⟩, by decide, 0x10, 0, 1, false⟩]
  data := [1, 2]
  provider := none

/-- The second byte that is read does not belong to the segment. -/
theorem not_reads_backed :
    ¬∀ (view : RawBinaryView) (a : MetaAddress) (size : BitVec 64) (bytes : List UInt8),
      view.getByAddress a size = some (some bytes) → view.Backed a bytes := by
  intro h
  have hread : zeroPadded.getByAddress ⟨0, 0, .generic64, 0x1000⟩ 2 = some (some [1, 2]) := by decide
  rcases h _ _ _ _ hread with hnil | ⟨s, hs, hbacks, -⟩
  · cases hnil
  · rw [zeroPadded, List.mem_singleton] at hs
    subst hs
    exact absurd hbacks (by decide)

end RawBinaryView

end Binary
