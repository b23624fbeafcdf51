import Mathlib.Algebra.Group.Int.Defs
import Revng.Binary.SegmentReads

/-!
# Address arithmetic

Sums and differences of an address and an offset are exact or invalid (`isExact_add`,
`isExact_sub`) as long as the offset fits the type.  One that does not is cut to 32 bits before
the overflow is checked.

The start of a page is a generic address.  A difference of addresses is unsigned, and missing
when it would be negative.
-/

namespace Binary

/-! ## Overflow-safe integers -/

/-- An unsigned integer, or nothing after an overflow. -/
structure OverflowSafeInt (w : Nat) where
  value : Option (BitVec w)

namespace OverflowSafeInt

variable {w : Nat}

/-- The implicit conversion of an operand cuts it to the width. -/
def of {n : Nat} (x : BitVec n) : OverflowSafeInt w := ⟨some (x.setWidth w)⟩

def add (x y : OverflowSafeInt w) : OverflowSafeInt w where
  value := do
    let a ← x.value
    let b ← y.value
    if a.uaddOverflow b then none else return a + b

def sub (x y : OverflowSafeInt w) : OverflowSafeInt w where
  value := do
    let a ← x.value
    let b ← y.value
    if a.usubOverflow b then none else return a - b

def mul (x y : OverflowSafeInt w) : OverflowSafeInt w where
  value := do
    let a ← x.value
    let b ← y.value
    if a.umulOverflow b then none else return a * b

/-- The other operand is a power of two. -/
def div (x : OverflowSafeInt w) (other : BitVec w) : OverflowSafeInt w :=
  ⟨x.value.map (· / other)⟩

def toNat (x : OverflowSafeInt w) : Option Nat := x.value.map BitVec.toNat

@[simp]
theorem toNat_of {n : Nat} (x : BitVec n) :
    (of x : OverflowSafeInt w).toNat = some (x.toNat % 2 ^ w) := by
  simp [toNat, of]

variable {x y : OverflowSafeInt w} {a b : Nat}

theorem toNat_eq_some : x.toNat = some a ↔ ∃ v : BitVec w, x = ⟨some v⟩ ∧ v.toNat = a := by
  obtain ⟨_ | v⟩ := x <;> simp [toNat]

theorem toNat_eq_none : x.toNat = none ↔ x = ⟨none⟩ := by
  obtain ⟨_ | v⟩ := x <;> simp [toNat]

theorem toNat_add (hx : x.toNat = some a) (hy : y.toNat = some b) :
    (x.add y).toNat = if a + b < 2 ^ w then some (a + b) else none := by
  obtain ⟨v, rfl, rfl⟩ := toNat_eq_some.mp hx
  obtain ⟨u, rfl, rfl⟩ := toNat_eq_some.mp hy
  split
  next h => simp [toNat, add, BitVec.uaddOverflow, Nat.not_le.mpr h, Nat.mod_eq_of_lt h]
  next h => simp [toNat, add, BitVec.uaddOverflow, Nat.not_lt.mp h]

theorem toNat_sub (hx : x.toNat = some a) (hy : y.toNat = some b) :
    (x.sub y).toNat = if b ≤ a then some (a - b) else none := by
  obtain ⟨v, rfl, rfl⟩ := toNat_eq_some.mp hx
  obtain ⟨u, rfl, rfl⟩ := toNat_eq_some.mp hy
  split
  next h =>
    simp [toNat, sub, BitVec.usubOverflow, Nat.not_lt.mpr h,
      BitVec.toNat_sub_of_le (BitVec.le_def.mpr h)]
  next h => simp [toNat, sub, BitVec.usubOverflow, Nat.not_le.mp h]

theorem toNat_mul (hx : x.toNat = some a) (hy : y.toNat = some b) :
    (x.mul y).toNat = if a * b < 2 ^ w then some (a * b) else none := by
  obtain ⟨v, rfl, rfl⟩ := toNat_eq_some.mp hx
  obtain ⟨u, rfl, rfl⟩ := toNat_eq_some.mp hy
  split
  next h => simp [toNat, mul, BitVec.umulOverflow, Nat.not_le.mpr h, Nat.mod_eq_of_lt h]
  next h => simp [toNat, mul, BitVec.umulOverflow, Nat.not_lt.mp h]

theorem toNat_div (hx : x.toNat = some a) (other : BitVec w) :
    (x.div other).toNat = some (a / other.toNat) := by
  obtain ⟨v, rfl, rfl⟩ := toNat_eq_some.mp hx
  simp [toNat, div]

end OverflowSafeInt

/-! ## The operations -/

/-- An invalid type has no generic one: the code aborts. -/
def MetaAddressType.toGeneric : MetaAddressType → Option MetaAddressType
  | invalid => none
  | generic32 | codeX86 | codeArmThumb | codeMips | codeMipsel | codeArm => some generic32
  | generic64 | codeX86_64 | codeSystemz | codeAarch64 => some generic64

namespace MetaAddress

/-- The negation of the least offset is undefined. -/
def negated (offset : BitVec 64) : Option (BitVec 64) :=
  if offset = BitVec.intMin 64 then none else some (-offset)

/-- `a + offset` for a signed offset. -/
def addSigned (a : MetaAddress) (offset : BitVec 64) : Option MetaAddress :=
  if a.isInvalid then some a
  else if 0 ≤ offset.toInt then some (a.add offset)
  else (negated offset).map a.sub

/-- `a - offset` for a signed offset. -/
def subSigned (a : MetaAddress) (offset : BitVec 64) : Option MetaAddress :=
  if a.isInvalid then some a
  else if 0 ≤ offset.toInt then some (a.sub offset)
  else (negated offset).map a.add

/-- `a - b`, which aborts for addresses that cannot be compared. -/
def difference (a b : MetaAddress) : Option (Option (BitVec 64)) :=
  if a.isValid && b.isValid && a.epoch = b.epoch && a.addressSpace = b.addressSpace then
    some ((OverflowSafeInt.of a.address).sub (.of b.address)).value
  else none

def toGeneric (a : MetaAddress) : Option MetaAddress :=
  a.type.toGeneric.map fun type => { a with type }

def pageStart (a : MetaAddress) : Option MetaAddress :=
  a.toGeneric.map fun generic => generic.sub (a.address % 4096)

def nextPageStart (a : MetaAddress) : Option MetaAddress :=
  let address : OverflowSafeInt 64 := .of a.address
  let last : OverflowSafeInt 64 := .of (4096 - 1 : BitVec 64)
  let size : OverflowSafeInt 64 := .of (4096 : BitVec 64)
  let addend := (((address.add last).div 4096).mul size).sub address
  a.toGeneric.map fun generic =>
    match addend.value with
    | some addend => generic.add addend
    | none => invalid

end MetaAddress

/-! ## Exact results -/

/-- The number is an address of the type. -/
def MetaAddressType.Contains (type : MetaAddressType) (n : Int) : Prop :=
  0 ≤ n ∧ n < 2 ^ type.bitSize ∧ n % type.alignment = 0

namespace MetaAddress

variable {a result : MetaAddress} {type : MetaAddressType} {n : Int}

/-- The number as an address of the type, in the epoch and the space of `a`, if it is one. -/
structure IsExact (result a : MetaAddress) (type : MetaAddressType) (n : Int) : Prop where
  isValid_iff : result.isValid = true ↔ type.Contains n
  address_eq : type.Contains n → (result.address.toNat : Int) = n
  type_eq : type.Contains n → result.type = type
  epoch_eq : type.Contains n → result.epoch = a.epoch
  addressSpace_eq : type.Contains n → result.addressSpace = a.addressSpace

theorem isExact_invalid (h : ¬type.Contains n) : IsExact invalid a type n where
  isValid_iff := iff_of_false (by decide) h
  address_eq hn := absurd hn h
  type_eq hn := absurd hn h
  epoch_eq hn := absurd hn h
  addressSpace_eq hn := absurd hn h

theorem isExact_setAddress (htype : a.type ≠ .invalid) {n : Nat} (hn : n < 2 ^ a.type.bitSize) :
    IsExact (a.setAddress (.ofNat 64 n)) a a.type n := by
  have haddress := and_addressMask htype hn
  have hverify : MetaAddress.verify { a with address := .ofNat 64 n &&& a.type.addressMask } =
      true ↔ a.type.Contains n := by
    have hmask : (BitVec.ofNat 64 n &&& a.type.addressMask) &&& a.type.addressMask =
        BitVec.ofNat 64 n &&& a.type.addressMask := by rw [BitVec.and_assoc, BitVec.and_self]
    have hlt : (n : Int) < 2 ^ a.type.bitSize := by exact_mod_cast hn
    simp only [verify, hmask, haddress, MetaAddressType.Contains, decide_true, Bool.and_true,
      Bool.and_eq_true, decide_eq_true_eq, ne_eq, htype, not_false_eq_true, true_and, hlt]
    exact ⟨fun h => ⟨Int.natCast_nonneg n, by exact_mod_cast h⟩, fun h => by exact_mod_cast h.2⟩
  rw [setAddress]
  by_cases hv : MetaAddress.verify { a with address := .ofNat 64 n &&& a.type.addressMask } = true
  · have hvalid : MetaAddress.isValid { a with address := .ofNat 64 n &&& a.type.addressMask } =
        true := by simpa [isValid, isInvalid] using htype
    rw [validate_of_verify hv]
    exact ⟨iff_of_true hvalid (hverify.mp hv), fun _ => congrArg Nat.cast haddress, fun _ => rfl,
      fun _ => rfl, fun _ => rfl⟩
  · rw [validate, if_neg hv]
    exact isExact_invalid (mt hverify.mpr hv)

theorem isInvalid_of_verify (h : a.verify = true) : a.isInvalid = false ∧ a.type ≠ .invalid := by
  have htype : a.type ≠ .invalid := by
    simp only [verify, Bool.and_eq_true, decide_eq_true_eq] at h
    exact h.1.1
  exact ⟨by simpa [isInvalid] using htype, htype⟩

variable {d : BitVec 64}

/-- The sum with an offset that fits the type is exact or invalid. -/
theorem isExact_add (h : a.verify = true) (hd : d.toNat < 2 ^ a.type.bitSize) :
    IsExact (a.add d) a a.type (a.address.toNat + d.toNat) := by
  obtain ⟨hinvalid, htype⟩ := isInvalid_of_verify h
  rw [add, hinvalid, if_neg Bool.false_ne_true]
  dsimp only
  rw [Nat.mod_eq_of_lt (toNat_lt_of_verify h), Nat.mod_eq_of_lt hd, ← Int.natCast_add]
  split
  next hlt => exact isExact_setAddress htype hlt
  next hlt => exact isExact_invalid fun hn => hlt (by exact_mod_cast hn.2.1)

theorem isExact_sub (h : a.verify = true) (hd : d.toNat < 2 ^ a.type.bitSize) :
    IsExact (a.sub d) a a.type (a.address.toNat - d.toNat) := by
  obtain ⟨hinvalid, htype⟩ := isInvalid_of_verify h
  have haddress := toNat_lt_of_verify h
  rw [sub, hinvalid, if_neg Bool.false_ne_true]
  dsimp only
  rw [Nat.mod_eq_of_lt haddress, Nat.mod_eq_of_lt hd]
  split
  next hle =>
    rw [← Int.natCast_sub hle]
    exact isExact_setAddress htype (Nat.lt_of_le_of_lt (Nat.sub_le _ _) haddress)
  next hle => exact isExact_invalid fun hn => hle (by have := hn.1; omega)

/-! ## Signed offsets -/

theorem toNat_of_nonneg (hd : 0 ≤ d.toInt) : (d.toNat : Int) = d.toInt := by
  rw [BitVec.toInt_eq_toNat_cond] at hd ⊢
  split
  next => rfl
  next => omega

theorem negated_of_neg (hd : d.toInt < 0) (hmin : d ≠ BitVec.intMin 64) :
    negated d = some (-d) ∧ ((-d).toNat : Int) = -d.toInt := by
  have hlt := d.isLt
  refine ⟨if_neg hmin, ?_⟩
  rw [BitVec.toInt_eq_toNat_cond] at hd ⊢
  rw [BitVec.toNat_neg, Nat.mod_eq_of_lt (by split at hd <;> omega)]
  split at hd <;> omega

/-- A signed offset whose magnitude fits the type. -/
structure SignedFits (type : MetaAddressType) (d : BitVec 64) : Prop where
  ne_intMin : d ≠ BitVec.intMin 64
  natAbs_lt : d.toInt.natAbs < 2 ^ type.bitSize

theorem isExact_addSigned (h : a.verify = true) (hd : SignedFits a.type d) :
    ∃ r, a.addSigned d = some r ∧ IsExact r a a.type (a.address.toNat + d.toInt) := by
  rw [addSigned, (isInvalid_of_verify h).1, if_neg Bool.false_ne_true]
  have hfits := hd.natAbs_lt
  split
  next hpos =>
    have hnat := toNat_of_nonneg hpos
    rw [← hnat]
    exact ⟨_, rfl, isExact_add h (by omega)⟩
  next hneg =>
    obtain ⟨hnegated, hnat⟩ := negated_of_neg (Int.not_le.mp hneg) hd.ne_intMin
    rw [hnegated, show (a.address.toNat : Int) + d.toInt = a.address.toNat - (-d).toNat by omega]
    exact ⟨_, rfl, isExact_sub h (by omega)⟩

theorem isExact_subSigned (h : a.verify = true) (hd : SignedFits a.type d) :
    ∃ r, a.subSigned d = some r ∧ IsExact r a a.type (a.address.toNat - d.toInt) := by
  rw [subSigned, (isInvalid_of_verify h).1, if_neg Bool.false_ne_true]
  have hfits := hd.natAbs_lt
  split
  next hpos =>
    have hnat := toNat_of_nonneg hpos
    rw [← hnat]
    exact ⟨_, rfl, isExact_sub h (by omega)⟩
  next hneg =>
    obtain ⟨hnegated, hnat⟩ := negated_of_neg (Int.not_le.mp hneg) hd.ne_intMin
    rw [hnegated, show (a.address.toNat : Int) - d.toInt = a.address.toNat + (-d).toNat by omega]
    exact ⟨_, rfl, isExact_add h (by omega)⟩

/-! ## Pages -/

theorem MetaAddressType.toGeneric_spec {type : MetaAddressType} (h : type ≠ .invalid) :
    ∃ generic, type.toGeneric = some generic ∧ generic ≠ .invalid ∧ generic.alignment = 1 ∧
      generic.bitSize = type.bitSize := by
  cases type <;> first | exact absurd rfl h | exact ⟨_, rfl, by decide, rfl, rfl⟩

/-- The generic address next to a valid one is valid. -/
theorem exists_toGeneric (h : a.verify = true) : ∃ generic,
    a.type.toGeneric = some generic ∧ generic.bitSize = a.type.bitSize ∧
      MetaAddress.verify { a with type := generic } = true := by
  obtain ⟨generic, hgeneric, hne, halign, hsize⟩ :=
    MetaAddressType.toGeneric_spec (isInvalid_of_verify h).2
  refine ⟨generic, hgeneric, hsize, ?_⟩
  have hmask : generic.addressMask = a.type.addressMask := by
    rw [MetaAddressType.addressMask, hsize]
    rfl
  simp only [verify, Bool.and_eq_true, decide_eq_true_eq] at h ⊢
  exact ⟨⟨hne, by rw [halign]; exact Nat.mod_one _⟩, hmask ▸ h.2⟩

theorem two_pow_bitSize {type : MetaAddressType} (h : type ≠ .invalid) :
    4096 ≤ 2 ^ type.bitSize ∧ 2 ^ type.bitSize ≤ 2 ^ 64 := by
  cases type <;> first | exact absurd rfl h | decide

/-- The start of a page is a generic address. -/
theorem isExact_pageStart (h : a.verify = true) :
    ∃ r generic, a.pageStart = some r ∧ a.type.toGeneric = some generic ∧
      IsExact r a generic ↑(a.address.toNat / 4096 * 4096) := by
  obtain ⟨generic, hgeneric, hsize, hverify⟩ := exists_toGeneric h
  have hpage : (a.address % 4096).toNat = a.address.toNat % 4096 := BitVec.toNat_umod
  have hlt := toNat_lt_of_verify h
  have hexact := isExact_sub hverify (d := a.address % 4096) (by rw [hsize]; omega)
  have hstart : (a.address.toNat : Int) - ↑(a.address % 4096).toNat =
      ↑(a.address.toNat / 4096 * 4096) := by omega
  rw [hstart] at hexact
  refine ⟨_, generic, by rw [pageStart, toGeneric, hgeneric]; rfl, hgeneric, ?_⟩
  exact ⟨hexact.1, hexact.2, hexact.3, hexact.4, hexact.5⟩

/-- The distance to the next page, if the page is not behind the last address. -/
theorem nextPage_addend (address : BitVec 64) :
    let x : OverflowSafeInt 64 := .of address
    ((((x.add (.of (4096 - 1 : BitVec 64))).div 4096).mul (.of (4096 : BitVec 64))).sub x).toNat =
      if address.toNat + 4095 < 2 ^ 64 then
        some ((address.toNat + 4095) / 4096 * 4096 - address.toNat)
      else none := by
  intro x
  have hlt := address.isLt
  have hx : x.toNat = some address.toNat := by
    rw [OverflowSafeInt.toNat_of, Nat.mod_eq_of_lt hlt]
  have hadd := OverflowSafeInt.toNat_add hx
    (OverflowSafeInt.toNat_of (4096 - 1 : BitVec 64) : (.of _ : OverflowSafeInt 64).toNat = _)
  have hsize := (OverflowSafeInt.toNat_of (4096 : BitVec 64) :
    (.of _ : OverflowSafeInt 64).toNat = _)
  split
  next hsum =>
    rw [if_pos (by simpa using hsum)] at hadd
    have hdiv := OverflowSafeInt.toNat_div hadd 4096
    have hmul := OverflowSafeInt.toNat_mul hdiv hsize
    rw [if_pos (by simp; omega)] at hmul
    have hsub := OverflowSafeInt.toNat_sub hmul hx
    rw [if_pos (by simp; omega)] at hsub
    simpa using hsub
  next hsum =>
    rw [if_neg (by simpa using hsum)] at hadd
    rw [OverflowSafeInt.toNat_eq_none.mp hadd]
    rfl

theorem isExact_nextPageStart (h : a.verify = true) :
    ∃ r generic, a.nextPageStart = some r ∧ a.type.toGeneric = some generic ∧
      IsExact r a generic ↑((a.address.toNat + 4095) / 4096 * 4096) := by
  obtain ⟨generic, hgeneric, hsize, hverify⟩ := exists_toGeneric h
  have hlt := toNat_lt_of_verify h
  obtain ⟨hpage, hlimit⟩ := two_pow_bitSize (isInvalid_of_verify h).2
  have haddend := nextPage_addend a.address
  rw [nextPageStart, toGeneric, hgeneric]
  refine ⟨_, generic, rfl, rfl, ?_⟩
  split at haddend
  next hsum =>
    obtain ⟨v, hv, hnat⟩ := OverflowSafeInt.toNat_eq_some.mp haddend
    rw [hv]
    have hexact := isExact_add hverify (d := v) (by rw [hsize]; omega)
    have hnext : (a.address.toNat : Int) + v.toNat =
        ↑((a.address.toNat + 4095) / 4096 * 4096) := by omega
    rw [hnext] at hexact
    exact ⟨hexact.1, hexact.2, hexact.3, hexact.4, hexact.5⟩
  next hsum =>
    rw [OverflowSafeInt.toNat_eq_none.mp haddend]
    refine isExact_invalid fun hn => ?_
    have hnlt := hn.2.1
    rw [hsize] at hnlt
    have hnlt : (a.address.toNat + 4095) / 4096 * 4096 < 2 ^ a.type.bitSize := by exact_mod_cast hnlt
    omega

/-! ## Differences -/

theorem difference_eq {b : MetaAddress} (ha : a.isValid = true) (hb : b.isValid = true)
    (hepoch : b.epoch = a.epoch) (hspace : b.addressSpace = a.addressSpace) :
    ∃ r, difference b a = some r ∧ r.map BitVec.toNat =
      if a.address.toNat ≤ b.address.toNat then some (b.address.toNat - a.address.toNat)
      else none := by
  have hb' : (OverflowSafeInt.of b.address : OverflowSafeInt 64).toNat = some b.address.toNat := by
    rw [OverflowSafeInt.toNat_of, Nat.mod_eq_of_lt b.address.isLt]
  have ha' : (OverflowSafeInt.of a.address : OverflowSafeInt 64).toNat = some a.address.toNat := by
    rw [OverflowSafeInt.toNat_of, Nat.mod_eq_of_lt a.address.isLt]
  exact ⟨_, by simp [difference, ha, hb, hepoch, hspace], OverflowSafeInt.toNat_sub hb' ha'⟩

/-- The way back from a sum, which is missing when the offset is negative. -/
theorem difference_of_isExact (ha : a.isValid = true) {k : Int}
    (hr : IsExact result a a.type (a.address.toNat + k)) (hvalid : result.isValid = true)
    (hk : 0 ≤ k → k = d.toNat) : result.difference a = some (if 0 ≤ k then some d else none) := by
  have hn := hr.isValid_iff.mp hvalid
  have haddress := hr.address_eq hn
  obtain ⟨r, hdiff, hmap⟩ := difference_eq ha hvalid (hr.epoch_eq hn) (hr.addressSpace_eq hn)
  rw [hdiff]
  congr 1
  split
  next hpos =>
    rw [if_pos (by omega), Option.map_eq_some_iff] at hmap
    obtain ⟨x, rfl, hx⟩ := hmap
    have := hk hpos
    exact congrArg some (BitVec.eq_of_toNat_eq (by omega))
  next hneg =>
    rw [if_neg (by omega), Option.map_eq_none_iff] at hmap
    exact hmap

/-- Address arithmetic is exact or invalid, for offsets that fit the type. -/
theorem arithmetic_isExact (hw : a.WellFormed) (hvalid : a.isValid = true) :
    (∀ d : BitVec 64, d.toNat < 2 ^ a.type.bitSize →
      IsExact (a.add d) a a.type (a.address.toNat + d.toNat) ∧
      IsExact (a.sub d) a a.type (a.address.toNat - d.toNat) ∧
      ((a.add d).isValid = true → (a.add d).difference a = some (some d))) ∧
    (∀ d : BitVec 64, SignedFits a.type d → ∃ sum rest,
      a.addSigned d = some sum ∧ IsExact sum a a.type (a.address.toNat + d.toInt) ∧
      a.subSigned d = some rest ∧ IsExact rest a a.type (a.address.toNat - d.toInt) ∧
      (sum.isValid = true →
        sum.difference a = some (if 0 ≤ d.toInt then some d else none))) ∧
    ∃ generic start next, a.type.toGeneric = some generic ∧
      a.pageStart = some start ∧
      IsExact start a generic ↑(a.address.toNat / 4096 * 4096) ∧
      a.nextPageStart = some next ∧
      IsExact next a generic ↑((a.address.toNat + 4095) / 4096 * 4096) := by
  have h := hw.verify hvalid
  refine ⟨fun d hd => ?_, fun d hd => ?_, ?_⟩
  · have hadd := isExact_add h hd
    refine ⟨hadd, isExact_sub h hd, fun hsum => ?_⟩
    have hdiff := difference_of_isExact hvalid hadd hsum fun _ => rfl
    rwa [if_pos (Int.natCast_nonneg _)] at hdiff
  · obtain ⟨sum, hsum, hadd⟩ := isExact_addSigned h hd
    obtain ⟨rest, hrest, hsub⟩ := isExact_subSigned h hd
    exact ⟨sum, rest, hsum, hadd, hrest, hsub, fun hvalid' =>
      difference_of_isExact hvalid hadd hvalid' fun hpos => (toNat_of_nonneg hpos).symm⟩
  · obtain ⟨start, generic, hstart, hgeneric, hexact⟩ := isExact_pageStart h
    obtain ⟨next, generic', hnext, hgeneric', hexact'⟩ := isExact_nextPageStart h
    obtain rfl := Option.some.inj (hgeneric.symm.trans hgeneric')
    exact ⟨generic, start, next, hgeneric, hstart, hexact, hnext, hexact'⟩

theorem arithmetic_isExact_codeX86 :
    let a : MetaAddress := ⟨1, 2, .codeX86, 0x1234⟩
    (a.add 0x1000).difference a = some (some 0x1000) ∧
      (∃ sum rest, a.addSigned (-0x34) = some sum ∧ IsExact sum a a.type 0x1200 ∧
        a.subSigned (-0x34) = some rest ∧ IsExact rest a a.type 0x1268 ∧
        (sum.isValid = true → sum.difference a = some none)) ∧
      ∃ generic start next, a.type.toGeneric = some generic ∧ a.pageStart = some start ∧
        IsExact start a generic 0x1000 ∧ a.nextPageStart = some next ∧
        IsExact next a generic 0x2000 := by
  intro a
  have h : _ ∧ _ ∧ _ := arithmetic_isExact (a := a) (by decide) (by decide)
  obtain ⟨generic, start, next, hgeneric, hstart, hexact, hnext, hexact'⟩ := h.2.2
  have haddress : a.address.toNat = 0x1234 := rfl
  rw [haddress] at hexact hexact'
  exact ⟨(h.1 0x1000 (by decide)).2.2 (by decide), h.2.1 (-0x34) ⟨by decide, by decide⟩,
    generic, start, next, hgeneric, hstart, hexact, hnext, hexact'⟩

/-- The start of a page of code is not code, and the way back is not a negative number. -/
theorem not_sameType_pageStart :
    (¬∀ a start : MetaAddress, a.WellFormed → a.isValid = true → a.pageStart = some start →
      start.isValid = true → start.type = a.type) ∧
    ¬∀ (a sum : MetaAddress) (d : BitVec 64), a.WellFormed → a.isValid = true →
      a.addSigned d = some sum → sum.isValid = true → sum.difference a = some (some d) := by
  constructor
  · intro h
    have hstart := h ⟨0, 0, .codeX86, 0x1234⟩ ⟨0, 0, .generic32, 0x1000⟩
    revert hstart
    decide
  · intro h
    have hsum := h ⟨0, 0, .generic64, 0x1010⟩ ⟨0, 0, .generic64, 0x1000⟩ (-0x10)
    revert hsum
    decide

end MetaAddress

end Binary
