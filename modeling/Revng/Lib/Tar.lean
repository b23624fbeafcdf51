import Mathlib.Data.List.DropRight

/-!
# Texts in a tar archive

A member of an archive has a name, a user name and a group name.  Each of them is stored in a
field of the header when it is ASCII and fits the field, and in a pax record otherwise.

Neither way keeps every text.  A field of the header is filled up with NUL, so reading stops at
the first NUL.  A pax record keeps a user name or a group name as it is, and the name of a
member without the slashes at its end.  `KeepsText` and `KeepsPath` say which texts survive.
-/

namespace Tar

/-! ## Writing -/

def nul : Char := '\x00'

/-- The sizes of the header fields for the name of a member and for the two names of its
owner. -/
def lengthName : Nat := 100
def lengthOwner : Nat := 32

def Ascii (x : List Char) : Prop := ∀ c ∈ x, c.toNat < 128

instance (x : List Char) : Decidable (Ascii x) := List.decidableBAll _ x

/-- The text can be stored in a header field of the given size. -/
def Fits (size : Nat) (x : List Char) : Prop := Ascii x ∧ x.length ≤ size

instance (size : Nat) (x : List Char) : Decidable (Fits size x) :=
  inferInstanceAs (Decidable (_ ∧ _))

inductive TextField where
  | header (field : List Char)
  | pax (value : List Char)
deriving DecidableEq, Repr

def writeText (size : Nat) (x : List Char) : TextField :=
  if Fits size x then .header (x ++ List.replicate (size - x.length) nul) else .pax x

structure Member where
  name : TextField
  uname : TextField
  gname : TextField
  data : List UInt8
deriving DecidableEq, Repr

def Member.ofFile (name uname gname : List Char) (data : List UInt8) : Member :=
  ⟨writeText lengthName name, writeText lengthOwner uname, writeText lengthOwner gname, data⟩

/-! ## Reading -/

def cutAtNul (x : List Char) : List Char := x.takeWhile (· ≠ nul)

/-- The text of a user name or a group name. -/
def TextField.text : TextField → List Char
  | .header field => cutAtNul field
  | .pax value => value

/-- The text of the name of a member. -/
def TextField.path : TextField → List Char
  | .header field => cutAtNul field
  | .pax value => value.rdropWhile (· = '/')

/-! ## The texts that are kept -/

def KeepsText (size : Nat) (x : List Char) : Prop := Fits size x → nul ∉ x

def KeepsPath (x : List Char) : Prop :=
  if Fits lengthName x then nul ∉ x else x.getLast? ≠ some '/'

instance (size : Nat) (x : List Char) : Decidable (KeepsText size x) :=
  inferInstanceAs (Decidable (_ → _))

instance (x : List Char) : Decidable (KeepsPath x) :=
  inferInstanceAs (Decidable (if Fits lengthName x then _ else _))

theorem nul_notMem_cutAtNul (x : List Char) : nul ∉ cutAtNul x := fun h => by
  simpa using List.mem_takeWhile_imp h

/-- Filling up a field does not change what is read from it. -/
theorem cutAtNul_append_replicate (x : List Char) (n : Nat) :
    cutAtNul (x ++ List.replicate n nul) = cutAtNul x := by
  induction x with
  | nil => cases n <;> simp [cutAtNul, List.replicate_succ]
  | cons c x ih =>
    simp only [cutAtNul, List.cons_append, List.takeWhile_cons] at ih ⊢
    split
    · rw [ih]
    · rfl

variable {x : List Char}

theorem cutAtNul_of_notMem (h : nul ∉ x) : cutAtNul x = x := by
  rw [cutAtNul, List.takeWhile_eq_self_iff]
  intro c hc
  simpa using ne_of_mem_of_not_mem hc h

theorem text_writeText_initial (size : Nat) (x : List Char) : (writeText size x).text <+: x := by
  rw [writeText]
  split
  · rw [TextField.text, cutAtNul_append_replicate]
    exact List.takeWhile_prefix _
  · exact List.prefix_rfl

theorem text_writeText_iff {size : Nat} : (writeText size x).text = x ↔ KeepsText size x := by
  rw [writeText, KeepsText]
  split
  next hfits =>
    rw [TextField.text, cutAtNul_append_replicate]
    constructor
    · intro h _
      rw [← h]
      exact nul_notMem_cutAtNul x
    · intro h
      exact cutAtNul_of_notMem (h hfits)
  next hfits => exact iff_of_true rfl fun h => absurd h hfits

theorem path_writeText_of_fits (h : Fits lengthName x) :
    (writeText lengthName x).path = cutAtNul x := by
  rw [writeText, if_pos h, TextField.path, cutAtNul_append_replicate]

theorem path_writeText_of_not_fits (h : ¬ Fits lengthName x) :
    (writeText lengthName x).path = x.rdropWhile (· = '/') := by
  rw [writeText, if_neg h, TextField.path]

theorem path_writeText (h : KeepsPath x) : (writeText lengthName x).path = x := by
  rw [KeepsPath] at h
  split at h
  next hfits => rw [path_writeText_of_fits hfits, cutAtNul_of_notMem h]
  next hfits =>
    rw [path_writeText_of_not_fits hfits, List.rdropWhile_eq_self_iff]
    intro hne hlast
    exact h (by rw [List.getLast?_eq_some_getLast hne]; simpa using hlast)

/-- What is lost of a long name are slashes at its end. -/
theorem path_writeText_append (h : ¬ Fits lengthName x) :
    ∃ n, x = (writeText lengthName x).path ++ List.replicate n '/' := by
  refine ⟨(x.rtakeWhile (· = '/')).length, ?_⟩
  have hslashes : x.rtakeWhile (· = '/') =
      List.replicate (x.rtakeWhile (· = '/')).length '/' := by
    refine List.eq_replicate_of_mem fun c hc => ?_
    simpa using List.mem_rtakeWhile_imp hc
  rw [path_writeText_of_not_fits h, ← hslashes, List.rdropWhile_append_rtakeWhile]

end Tar
