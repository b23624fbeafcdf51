import Mathlib.Algebra.Group.Nat.Defs
import Mathlib.Data.List.Basic

/-!
# Little-endian integers

`write` writes the lowest bytes of a number, the least significant one first, and `read` gives
the number that some bytes stand for.  A number that fits is read back (`read_write`), also in
front of other bytes (`readNext_write_append`).
-/

namespace LittleEndian

def write : Nat → Nat → List UInt8
  | 0, _ => []
  | size + 1, n => UInt8.ofNat n :: write size (n / 256)

def read : List UInt8 → Nat
  | [] => 0
  | b :: rest => b.toNat + 256 * read rest

/-- Read the first bytes and drop them. -/
def readNext (size : Nat) (bytes : List UInt8) : Nat × List UInt8 :=
  (read (bytes.take size), bytes.drop size)

@[simp] theorem length_write : ∀ (size n : Nat), (write size n).length = size
  | 0, _ => rfl
  | size + 1, n => by rw [write, List.length_cons, length_write size]

theorem read_write : ∀ {size n : Nat}, n < 256 ^ size → read (write size n) = n
  | 0, n, h => by
      rw [write, read]
      omega
  | size + 1, n, h => by
      have hrest : n / 256 < 256 ^ size := by
        rw [Nat.pow_succ] at h
        omega
      rw [write, read, read_write hrest, UInt8.toNat_ofNat']
      omega

theorem readNext_write_append {size n : Nat} (h : n < 256 ^ size) (rest : List UInt8) :
    readNext size (write size n ++ rest) = (n, rest) := by
  have htake : (write size n ++ rest).take size = write size n := by simp
  have hdrop : (write size n ++ rest).drop size = rest := by simp
  rw [readNext, htake, hdrop, read_write h]

end LittleEndian
