import Mathlib.Algebra.Group.Nat.Defs
import Mathlib.Data.Finset.Insert
import Mathlib.Data.Nat.Bits

/-!
# Trackers

A tracker is a stack of bits in a byte: the lowest bit tells whether there has been an access
since the last push.  A container has such a tracker too, for the accesses to all of it, and
beside it two stacks of keys: those that were asked for and are in the container, and those that
are not.
-/

namespace TupleTree

/-! ## The tracker of a field -/

structure AccessTracker where
  counter : BitVec 8
  isTracking : Bool
  deriving DecidableEq

namespace AccessTracker

def clear (t : AccessTracker) : AccessTracker where
  counter := t.counter &&& ~~~1#8
  isTracking := true

def access (t : AccessTracker) : AccessTracker :=
  { t with counter := t.counter ||| (if t.isTracking then 1#8 else 0#8) }

/-- There is no result when the highest bit is in use. -/
def push (t : AccessTracker) : Option AccessTracker :=
  if t.counter.msb then none else some { t with counter := t.counter <<< 1 }

def pop (t : AccessTracker) : AccessTracker := { t with counter := t.counter >>> 1 }

/-- `TrackingSuspender`: the tracker is off during the operation, and is then as active as it was
before. -/
def suspend (op : AccessTracker → Option AccessTracker) (t : AccessTracker) :
    Option AccessTracker :=
  (op { t with isTracking := false }).map fun u => { u with isTracking := t.isTracking }

/-- So many further pushes fit, whatever is accessed after them. -/
def Fits (n : Nat) (t : AccessTracker) : Prop := t.counter.toNat < 2 ^ (8 - n)

instance (n : Nat) (t : AccessTracker) : Decidable (Fits n t) :=
  inferInstanceAs (Decidable (_ < _))

@[simp]
theorem access_isTracking (t : AccessTracker) : t.access.isTracking = t.isTracking := rfl

@[simp]
theorem pop_isTracking (t : AccessTracker) : t.pop.isTracking = t.isTracking := rfl

theorem shift_or (c : BitVec 8) (b : Bool) :
    (c ||| (if b then 1#8 else 0#8)) >>> 1 = c >>> 1 := by
  rw [BitVec.ushiftRight_or_distrib]
  cases b <;> simp

theorem shift_clear (c : BitVec 8) : (c &&& ~~~1#8) >>> 1 = c >>> 1 := by
  have hmask : (~~~1#8) >>> 1 = 127#8 := rfl
  have hones : (127#8).toNat = 2 ^ 7 - 1 := rfl
  rw [BitVec.ushiftRight_and_distrib, hmask]
  apply BitVec.eq_of_toNat_eq
  rw [BitVec.toNat_and, hones, Nat.and_two_pow_sub_one_eq_mod, BitVec.toNat_ushiftRight,
    Nat.shiftRight_eq_div_pow]
  have hlt := c.isLt
  omega

@[simp]
theorem pop_access (t : AccessTracker) : t.access.pop = t.pop := by
  simp only [access, pop, shift_or]

variable {t : AccessTracker}

theorem pop_clear (h : t.isTracking = true) : t.clear.pop = t.pop := by
  simp only [clear, pop, shift_clear, h]

theorem pop_push {u : AccessTracker} (h : t.push = some u) : u.pop = t := by
  unfold push at h
  split at h
  · cases h
  next hmsb =>
    obtain rfl := Option.some.inj h
    have hlt : t.counter.toNat < 2 ^ 7 := by
      simpa [BitVec.msb_eq_decide] using hmsb
    have hshift : t.counter <<< 1 >>> 1 = t.counter := by
      bv_omega
    simp only [pop, hshift]

@[simp]
theorem suspend_some (t : AccessTracker) : suspend some t = some t := rfl

@[simp]
theorem suspend_push (t : AccessTracker) : suspend push t = t.push := by
  unfold suspend push
  cases t.counter.msb <;> simp

@[simp]
theorem suspend_pop (t : AccessTracker) : suspend (fun t => some t.pop) t = some t.pop := rfl

/-- A suspended tracker is not activated. -/
@[simp]
theorem suspend_clear (t : AccessTracker) :
    suspend (fun t => some t.clear) t = some { t.clear with isTracking := t.isTracking } := rfl

theorem Fits.push {n : Nat} (h : t.Fits (n + 1)) (hn : n < 8) :
    ∃ u, t.push = some u ∧ u.Fits n ∧ u.isTracking = t.isTracking := by
  have hpow : 2 ^ (8 - n) = 2 * 2 ^ (8 - (n + 1)) := by
    rw [← Nat.pow_succ']
    congr 1
    omega
  have hlt : t.counter.toNat < 2 ^ (8 - (n + 1)) := h
  have hle : 2 ^ (8 - (n + 1)) ≤ 2 ^ 7 := Nat.pow_le_pow_right (by decide) (by omega)
  have hmsb : t.counter.msb = false := by
    rw [BitVec.msb_eq_decide]
    simp
    omega
  refine ⟨{ t with counter := t.counter <<< 1 }, by simp [AccessTracker.push, hmsb], ?_, rfl⟩
  rw [Fits, hpow, BitVec.toNat_shiftLeft, Nat.shiftLeft_eq]
  omega

theorem fits_access {n : Nat} (hn : n < 8) (t : AccessTracker) : t.access.Fits n ↔ t.Fits n := by
  constructor
  · intro h
    refine Nat.lt_of_le_of_lt ?_ h
    rw [access, BitVec.toNat_or]
    exact Nat.left_le_or
  · intro h
    rw [Fits, access, BitVec.toNat_or]
    refine Nat.or_lt_two_pow h ?_
    have hpos : 2 ^ 1 ≤ 2 ^ (8 - n) := Nat.pow_le_pow_right (by decide) (by omega)
    refine Nat.lt_of_lt_of_le ?_ hpos
    cases t.isTracking <;> decide

theorem Fits.clear {n : Nat} (h : t.Fits n) : t.clear.Fits n := by
  refine Nat.lt_of_le_of_lt ?_ h
  rw [AccessTracker.clear, BitVec.toNat_and]
  exact Nat.and_le_left

end AccessTracker

/-! ## The trackers of a container -/

/-- The trackers of a container, whose stacks have the current level first. -/
structure TrackingContainer (K : Type) where
  exact : AccessTracker
  nonExisting : List (Finset K)
  existing : List (List Bool)
  trackingIsActive : Bool

namespace TrackingContainer

variable {K : Type}

/-- A stack is not left without a level. -/
def refill {α : Type} (level : α) : List α → List α
  | [] => [level]
  | levels => levels

/-- `llvm::BitVector(Content.size())` -/
def emptyLevel (size : Nat) : List Bool := List.replicate size false

def clearTracking (size : Nat) (c : TrackingContainer K) : TrackingContainer K where
  exact := c.exact.clear
  nonExisting := [∅]
  existing := [emptyLevel size]
  trackingIsActive := true

def trackingPush (size : Nat) (c : TrackingContainer K) : Option (TrackingContainer K) :=
  c.exact.push.map fun exact =>
    { c with
      exact := exact
      nonExisting := ∅ :: c.nonExisting
      existing := emptyLevel size :: c.existing }

/-- There is no result when there is no level to pop. -/
def trackingPop (size : Nat) (c : TrackingContainer K) : Option (TrackingContainer K) :=
  match c.existing, c.nonExisting with
  | _ :: existing, _ :: nonExisting =>
      some { c with
        exact := c.exact.pop
        nonExisting := refill ∅ nonExisting
        existing := refill (emptyLevel size) existing }
  | _, _ => none

/-- What `count`, `at` and `tryGet` mark for a key: `index` is where it is in the container, if it
is there. -/
def markKey [DecidableEq K] (size : Nat) (index : Option Nat) (key : K)
    (c : TrackingContainer K) : Option (TrackingContainer K) :=
  if c.trackingIsActive then
    match index, c.existing, c.nonExisting with
    | some i, level :: outer, _ =>
        -- the assertion of `markExistingKey`
        if level.length = size then some { c with existing := level.set i true :: outer } else none
    | none, _, level :: outer => some { c with nonExisting := insert key level :: outer }
    | _, _, _ => none
  else some c

/-- The levels below the current one. -/
def outer (c : TrackingContainer K) : TrackingContainer K :=
  { c with
    exact := c.exact.pop
    nonExisting := c.nonExisting.tail
    existing := c.existing.tail }

/-- The trackers are active, there is a current level, and so many further pushes fit. -/
structure Tracked (n size : Nat) (c : TrackingContainer K) : Prop where
  exactTracking : c.exact.isTracking = true
  fits : c.exact.Fits n
  active : c.trackingIsActive = true
  nonExisting : c.nonExisting ≠ []
  existing : c.existing ≠ []
  sizes : ∀ level ∈ c.existing, level.length = size

theorem trackingPop_exact_access (size : Nat) (c : TrackingContainer K) :
    trackingPop size { c with exact := c.exact.access } = trackingPop size c := by
  simp only [trackingPop, AccessTracker.pop_access]

variable {size : Nat} {c : TrackingContainer K}

theorem trackingPop_markKey [DecidableEq K] {index : Option Nat} {key : K} {d : TrackingContainer K}
    (h : markKey size index key c = some d) : trackingPop size d = trackingPop size c := by
  unfold markKey at h
  split at h
  · split at h
    next i level outer nonExisting hexisting =>
      split at h
      · obtain rfl := Option.some.inj h
        cases hnon : c.nonExisting with
        | nil => simp [trackingPop, hexisting, hnon]
        | cons level' rest => simp [trackingPop, hexisting, hnon]
      · cases h
    next existing level outer hnon =>
      obtain rfl := Option.some.inj h
      cases hexisting : c.existing with
      | nil => simp [trackingPop, hexisting, hnon]
      | cons level' rest => simp [trackingPop, hexisting, hnon]
    · cases h
  · obtain rfl := Option.some.inj h
    rfl

theorem refill_of_ne_nil {α : Type} {level : α} {levels : List α} (h : levels ≠ []) :
    refill level levels = levels := by
  cases levels with
  | nil => exact absurd rfl h
  | cons => rfl

variable {n : Nat}

/-- A pop undoes a push. -/
theorem Tracked.pop_push {d : TrackingContainer K} (h : c.Tracked n size)
    (hpush : trackingPush size c = some d) : trackingPop size d = some c := by
  obtain ⟨exact, hexact, rfl⟩ := Option.map_eq_some_iff.mp hpush
  simp [trackingPop, AccessTracker.pop_push hexact, refill_of_ne_nil h.nonExisting,
    refill_of_ne_nil h.existing]

theorem Tracked.push (h : c.Tracked (n + 1) size) (hn : n < 8) :
    ∃ d, trackingPush size c = some d ∧ d.Tracked n size ∧
      d.existing.length = c.existing.length + 1 := by
  obtain ⟨exact, hexact, hfits, htracking⟩ := h.fits.push hn
  refine ⟨_, Option.map_eq_some_iff.mpr ⟨exact, hexact, rfl⟩, ?_, by simp⟩
  exact {
    exactTracking := htracking.trans h.exactTracking
    fits := hfits
    active := h.active
    nonExisting := by simp
    existing := by simp
    sizes := by
      intro level hlevel
      rcases List.mem_cons.mp hlevel with rfl | hlevel
      · simp [emptyLevel]
      · exact h.sizes level hlevel }

theorem Tracked.pop (h : c.Tracked n size) : ∃ d, trackingPop size c = some d := by
  obtain ⟨level, levels, hexisting⟩ := List.exists_cons_of_ne_nil h.existing
  obtain ⟨keys, others, hnon⟩ := List.exists_cons_of_ne_nil h.nonExisting
  simp [trackingPop, hexisting, hnon]

theorem Tracked.clear (h : c.Tracked n size) :
    (clearTracking size c).Tracked n size where
  exactTracking := rfl
  fits := h.fits.clear
  active := rfl
  nonExisting := by simp [clearTracking]
  existing := by simp [clearTracking]
  sizes := by simp [clearTracking, emptyLevel]

theorem Tracked.exact_access (hn : n < 8) (h : c.Tracked n size) :
    Tracked n size { c with exact := c.exact.access } :=
  { h with fits := (AccessTracker.fits_access hn _).mpr h.fits }

theorem Tracked.markKey [DecidableEq K] (h : c.Tracked n size) (index : Option Nat) (key : K) :
    ∃ d, TrackingContainer.markKey size index key c = some d ∧ d.Tracked n size ∧
      d.existing.length = c.existing.length := by
  obtain ⟨level, levels, hexisting⟩ := List.exists_cons_of_ne_nil h.existing
  obtain ⟨keys, others, hnon⟩ := List.exists_cons_of_ne_nil h.nonExisting
  have hsize : ∀ l ∈ level :: levels, l.length = size := hexisting ▸ h.sizes
  cases index with
  | none =>
    refine ⟨{ c with nonExisting := insert key keys :: others },
      by simp [TrackingContainer.markKey, h.active, hnon], { h with nonExisting := by simp }, rfl⟩
  | some i =>
    refine ⟨{ c with existing := level.set i true :: levels },
      by simp [TrackingContainer.markKey, h.active, hexisting, hsize level], ?_,
      by simp [hexisting]⟩
    refine { h with existing := by simp, sizes := fun l hl => ?_ }
    rcases List.mem_cons.mp hl with rfl | hl
    · rw [List.length_set]
      exact hsize level List.mem_cons_self
    · exact hsize l (List.mem_cons_of_mem _ hl)

/-- A clear leaves only one level. -/
theorem outer_clearTracking_ne (h : 2 ≤ c.existing.length) :
    (clearTracking size c).outer ≠ c.outer := by
  intro heq
  have htail := congrArg (fun d => d.existing.length) heq
  simp only [outer, clearTracking, List.tail_cons, List.length_nil, List.length_tail] at htail
  omega

end TrackingContainer

end TupleTree
