import Revng.TupleTree.AccessTracker
import Revng.TupleTree.Tracking

/-!
# Trees with trackers

A tracked tree is a tuple tree with the trackers that are in it: one for every field, and those of
the containers.  The visits of `TrackingImpl` do something to each of them.  While the object
behind a pointer is visited, the tracker of its kind is suspended.

Visits treat every tracker on its own.  So what holds for each tracker holds for the tree: two
visits in a row are a third one (`visitImpl_bind`), and what a visit establishes at every tracker
it establishes everywhere (`visitImpl_all`).
-/

namespace TupleTree

/-- A tuple tree with its trackers.  The elements of a container come with their keys. -/
inductive TrackedTree (S : Type) where
  | scalar (value : S)
  | struct (fields : List (AccessTracker × TrackedTree S))
  | null
  | object (kind : S) (kindField : Nat) (fields : List (AccessTracker × TrackedTree S))
  | container (kind : ContainerKind) (tracking : TrackingContainer (List S))
      (elements : List (List S × TrackedTree S))

/-- What a visit does with a tracker and with a container. -/
structure Visitor (S : Type) where
  visitTupleElement : AccessTracker → Option AccessTracker
  visitKeyedObjectContainer :
    Nat → TrackingContainer (List S) → Option (TrackingContainer (List S))

variable {S : Type}

/-- The tracker of a kind is suspended. -/
def Visitor.onTracker (v : Visitor S) (isKind : Bool) : AccessTracker → Option AccessTracker :=
  if isKind then AccessTracker.suspend v.visitTupleElement else v.visitTupleElement

namespace TrackedTree

mutual

/-- `TrackingImpl::visitImpl` -/
def visitImpl (v : Visitor S) : TrackedTree S → Option (TrackedTree S)
  | .scalar value => some (.scalar value)
  | .struct fields => (visitTuple v none 0 fields).map .struct
  | .null => some .null
  | .object kind kindField fields =>
      (visitTuple v (some kindField) 0 fields).map (.object kind kindField)
  | .container kind tracking elements => do
      let visited ← visitElements v elements
      let tracking ← v.visitKeyedObjectContainer elements.length tracking
      return .container kind tracking visited

/-- `TrackingImpl::visitTuple`, from the field `i` on. -/
def visitTuple (v : Visitor S) (kindField : Option Nat) (i : Nat) :
    List (AccessTracker × TrackedTree S) → Option (List (AccessTracker × TrackedTree S))
  | [] => some []
  | (tracker, x) :: rest => do
      let x ← visitImpl v x
      let tracker ← v.onTracker (kindField = some i) tracker
      let rest ← visitTuple v kindField (i + 1) rest
      return (tracker, x) :: rest

def visitElements (v : Visitor S) :
    List (List S × TrackedTree S) → Option (List (List S × TrackedTree S))
  | [] => some []
  | (key, x) :: rest => do
      let x ← visitImpl v x
      let rest ← visitElements v rest
      return (key, x) :: rest

end

/-! ## The visitors -/

/-- `Tracking::push` -/
def push : TrackedTree S → Option (TrackedTree S) :=
  visitImpl ⟨AccessTracker.push, TrackingContainer.trackingPush⟩

/-- `Tracking::pop` -/
def pop : TrackedTree S → Option (TrackedTree S) :=
  visitImpl ⟨fun t => some t.pop, TrackingContainer.trackingPop⟩

/-- `Tracking::clearAndResume` -/
def clearAndResume : TrackedTree S → Option (TrackedTree S) :=
  visitImpl ⟨fun t => some t.clear, fun size c => some (c.clearTracking size)⟩

/-- The levels below the current one, everywhere in the tree. -/
def outer : TrackedTree S → Option (TrackedTree S) :=
  visitImpl ⟨fun t => some t.pop, fun _ c => some c.outer⟩

/-! ## Accesses -/

/-- A change of one entry of a list. -/
def modifyEntry {α : Type} (g : α → Option α) (i : Nat) (entries : List α) : Option (List α) :=
  match entries[i]? with
  | some entry => (g entry).map (entries.set i)
  | none => some entries

/-- A change at a place of the tree. -/
def modifyAt [DecidableEq S] (g : TrackedTree S → Option (TrackedTree S)) :
    Path S → TrackedTree S → Option (TrackedTree S)
  | [], u => g u
  | .field i :: rest, .struct fields =>
      (modifyEntry (fun entry => (modifyAt g rest entry.2).map (entry.1, ·)) i fields).map .struct
  | .field i :: rest, .object kind kindField fields =>
      (modifyEntry (fun entry => (modifyAt g rest entry.2).map (entry.1, ·)) i fields).map
        (.object kind kindField)
  | .kind k :: rest, .object kind kindField fields =>
      if k = kind then modifyAt g rest (.object kind kindField fields)
      else some (.object kind kindField fields)
  | .key key :: rest, .container kind tracking elements =>
      match elements.findIdx? (·.1 = key) with
      | some i =>
          (modifyEntry (fun entry => (modifyAt g rest entry.2).map (entry.1, ·)) i elements).map
            (.container kind tracking)
      | none => some (.container kind tracking elements)
  | _, u => some u

/-- The getter of the field `i`. -/
def accessField (i : Nat) : TrackedTree S → Option (TrackedTree S)
  | .struct fields =>
      (modifyEntry (fun entry => some (entry.1.access, entry.2)) i fields).map .struct
  | .object kind kindField fields =>
      (modifyEntry (fun entry => some (entry.1.access, entry.2)) i fields).map
        (.object kind kindField)
  | u => some u

def accessKey [DecidableEq S] (key : List S) : TrackedTree S → Option (TrackedTree S)
  | .container kind tracking elements =>
      (tracking.markKey elements.length (elements.findIdx? (·.1 = key)) key).map
        (.container kind · elements)
  | u => some u

def accessExact : TrackedTree S → Option (TrackedTree S)
  | .container kind tracking elements =>
      some (.container kind { tracking with exact := tracking.exact.access } elements)
  | u => some u

/-- An access sets one tracker.  A place that the tree does not have has none. -/
def access [DecidableEq S] : Mark S → TrackedTree S → Option (TrackedTree S)
  | .field path, u =>
      match path.getLast? with
      | some (.field i) => modifyAt (accessField i) path.dropLast u
      | _ => some u
  | .key path key, u => modifyAt (accessKey key) path u
  | .exact path, u => modifyAt accessExact path u

/-! ## Properties of all trackers -/

mutual

/-- `p` holds of the trackers of the fields, which may be those of a kind, and `q` of the containers
and their sizes. -/
def All (p : Bool → AccessTracker → Prop) (q : Nat → TrackingContainer (List S) → Prop) :
    TrackedTree S → Prop
  | .scalar _ => True
  | .struct fields => AllTuple p q none 0 fields
  | .null => True
  | .object _ kindField fields => AllTuple p q (some kindField) 0 fields
  | .container _ tracking elements => AllElements p q elements ∧ q elements.length tracking

def AllTuple (p : Bool → AccessTracker → Prop) (q : Nat → TrackingContainer (List S) → Prop)
    (kindField : Option Nat) (i : Nat) : List (AccessTracker × TrackedTree S) → Prop
  | [] => True
  | (tracker, x) :: rest =>
      All p q x ∧ p (kindField = some i) tracker ∧ AllTuple p q kindField (i + 1) rest

def AllElements (p : Bool → AccessTracker → Prop)
    (q : Nat → TrackingContainer (List S) → Prop) : List (List S × TrackedTree S) → Prop
  | [] => True
  | (_, x) :: rest => All p q x ∧ AllElements p q rest

end

/-- There is no container in the tree. -/
def ContainerFree (u : TrackedTree S) : Prop := All (fun _ _ => True) (fun _ _ => False) u

/-! ## What the visits do -/

variable {v : Visitor S}

theorem visitTuple_cons {kindField : Option Nat} {i : Nat} {t : AccessTracker} {x : TrackedTree S}
    {rest ys : List (AccessTracker × TrackedTree S)} :
    visitTuple v kindField i ((t, x) :: rest) = some ys ↔
      ∃ y t' zs, visitImpl v x = some y ∧ v.onTracker (kindField = some i) t = some t' ∧
        visitTuple v kindField (i + 1) rest = some zs ∧ (t', y) :: zs = ys := by
  simp only [visitTuple, Option.pure_def, Option.bind_eq_bind, Option.bind_eq_some_iff,
    Option.some.injEq]
  constructor
  · rintro ⟨y, hy, t', ht', zs, hzs, rfl⟩
    exact ⟨y, t', zs, hy, ht', hzs, rfl⟩
  · rintro ⟨y, t', zs, hy, ht', hzs, rfl⟩
    exact ⟨y, hy, t', ht', zs, hzs, rfl⟩

theorem visitElements_cons {key : List S} {x : TrackedTree S}
    {rest ys : List (List S × TrackedTree S)} :
    visitElements v ((key, x) :: rest) = some ys ↔
      ∃ y zs, visitImpl v x = some y ∧ visitElements v rest = some zs ∧ (key, y) :: zs = ys := by
  simp only [visitElements, Option.pure_def, Option.bind_eq_bind, Option.bind_eq_some_iff,
    Option.some.injEq]
  constructor
  · rintro ⟨y, hy, zs, hzs, rfl⟩
    exact ⟨y, zs, hy, hzs, rfl⟩
  · rintro ⟨y, zs, hy, hzs, rfl⟩
    exact ⟨y, hy, zs, hzs, rfl⟩

theorem visitImpl_container {kind : ContainerKind} {c : TrackingContainer (List S)}
    {elements : List (List S × TrackedTree S)} {u : TrackedTree S} :
    visitImpl v (.container kind c elements) = some u ↔
      ∃ ys c', visitElements v elements = some ys ∧
        v.visitKeyedObjectContainer elements.length c = some c' ∧ .container kind c' ys = u := by
  simp only [visitImpl, Option.pure_def, Option.bind_eq_bind, Option.bind_eq_some_iff,
    Option.some.injEq]
  constructor
  · rintro ⟨ys, hys, c', hc', rfl⟩
    exact ⟨ys, c', hys, hc', rfl⟩
  · rintro ⟨ys, c', hys, hc', rfl⟩
    exact ⟨ys, hys, c', hc', rfl⟩

theorem visitElements_length :
    ∀ {xs ys : List (List S × TrackedTree S)}, visitElements v xs = some ys →
      ys.length = xs.length := by
  intro xs
  induction xs with
  | nil =>
    intro ys h
    obtain rfl : [] = ys := by simpa [visitElements] using h
    rfl
  | cons entry rest ih =>
    intro ys h
    obtain ⟨y, zs, -, hzs, rfl⟩ := visitElements_cons.mp h
    simp [ih hzs]

mutual

theorem visitImpl_some (u : TrackedTree S) : visitImpl ⟨some, fun _ => some⟩ u = some u := by
  match u with
  | .scalar value => rfl
  | .struct fields => rw [visitImpl, visitTuple_some, Option.map_some]
  | .null => rfl
  | .object kind kindField fields => rw [visitImpl, visitTuple_some, Option.map_some]
  | .container kind c elements =>
    exact visitImpl_container.mpr ⟨elements, c, visitElements_some elements, rfl, rfl⟩

theorem visitTuple_some (kindField : Option Nat) (i : Nat)
    (fields : List (AccessTracker × TrackedTree S)) :
    visitTuple ⟨some, fun _ => some⟩ kindField i fields = some fields := by
  match fields with
  | [] => rfl
  | (t, x) :: rest =>
    refine visitTuple_cons.mpr
      ⟨x, t, rest, visitImpl_some x, ?_, visitTuple_some kindField (i + 1) rest, rfl⟩
    unfold Visitor.onTracker
    split <;> rfl

theorem visitElements_some (elements : List (List S × TrackedTree S)) :
    visitElements ⟨some, fun _ => some⟩ elements = some elements := by
  match elements with
  | [] => rfl
  | (key, x) :: rest =>
    exact visitElements_cons.mpr ⟨x, rest, visitImpl_some x, visitElements_some rest, rfl⟩

end

section Visits

variable {v v' w : Visitor S} {p p' : Bool → AccessTracker → Prop}
  {q q' : Nat → TrackingContainer (List S) → Prop}

/-- At every tracker, the visits `v` and `v'` in a row are the visit `w`. -/
structure Composes (p : Bool → AccessTracker → Prop)
    (q : Nat → TrackingContainer (List S) → Prop) (v v' w : Visitor S) : Prop where
  tracker : ∀ {isKind t t'}, p isKind t → v.onTracker isKind t = some t' →
    v'.onTracker isKind t' = w.onTracker isKind t
  container : ∀ {size c c'}, q size c → v.visitKeyedObjectContainer size c = some c' →
    v'.visitKeyedObjectContainer size c' = w.visitKeyedObjectContainer size c

/-- At every tracker, the visit `v` establishes `p'` and `q'`. -/
structure Establishes (p : Bool → AccessTracker → Prop)
    (q : Nat → TrackingContainer (List S) → Prop) (v : Visitor S)
    (p' : Bool → AccessTracker → Prop) (q' : Nat → TrackingContainer (List S) → Prop) :
    Prop where
  tracker : ∀ {isKind t}, p isKind t → ∃ t', v.onTracker isKind t = some t' ∧ p' isKind t'
  container : ∀ {size c}, q size c →
    ∃ c', v.visitKeyedObjectContainer size c = some c' ∧ q' size c'

mutual

/-- Two visits in a row, when at every tracker they are one. -/
theorem visitImpl_visitImpl (hc : Composes p q v v' w) {u u' : TrackedTree S} (h : All p q u)
    (hv : visitImpl v u = some u') : visitImpl v' u' = visitImpl w u := by
  match u with
  | .scalar value =>
    obtain rfl : .scalar value = u' := by simpa [visitImpl] using hv
    rfl
  | .struct fields =>
    obtain ⟨ys, hys, rfl⟩ := Option.map_eq_some_iff.mp hv
    rw [visitImpl, visitImpl, visitTuple_visitTuple hc h hys]
  | .null =>
    obtain rfl : .null = u' := by simpa [visitImpl] using hv
    rfl
  | .object kind kindField fields =>
    obtain ⟨ys, hys, rfl⟩ := Option.map_eq_some_iff.mp hv
    rw [visitImpl, visitImpl, visitTuple_visitTuple hc h hys]
  | .container kind c elements =>
    obtain ⟨ys, c', hys, hc', rfl⟩ := visitImpl_container.mp hv
    rw [visitImpl, visitImpl, visitElements_visitElements hc h.1 hys, visitElements_length hys,
      hc.container h.2 hc']

theorem visitTuple_visitTuple (hc : Composes p q v v' w) {kindField : Option Nat} {i : Nat}
    {xs ys : List (AccessTracker × TrackedTree S)} (h : AllTuple p q kindField i xs)
    (hv : visitTuple v kindField i xs = some ys) :
    visitTuple v' kindField i ys = visitTuple w kindField i xs := by
  match xs with
  | [] =>
    obtain rfl : [] = ys := by simpa [visitTuple] using hv
    rfl
  | (t, x) :: rest =>
    obtain ⟨y, t', zs, hy, ht', hzs, rfl⟩ := visitTuple_cons.mp hv
    rw [visitTuple, visitTuple, visitImpl_visitImpl hc h.1 hy, hc.tracker h.2.1 ht',
      visitTuple_visitTuple hc h.2.2 hzs]

theorem visitElements_visitElements (hc : Composes p q v v' w)
    {xs ys : List (List S × TrackedTree S)} (h : AllElements p q xs) (hv : visitElements v xs = some ys) :
    visitElements v' ys = visitElements w xs := by
  match xs with
  | [] =>
    obtain rfl : [] = ys := by simpa [visitElements] using hv
    rfl
  | (key, x) :: rest =>
    obtain ⟨y, zs, hy, hzs, rfl⟩ := visitElements_cons.mp hv
    rw [visitElements, visitElements, visitImpl_visitImpl hc h.1 hy,
      visitElements_visitElements hc h.2 hzs]

end

mutual

/-- What a visit establishes at every tracker, it establishes in the tree. -/
theorem exists_visitImpl (he : Establishes p q v p' q') {u : TrackedTree S} (h : All p q u) :
    ∃ u', visitImpl v u = some u' ∧ All p' q' u' := by
  match u with
  | .scalar value => exact ⟨_, rfl, trivial⟩
  | .struct fields =>
    obtain ⟨ys, hys, hall⟩ := exists_visitTuple he h
    exact ⟨.struct ys, by rw [visitImpl, hys, Option.map_some], hall⟩
  | .null => exact ⟨_, rfl, trivial⟩
  | .object kind kindField fields =>
    obtain ⟨ys, hys, hall⟩ := exists_visitTuple he h
    exact ⟨.object kind kindField ys, by rw [visitImpl, hys, Option.map_some], hall⟩
  | .container kind c elements =>
    obtain ⟨ys, hys, hall⟩ := exists_visitElements he h.1
    obtain ⟨c', hc', hqc⟩ := he.container h.2
    refine ⟨.container kind c' ys, visitImpl_container.mpr ⟨ys, c', hys, hc', rfl⟩, hall, ?_⟩
    rwa [visitElements_length hys]

theorem exists_visitTuple (he : Establishes p q v p' q') {kindField : Option Nat} {i : Nat}
    {xs : List (AccessTracker × TrackedTree S)} (h : AllTuple p q kindField i xs) :
    ∃ ys, visitTuple v kindField i xs = some ys ∧ AllTuple p' q' kindField i ys := by
  match xs with
  | [] => exact ⟨[], rfl, trivial⟩
  | (t, x) :: rest =>
    obtain ⟨y, hy, hally⟩ := exists_visitImpl he h.1
    obtain ⟨t', ht', hpt⟩ := he.tracker h.2.1
    obtain ⟨zs, hzs, hallzs⟩ := exists_visitTuple he h.2.2
    exact ⟨_, visitTuple_cons.mpr ⟨y, t', zs, hy, ht', hzs, rfl⟩, hally, hpt, hallzs⟩

theorem exists_visitElements (he : Establishes p q v p' q') {xs : List (List S × TrackedTree S)}
    (h : AllElements p q xs) :
    ∃ ys, visitElements v xs = some ys ∧ AllElements p' q' ys := by
  match xs with
  | [] => exact ⟨[], rfl, trivial⟩
  | (key, x) :: rest =>
    obtain ⟨y, hy, hally⟩ := exists_visitImpl he h.1
    obtain ⟨zs, hzs, hallzs⟩ := exists_visitElements he h.2
    exact ⟨_, visitElements_cons.mpr ⟨y, zs, hy, hzs, rfl⟩, hally, hallzs⟩

end

theorem All.mono (hp : ∀ {isKind t}, p isKind t → p' isKind t)
    (hq : ∀ {size c}, q size c → q' size c) {u : TrackedTree S} (h : All p q u) : All p' q' u := by
  have he : Establishes p q ⟨some, fun _ => some⟩ p' q' :=
    { tracker := by
        intro isKind t ht
        refine ⟨t, ?_, hp ht⟩
        cases isKind <;> rfl
      container := fun hc => ⟨_, rfl, hq hc⟩ }
  obtain ⟨u', hu', hall⟩ := exists_visitImpl he h
  rw [visitImpl_some] at hu'
  exact Option.some.inj hu' ▸ hall

mutual

theorem All.and {u : TrackedTree S} (h : All p q u) (h' : All p' q' u) :
    All (fun isKind t => p isKind t ∧ p' isKind t) (fun size c => q size c ∧ q' size c) u := by
  match u with
  | .scalar value => trivial
  | .struct fields => exact AllTuple.and h h'
  | .null => trivial
  | .object kind kindField fields => exact AllTuple.and h h'
  | .container kind c elements => exact ⟨AllElements.and h.1 h'.1, h.2, h'.2⟩

theorem AllTuple.and {kindField : Option Nat} {i : Nat}
    {fields : List (AccessTracker × TrackedTree S)} (h : AllTuple p q kindField i fields)
    (h' : AllTuple p' q' kindField i fields) :
    AllTuple (fun isKind t => p isKind t ∧ p' isKind t) (fun size c => q size c ∧ q' size c)
      kindField i fields := by
  match fields with
  | [] => trivial
  | (t, x) :: rest =>
    exact ⟨All.and h.1 h'.1, ⟨h.2.1, h'.2.1⟩, AllTuple.and h.2.2 h'.2.2⟩

theorem AllElements.and {elements : List (List S × TrackedTree S)} (h : AllElements p q elements)
    (h' : AllElements p' q' elements) :
    AllElements (fun isKind t => p isKind t ∧ p' isKind t) (fun size c => q size c ∧ q' size c)
      elements := by
  match elements with
  | [] => trivial
  | (key, x) :: rest => exact ⟨All.and h.1 h'.1, AllElements.and h.2 h'.2⟩

end

mutual

/-- If the third visit is another one than the first two together at every container, then there is
none. -/
theorem containerFree_of_visitImpl_eq {u u' u'' : TrackedTree S}
    (hq : ∀ {size c c'}, q size c → v.visitKeyedObjectContainer size c = some c' →
      v'.visitKeyedObjectContainer size c' ≠ w.visitKeyedObjectContainer size c)
    (h : All p q u) (hv : visitImpl v u = some u') (hv' : visitImpl v' u' = some u'')
    (hw : visitImpl w u = some u'') : ContainerFree u := by
  match u with
  | .scalar value => trivial
  | .struct fields =>
    obtain ⟨ys, hys, rfl⟩ := Option.map_eq_some_iff.mp hv
    obtain ⟨zs, hzs, rfl⟩ := Option.map_eq_some_iff.mp hv'
    obtain ⟨zs', hzs', heq⟩ := Option.map_eq_some_iff.mp hw
    cases heq
    exact containerFree_of_visitTuple_eq hq h hys hzs hzs'
  | .null => trivial
  | .object kind kindField fields =>
    obtain ⟨ys, hys, rfl⟩ := Option.map_eq_some_iff.mp hv
    obtain ⟨zs, hzs, rfl⟩ := Option.map_eq_some_iff.mp hv'
    obtain ⟨zs', hzs', heq⟩ := Option.map_eq_some_iff.mp hw
    cases heq
    exact containerFree_of_visitTuple_eq hq h hys hzs hzs'
  | .container kind c elements =>
    obtain ⟨ys, c', hys, hc', rfl⟩ := visitImpl_container.mp hv
    obtain ⟨zs, d, -, hd, rfl⟩ := visitImpl_container.mp hv'
    obtain ⟨zs', d', -, hd', heq⟩ := visitImpl_container.mp hw
    cases heq
    rw [visitElements_length hys] at hd
    exact absurd (hd.trans hd'.symm) (hq h.2 hc')

theorem containerFree_of_visitTuple_eq {kindField : Option Nat} {i : Nat}
    {xs ys zs : List (AccessTracker × TrackedTree S)}
    (hq : ∀ {size c c'}, q size c → v.visitKeyedObjectContainer size c = some c' →
      v'.visitKeyedObjectContainer size c' ≠ w.visitKeyedObjectContainer size c)
    (h : AllTuple p q kindField i xs)
    (hv : visitTuple v kindField i xs = some ys) (hv' : visitTuple v' kindField i ys = some zs)
    (hw : visitTuple w kindField i xs = some zs) :
    AllTuple (fun _ _ => True) (fun _ _ => False) kindField i xs := by
  match xs with
  | [] => trivial
  | (t, x) :: rest =>
    obtain ⟨y, t₁, ys, hy, -, hys, rfl⟩ := visitTuple_cons.mp hv
    obtain ⟨z, t₂, zs, hz, -, hzs, rfl⟩ := visitTuple_cons.mp hv'
    obtain ⟨z', t₃, zs', hz', -, hzs', heq⟩ := visitTuple_cons.mp hw
    cases heq
    exact ⟨containerFree_of_visitImpl_eq hq h.1 hy hz hz', trivial,
      containerFree_of_visitTuple_eq hq h.2.2 hys hzs hzs'⟩

end

mutual

theorem containerFree_of_visitImpl {u u' : TrackedTree S} (hv : visitImpl v u = some u')
    (h : ContainerFree u') : ContainerFree u := by
  match u with
  | .scalar value => trivial
  | .struct fields =>
    obtain ⟨ys, hys, rfl⟩ := Option.map_eq_some_iff.mp hv
    exact containerFree_of_visitTuple hys h
  | .null => trivial
  | .object kind kindField fields =>
    obtain ⟨ys, hys, rfl⟩ := Option.map_eq_some_iff.mp hv
    exact containerFree_of_visitTuple hys h
  | .container kind c elements =>
    obtain ⟨ys, c', -, -, rfl⟩ := visitImpl_container.mp hv
    exact h.2.elim

theorem containerFree_of_visitTuple {kindField : Option Nat} {i : Nat}
    {xs ys : List (AccessTracker × TrackedTree S)} (hv : visitTuple v kindField i xs = some ys)
    (h : AllTuple (fun _ _ => True) (fun _ _ => False) kindField i ys) :
    AllTuple (fun _ _ => True) (fun _ _ => False) kindField i xs := by
  match xs with
  | [] => trivial
  | (t, x) :: rest =>
    obtain ⟨y, t', zs, hy, -, hzs, rfl⟩ := visitTuple_cons.mp hv
    exact ⟨containerFree_of_visitImpl hy h.1, trivial, containerFree_of_visitTuple hzs h.2.2⟩

end

end Visits

/-! ## What the accesses do -/

section Accesses

variable {p : Bool → AccessTracker → Prop} {q : Nat → TrackingContainer (List S) → Prop}

variable {kindField : Option Nat} {t : AccessTracker} {x : TrackedTree S}

/-- An entry is changed to one that the visit treats alike. -/
theorem visitTuple_set {v : Visitor S} {t' : AccessTracker} {x' : TrackedTree S}
    (ht : ∀ isKind, v.onTracker isKind t' = v.onTracker isKind t)
    (hx : visitImpl v x' = visitImpl v x) :
    ∀ {fields : List (AccessTracker × TrackedTree S)} {i j : Nat}, fields[j]? = some (t, x) →
      visitTuple v kindField i (fields.set j (t', x')) = visitTuple v kindField i fields := by
  intro fields
  induction fields with
  | nil => simp
  | cons entry rest ih =>
    intro i j hj
    cases j with
    | zero =>
      obtain rfl : entry = (t, x) := by simpa using hj
      simp only [List.set_cons_zero, visitTuple, hx, ht]
    | succ j =>
      obtain ⟨t₀, x₀⟩ := entry
      simp only [List.set_cons_succ, visitTuple, ih (i := i + 1) (by simpa using hj)]

theorem visitElements_set {v : Visitor S} {key : List S} {x' : TrackedTree S}
    (hx : visitImpl v x' = visitImpl v x) :
    ∀ {elements : List (List S × TrackedTree S)} {j : Nat}, elements[j]? = some (key, x) →
      visitElements v (elements.set j (key, x')) = visitElements v elements := by
  intro elements
  induction elements with
  | nil => simp
  | cons entry rest ih =>
    intro j hj
    cases j with
    | zero =>
      obtain rfl : entry = (key, x) := by simpa using hj
      simp only [List.set_cons_zero, visitElements, hx]
    | succ j =>
      obtain ⟨key₀, x₀⟩ := entry
      simp only [List.set_cons_succ, visitElements, ih (by simpa using hj)]

theorem AllTuple.get :
    ∀ {fields : List (AccessTracker × TrackedTree S)} {i j : Nat},
      AllTuple p q kindField i fields → fields[j]? = some (t, x) →
        All p q x ∧ p (kindField = some (i + j)) t := by
  intro fields
  induction fields with
  | nil => simp
  | cons entry rest ih =>
    intro i j h hj
    cases j with
    | zero =>
      obtain rfl : entry = (t, x) := by simpa using hj
      exact ⟨h.1, h.2.1⟩
    | succ j =>
      have hrest := ih h.2.2 (j := j) (by simpa using hj)
      rwa [Nat.add_assoc, Nat.add_comm 1 j] at hrest

theorem AllTuple.set (hx : All p q x) :
    ∀ {fields : List (AccessTracker × TrackedTree S)} {i j : Nat},
      AllTuple p q kindField i fields → p (kindField = some (i + j)) t →
        AllTuple p q kindField i (fields.set j (t, x)) := by
  intro fields
  induction fields with
  | nil => exact fun h _ => h
  | cons entry rest ih =>
    intro i j h ht
    cases j with
    | zero => exact ⟨hx, ht, h.2.2⟩
    | succ j =>
      rw [Nat.add_comm j 1, ← Nat.add_assoc] at ht
      exact ⟨h.1, h.2.1, ih h.2.2 ht⟩

theorem AllElements.get {key : List S} :
    ∀ {elements : List (List S × TrackedTree S)} {j : Nat}, AllElements p q elements →
      elements[j]? = some (key, x) → All p q x := by
  intro elements
  induction elements with
  | nil => simp
  | cons entry rest ih =>
    intro j h hj
    cases j with
    | zero =>
      obtain rfl : entry = (key, x) := by simpa using hj
      exact h.1
    | succ j => exact ih h.2 (j := j) (by simpa using hj)

theorem AllElements.set {key : List S} (hx : All p q x) :
    ∀ {elements : List (List S × TrackedTree S)} {j : Nat}, AllElements p q elements →
      AllElements p q (elements.set j (key, x)) := by
  intro elements
  induction elements with
  | nil => simp
  | cons entry rest ih =>
    intro j h
    cases j with
    | zero => exact ⟨hx, h.2⟩
    | succ j => exact ⟨h.1, ih h.2⟩

/-- The operation can be done, keeps the property, and does not matter to the visit. -/
def Keeps (p : Bool → AccessTracker → Prop) (q : Nat → TrackingContainer (List S) → Prop)
    (v : Visitor S) (g : TrackedTree S → Option (TrackedTree S)) : Prop :=
  ∀ u, All p q u → ∃ u', g u = some u' ∧ All p q u' ∧ visitImpl v u' = visitImpl v u

/-- The same of an operation on a field and its tracker. -/
def KeepsField (p : Bool → AccessTracker → Prop) (q : Nat → TrackingContainer (List S) → Prop)
    (v : Visitor S) (g : AccessTracker × TrackedTree S → Option (AccessTracker × TrackedTree S)) :
    Prop :=
  ∀ t x, All p q x → ∃ t' x', g (t, x) = some (t', x') ∧ All p q x' ∧
    (∀ isKind, (p isKind t → p isKind t') ∧ v.onTracker isKind t' = v.onTracker isKind t) ∧
    visitImpl v x' = visitImpl v x

variable {v : Visitor S}

variable {g : AccessTracker × TrackedTree S → Option (AccessTracker × TrackedTree S)}
  {fields : List (AccessTracker × TrackedTree S)}

theorem KeepsField.modifyEntry (hg : KeepsField p q v g) {i : Nat}
    (h : AllTuple p q kindField 0 fields) :
    ∃ ys, modifyEntry g i fields = some ys ∧ AllTuple p q kindField 0 ys ∧
      visitTuple v kindField 0 ys = visitTuple v kindField 0 fields := by
  unfold TrackedTree.modifyEntry
  cases hi : fields[i]? with
  | none => exact ⟨fields, rfl, h, rfl⟩
  | some entry =>
    obtain ⟨t, x⟩ := entry
    obtain ⟨hx, ht⟩ := h.get hi
    obtain ⟨t', x', hgx, hx', ht', hvx⟩ := hg t x hx
    refine ⟨fields.set i (t', x'), by simp [hgx], h.set hx' ((ht' _).1 ht), ?_⟩
    exact visitTuple_set (fun isKind => (ht' isKind).2) hvx hi

theorem KeepsField.struct (hg : KeepsField p q v g) {i : Nat} (h : All p q (.struct fields)) :
    ∃ u', (TrackedTree.modifyEntry g i fields).map .struct = some u' ∧ All p q u' ∧
      visitImpl v u' = visitImpl v (.struct fields) := by
  obtain ⟨ys, hys, hall, hvisit⟩ := hg.modifyEntry (i := i) h
  exact ⟨.struct ys, by rw [hys, Option.map_some], hall, by rw [visitImpl, visitImpl, hvisit]⟩

theorem KeepsField.object (hg : KeepsField p q v g) {i : Nat} {kind : S} {kindField : Nat}
    (h : All p q (.object kind kindField fields)) :
    ∃ u', (TrackedTree.modifyEntry g i fields).map (.object kind kindField) = some u' ∧
      All p q u' ∧ visitImpl v u' = visitImpl v (.object kind kindField fields) := by
  obtain ⟨ys, hys, hall, hvisit⟩ := hg.modifyEntry (i := i) h
  exact ⟨.object kind kindField ys, by rw [hys, Option.map_some], hall,
    by rw [visitImpl, visitImpl, hvisit]⟩

/-- An operation on the value of a field leaves its tracker. -/
theorem keepsField_value {g : TrackedTree S → Option (TrackedTree S)}
    (hg : ∀ x, All p q x → ∃ x', g x = some x' ∧ All p q x' ∧ visitImpl v x' = visitImpl v x) :
    KeepsField p q v fun entry => (g entry.2).map (entry.1, ·) := by
  intro t x hx
  obtain ⟨x', hgx, hx', hvisit⟩ := hg x hx
  exact ⟨t, x', by simp [hgx], hx', fun _ => ⟨id, rfl⟩, hvisit⟩

theorem keeps_element {g : TrackedTree S → Option (TrackedTree S)}
    (hg : ∀ x, All p q x → ∃ x', g x = some x' ∧ All p q x' ∧ visitImpl v x' = visitImpl v x)
    {kind : ContainerKind} {c : TrackingContainer (List S)} {i : Nat}
    {elements : List (List S × TrackedTree S)} (h : All p q (.container kind c elements)) :
    ∃ u', (modifyEntry (fun entry => (g entry.2).map (entry.1, ·)) i elements).map
        (.container kind c) = some u' ∧ All p q u' ∧
      visitImpl v u' = visitImpl v (.container kind c elements) := by
  unfold TrackedTree.modifyEntry
  cases hi : elements[i]? with
  | none => exact ⟨_, rfl, h, rfl⟩
  | some entry =>
    obtain ⟨key, x⟩ := entry
    obtain ⟨x', hgx, hx', hvisit⟩ := hg x (h.1.get hi)
    refine ⟨.container kind c (elements.set i (key, x')), by simp [hgx], ⟨h.1.set hx', ?_⟩, ?_⟩
    · rw [List.length_set]
      exact h.2
    · rw [visitImpl, visitImpl, visitElements_set hvisit hi, List.length_set]

theorem Keeps.modifyAt [DecidableEq S] {g : TrackedTree S → Option (TrackedTree S)}
    (hg : Keeps p q v g) : ∀ path, Keeps p q v (modifyAt g path) := by
  intro path u h
  induction path, u using modifyAt.induct with
  | case1 u => exact hg u h
  | case2 i rest fields ih =>
    exact (keepsField_value fun x => ih (⟨0, false⟩, x)).struct h
  | case3 i rest kind kindField fields ih =>
    exact (keepsField_value fun x => ih (⟨0, false⟩, x)).object h
  | case4 rest kind kindField fields ih =>
    rw [TrackedTree.modifyAt, if_pos rfl]
    exact ih h
  | case5 k rest kind kindField fields hne =>
    rw [TrackedTree.modifyAt, if_neg hne]
    exact ⟨_, rfl, h, rfl⟩
  | case6 key rest kind c elements i hi ih =>
    rw [TrackedTree.modifyAt, hi]
    exact keeps_element (fun x => ih (key, x)) h
  | case7 key rest kind c elements hi =>
    rw [TrackedTree.modifyAt, hi]
    exact ⟨_, rfl, h, rfl⟩
  | case8 path u hnil hstruct hobject hkind hkey =>
    refine ⟨u, ?_, h, rfl⟩
    rw [TrackedTree.modifyAt] <;> assumption

/-- The properties of a tracker and of a container that the accesses keep, and a visit to which
they do not matter. -/
structure AccessSafe (p : Bool → AccessTracker → Prop)
    (q : Nat → TrackingContainer (List S) → Prop) (v : Visitor S) [DecidableEq S] : Prop where
  tracker : ∀ {isKind t}, p isKind t → p isKind t.access
  onTracker : ∀ isKind t, v.onTracker isKind t.access = v.onTracker isKind t
  exact : ∀ {size c}, q size c → q size { c with exact := c.exact.access } ∧
    v.visitKeyedObjectContainer size { c with exact := c.exact.access } =
      v.visitKeyedObjectContainer size c
  key : ∀ {size c} index key, q size c → ∃ c', c.markKey size index key = some c' ∧ q size c' ∧
    v.visitKeyedObjectContainer size c' = v.visitKeyedObjectContainer size c

theorem AccessSafe.access [DecidableEq S] (hs : AccessSafe p q v) (m : Mark S) :
    Keeps p q v (access m) := by
  have hfield : ∀ i, Keeps p q v (accessField i) := by
    intro i
    have hentry : KeepsField p q v fun entry => some (entry.1.access, entry.2) := fun t x hx =>
      ⟨t.access, x, rfl, hx, fun isKind => ⟨hs.tracker, hs.onTracker isKind t⟩, rfl⟩
    rintro (_ | _ | _ | _ | _) h
    · exact ⟨_, rfl, h, rfl⟩
    · exact hentry.struct h
    · exact ⟨_, rfl, h, rfl⟩
    · exact hentry.object h
    · exact ⟨_, rfl, h, rfl⟩
  have hkey : ∀ key, Keeps p q v (accessKey key) := by
    rintro key (_ | _ | _ | _ | ⟨kind, c, elements⟩) h
    case container =>
      obtain ⟨c', hc', hqc, hvisit⟩ := hs.key (elements.findIdx? (·.1 = key)) key h.2
      refine ⟨.container kind c' elements, by simp [accessKey, hc'], ⟨h.1, hqc⟩, ?_⟩
      rw [visitImpl, visitImpl, hvisit]
    all_goals exact ⟨_, rfl, h, rfl⟩
  have hexact : Keeps p q v accessExact := by
    rintro (_ | _ | _ | _ | ⟨kind, c, elements⟩) h
    case container =>
      obtain ⟨hqc, hvisit⟩ := hs.exact h.2
      refine ⟨_, rfl, ⟨h.1, hqc⟩, ?_⟩
      rw [visitImpl, visitImpl, hvisit]
    all_goals exact ⟨_, rfl, h, rfl⟩
  cases m with
  | field path =>
    intro u h
    simp only [TrackedTree.access]
    split
    next i _ => exact (hfield i).modifyAt _ u h
    next => exact ⟨u, rfl, h, rfl⟩
  | key path key => exact (hkey key).modifyAt path
  | exact path => exact hexact.modifyAt path

end Accesses

end TrackedTree

end TupleTree
