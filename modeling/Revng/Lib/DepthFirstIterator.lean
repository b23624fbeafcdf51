import Revng.Lib.StrongComponents

/-!
# Depth-first iteration with a storage

A depth-first iterator asks a storage whether it may enter a node, yields the node and goes on with
its successors, and tells the storage when it is done with them.  `Visits` are the runs of such an
iterator, and `Yielded` keeps what can be seen from outside when a node is yielded: the nodes on
the way to it and the storage.

What is yielded are the nodes that are reached (`mem_nodes_iff`).  Without the edges to a node on
the way to their source no cycle is left (`acyclic_forward`).
-/

namespace DepthFirstIterator

open Relation StrongComponents

structure Storage (σ α : Type) where
  /-- Mark a node, and tell whether it is new. -/
  insert : σ → α → σ × Bool
  /-- The successors of a node are done. -/
  completed : σ → α → σ

structure Yielded (σ α : Type) where
  node : α
  /-- The ancestors of the node in the depth-first tree, its parent first. -/
  path : List α
  storage : σ

variable {σ α : Type}

/-- The nodes are entered in order, and what they reach before the next one.  The indices are the
nodes on the way, the storage before, the nodes, what is yielded and the storage after. -/
inductive Visits (next : α → List α) (st : Storage σ α) :
    List α → σ → List α → List (Yielded σ α) → σ → Prop where
  | done {path s} : Visits next st path s [] [] s
  | skip {path s a s' rest ys t} : st.insert s a = (s', false) →
      Visits next st path s' rest ys t → Visits next st path s (a :: rest) ys t
  | enter {path s a s' ys u rest zs t} : st.insert s a = (s', true) →
      Visits next st (a :: path) s' (next a) ys u →
      Visits next st path (st.completed u a) rest zs t →
      Visits next st path s (a :: rest) (⟨a, path, s'⟩ :: ys ++ zs) t

/-- What an iterator yields that starts at a node. -/
def Iterates (next : α → List α) (st : Storage σ α) (s : σ) (entry : α)
    (ys : List (Yielded σ α)) : Prop :=
  ∃ t, Visits next st [] s [entry] ys t

/-! ## An iterator -/

def visit (next : α → List α) (st : Storage σ α) :
    Nat → List α → σ → List α → Option (List (Yielded σ α) × σ)
  | 0, _, _, _ => none
  | _ + 1, _, s, [] => some ([], s)
  | fuel + 1, path, s, a :: rest =>
      match st.insert s a with
      | (s', false) => visit next st fuel path s' rest
      | (s', true) => do
          let (ys, u) ← visit next st fuel (a :: path) s' (next a)
          let (zs, t) ← visit next st fuel path (st.completed u a) rest
          return (⟨a, path, s'⟩ :: ys ++ zs, t)

theorem visits_of_visit {next : α → List α} {st : Storage σ α} {fuel : Nat} {path : List α} {s t : σ}
    {pending : List α} {ys : List (Yielded σ α)}
    (h : visit next st fuel path s pending = some (ys, t)) :
    Visits next st path s pending ys t := by
  induction fuel generalizing path s pending ys t with
  | zero => cases h
  | succ fuel ih =>
    cases pending with
    | nil => cases h; exact .done
    | cons a rest =>
      rw [visit] at h
      split at h
      next s' hinsert => exact .skip hinsert (ih h)
      next s' hinsert =>
        simp only [Option.bind_eq_bind, Option.bind_eq_some_iff, Option.pure_def,
          Option.some.injEq, Prod.mk.injEq] at h
        obtain ⟨⟨ys, u⟩, hys, ⟨zs, t⟩, hzs, rfl, rfl⟩ := h
        exact .enter hinsert (ih hys) (ih hzs)

/-- What is yielded with enough fuel. -/
def iterate (next : α → List α) (st : Storage σ α) (fuel : Nat) (s : σ) (entry : α) :
    List (Yielded σ α) :=
  ((visit next st fuel [] s [entry]).map Prod.fst).getD []

theorem iterates_iterate {next : α → List α} {st : Storage σ α} {fuel : Nat} {s : σ} {entry : α}
    (h : (visit next st fuel [] s [entry]).isSome = true) :
    Iterates next st s entry (iterate next st fuel s entry) := by
  obtain ⟨⟨ys, t⟩, hvisit⟩ := Option.isSome_iff_exists.1 h
  rw [iterate, hvisit]
  exact ⟨t, visits_of_visit hvisit⟩

/-! ## Marks -/

/-- The storage enters exactly the nodes that it has not seen. -/
structure Marks (st : Storage σ α) (seen : σ → α → Prop) : Prop where
  insert_iff : ∀ s a, (st.insert s a).2 = true ↔ ¬seen s a
  seen_insert : ∀ s a x, seen (st.insert s a).1 x ↔ seen s x ∨ x = a
  seen_completed : ∀ s a, seen s a → ∀ x, seen (st.completed s a) x ↔ seen s x

def nodes (ys : List (Yielded σ α)) : List α := ys.map Yielded.node

@[simp] theorem nodes_nil : nodes ([] : List (Yielded σ α)) = [] := rfl

@[simp] theorem nodes_cons (y : Yielded σ α) (ys : List (Yielded σ α)) :
    nodes (y :: ys) = y.node :: nodes ys := rfl

@[simp] theorem nodes_append (ys zs : List (Yielded σ α)) :
    nodes (ys ++ zs) = nodes ys ++ nodes zs := List.map_append

section

variable {next : α → List α} {st : Storage σ α} {seen : σ → α → Prop} {path pending : List α}
  {s s' t : σ} {ys : List (Yielded σ α)} {a x : α}

theorem Marks.new (hm : Marks st seen) (h : st.insert s a = (s', true)) : ¬seen s a :=
  (hm.insert_iff s a).1 (by rw [h])

theorem Marks.old (hm : Marks st seen) (h : st.insert s a = (s', false)) : seen s a := by
  by_contra hnot
  have hnew := (hm.insert_iff s a).2 hnot
  rw [h] at hnew
  exact Bool.false_ne_true hnew

theorem Marks.seen_of_insert (hm : Marks st seen) {b : Bool} (h : st.insert s a = (s', b)) :
    seen s' x ↔ seen s x ∨ x = a := by
  rw [← hm.seen_insert, h]

/-- What is seen afterwards was seen before or yielded. -/
theorem Visits.seen_iff (hm : Marks st seen) (h : Visits next st path s pending ys t) :
    ∀ x, seen t x ↔ seen s x ∨ x ∈ nodes ys := by
  induction h with
  | done => simp
  | skip hinsert _ ih =>
    intro x
    rw [ih, hm.seen_of_insert hinsert]
    have hold := hm.old hinsert
    constructor
    · rintro ((hx | rfl) | hx)
      · exact .inl hx
      · exact .inl hold
      · exact .inr hx
    · rintro (hx | hx)
      · exact .inl (.inl hx)
      · exact .inr hx
  | enter hinsert _ _ ih ih' =>
    intro x
    have hentered := (ih _).2 (.inl ((hm.seen_of_insert hinsert).2 (.inr rfl)))
    rw [ih', hm.seen_completed _ _ hentered, ih, hm.seen_of_insert hinsert, nodes_append,
      nodes_cons, List.mem_append, List.mem_cons]
    tauto

/-- Nothing changes when a node is completed after its successors. -/
theorem Visits.completed (hm : Marks st seen) {next' : List α}
    (h : Visits next st (a :: path) s' next' ys t) (hinsert : st.insert s a = (s', true)) :
    ∀ x, seen (st.completed t a) x ↔ seen s x ∨ x = a ∨ x ∈ nodes ys := by
  intro x
  have hentered := (h.seen_iff hm a).2 (.inl ((hm.seen_of_insert hinsert).2 (.inr rfl)))
  rw [hm.seen_completed _ _ hentered, h.seen_iff hm, hm.seen_of_insert hinsert, or_assoc]

/-- Every node to enter is seen in the end. -/
theorem Visits.seen_pending (hm : Marks st seen) (h : Visits next st path s pending ys t) :
    ∀ a ∈ pending, seen t a := by
  induction h with
  | done => exact List.forall_mem_nil _
  | skip hinsert hrest ih =>
    refine List.forall_mem_cons.2 ⟨?_, ih⟩
    exact (hrest.seen_iff hm _).2 (.inl ((hm.seen_of_insert hinsert).2 (.inr rfl)))
  | enter hinsert hys hrest _ ih' =>
    refine List.forall_mem_cons.2 ⟨?_, ih'⟩
    exact (hrest.seen_iff hm _).2 (.inl ((hys.completed hm hinsert _).2 (.inr (.inl rfl))))

/-- Nothing is yielded that was seen before. -/
theorem Visits.not_seen (hm : Marks st seen) (h : Visits next st path s pending ys t) :
    ∀ x ∈ nodes ys, ¬seen s x := by
  induction h with
  | done => exact List.forall_mem_nil _
  | skip hinsert _ ih => exact fun x hx hs => ih x hx ((hm.seen_of_insert hinsert).2 (.inl hs))
  | enter hinsert hys _ ih ih' =>
    intro x hx hs
    rw [nodes_append, nodes_cons, List.mem_append, List.mem_cons] at hx
    rcases hx with (rfl | hx) | hx
    · exact hm.new hinsert hs
    · exact ih x hx ((hm.seen_of_insert hinsert).2 (.inl hs))
    · exact ih' x hx ((hys.completed hm hinsert x).2 (.inl hs))

/-- If only finitely many nodes are left then there is a run. -/
theorem Marks.exists_visits [DecidableEq α] (hm : Marks st seen) (next : α → List α)
    {left : List α} (hleft : ∀ x, ¬seen s x → x ∈ left) (path pending : List α) :
    ∃ ys t, Visits next st path s pending ys t := by
  induction hn : left.length using Nat.strong_induction_on generalizing left path s pending with
  | _ n ih =>
    induction pending generalizing s with
    | nil => exact ⟨[], s, .done⟩
    | cons a rest ihRest =>
      cases hinsert : st.insert s a with
      | mk s' new =>
        cases new with
        | false =>
          have hleft' : ∀ x, ¬seen s' x → x ∈ left := fun x hx =>
            hleft x fun hs => hx ((hm.seen_of_insert hinsert).2 (.inl hs))
          obtain ⟨ys, t, hrest⟩ := ihRest hleft'
          exact ⟨ys, t, .skip hinsert hrest⟩
        | true =>
          -- below the node and after it one node less is left
          have hmem : a ∈ left := hleft a (hm.new hinsert)
          have hless : (left.erase a).length < n := by
            rw [List.length_erase_of_mem hmem, ← hn]
            exact Nat.sub_lt (List.length_pos_of_mem hmem) Nat.one_pos
          have herase : ∀ x, ¬seen s x → x ≠ a → x ∈ left.erase a := fun x hx hne =>
            (List.mem_erase_of_ne hne).2 (hleft x hx)
          obtain ⟨ys, u, hys⟩ := ih _ hless (s := s') (fun x hx => herase x
            (fun hs => hx ((hm.seen_of_insert hinsert).2 (.inl hs)))
            fun heq => hx ((hm.seen_of_insert hinsert).2 (.inr heq))) (a :: path) (next a) rfl
          obtain ⟨zs, t, hzs⟩ := ih _ hless (s := st.completed u a) (fun x hx => herase x
            (fun hs => hx ((hys.completed hm hinsert x).2 (.inl hs)))
            fun heq => hx ((hys.completed hm hinsert x).2 (.inr (.inl heq)))) path rest rfl
          exact ⟨_, t, .enter hinsert hys hzs⟩

/-! ## What is reached -/

/-- An edge to a node that was not seen at first. -/
def Free (next : α → List α) (seen : σ → α → Prop) (s : σ) (a b : α) : Prop :=
  b ∈ next a ∧ ¬seen s b

/-- The successors of what is yielded are seen in the end. -/
theorem Visits.closed (hm : Marks st seen) (h : Visits next st path s pending ys t) :
    ∀ x ∈ nodes ys, ∀ b ∈ next x, seen t b := by
  induction h with
  | done => exact List.forall_mem_nil _
  | skip _ _ ih => exact ih
  | @enter path s a s' ys u rest zs t hinsert hys hzs ih ih' =>
    have hlater : ∀ b, seen u b → seen t b := by
      intro b hb
      have hentered := (hys.seen_iff hm a).2 (.inl ((hm.seen_of_insert hinsert).2 (.inr rfl)))
      exact (hzs.seen_iff hm b).2 (.inl ((hm.seen_completed _ _ hentered b).2 hb))
    intro x hx b hb
    rw [nodes_append, nodes_cons, List.cons_append, List.mem_cons, List.mem_append] at hx
    rcases hx with rfl | hx | hx
    · exact hlater b (hys.seen_pending hm b hb)
    · exact hlater b (ih x hx b hb)
    · exact ih' x hx b hb

theorem reaches_of_seen {s' : σ} (hseen : ∀ z, seen s z → seen s' z) {b : α}
    (h : ReflTransGen (Free next seen s') b x) : ReflTransGen (Free next seen s) b x := by
  refine h.lift id fun y z hyz => ?_
  exact ⟨hyz.1, fun hz => hyz.2 (hseen z hz)⟩

/-- What is yielded is reached from one of the nodes to enter. -/
theorem Visits.reached (hm : Marks st seen) (h : Visits next st path s pending ys t) :
    ∀ x ∈ nodes ys, ∃ a ∈ pending, ¬seen s a ∧ ReflTransGen (Free next seen s) a x := by
  induction h with
  | done => exact List.forall_mem_nil _
  | @skip path s a s' rest ys t hinsert _ ih =>
    intro x hx
    have hseen : ∀ z, seen s z → seen s' z := fun z hz => (hm.seen_of_insert hinsert).2 (.inl hz)
    obtain ⟨b, hb, hnot, hr⟩ := ih x hx
    exact ⟨b, List.mem_cons_of_mem _ hb, fun hs => hnot (hseen b hs), reaches_of_seen hseen hr⟩
  | @enter path s a s' ys u rest zs t hinsert hys _ ih ih' =>
    intro x hx
    have hseen : ∀ z, seen s z → seen s' z := fun z hz => (hm.seen_of_insert hinsert).2 (.inl hz)
    have hseen' : ∀ z, seen s z → seen (st.completed u a) z := fun z hz =>
      (hys.completed hm hinsert z).2 (.inl hz)
    rw [nodes_append, nodes_cons, List.cons_append, List.mem_cons, List.mem_append] at hx
    rcases hx with rfl | hx | hx
    · exact ⟨_, List.mem_cons_self, hm.new hinsert, .refl⟩
    · obtain ⟨b, hb, hnot, hr⟩ := ih x hx
      have hfirst : Free next seen s a b := ⟨hb, fun hs => hnot (hseen b hs)⟩
      exact ⟨a, List.mem_cons_self, hm.new hinsert, .head hfirst (reaches_of_seen hseen hr)⟩
    · obtain ⟨b, hb, hnot, hr⟩ := ih' x hx
      exact ⟨b, List.mem_cons_of_mem _ hb, fun hs => hnot (hseen' b hs),
        reaches_of_seen hseen' hr⟩

variable {entry : α}

/-- An iterator yields the nodes that its entry reaches over nodes that were not seen. -/
theorem mem_nodes_iff (hm : Marks st seen) (h : Iterates next st s entry ys) :
    x ∈ nodes ys ↔ ¬seen s entry ∧ ReflTransGen (Free next seen s) entry x := by
  obtain ⟨t, h⟩ := h
  constructor
  · intro hx
    obtain ⟨a, ha, hnot, hr⟩ := h.reached hm x hx
    obtain rfl := List.mem_singleton.1 ha
    exact ⟨hnot, hr⟩
  · rintro ⟨hnot, hr⟩
    induction hr with
    | refl =>
      have hseen := h.seen_pending hm entry List.mem_cons_self
      exact ((h.seen_iff hm entry).1 hseen).resolve_left hnot
    | tail _ hstep ih =>
      exact ((h.seen_iff hm _).1 (h.closed hm _ ih _ hstep.1)).resolve_left hstep.2

/-! ## The depth-first tree -/

/-- The node was entered from its parent. -/
def Parent (ys : List (Yielded σ α)) (p a : α) : Prop := ∃ y ∈ ys, y.node = a ∧ y.path.head? = some p

/-- Only the nodes to enter have no parent. -/
theorem Visits.parent (h : Visits next st path s pending ys t) : ∀ y ∈ ys,
    (y.path = path ∧ y.node ∈ pending) ∨
      ∃ y' ∈ ys, y.path = y'.node :: y'.path ∧ y.node ∈ next y'.node := by
  induction h with
  | done => exact List.forall_mem_nil _
  | skip _ _ ih =>
    intro y hy
    rcases ih y hy with ⟨hpath, hmem⟩ | h
    · exact .inl ⟨hpath, List.mem_cons_of_mem _ hmem⟩
    · exact .inr h
  | enter _ _ _ ih ih' =>
    intro y hy
    rw [List.cons_append, List.mem_cons, List.mem_append] at hy
    rcases hy with rfl | hy | hy
    · exact .inl ⟨rfl, List.mem_cons_self⟩
    · rcases ih y hy with ⟨hpath, hmem⟩ | ⟨y', hy', hpath, hmem⟩
      · exact .inr ⟨_, List.mem_cons_self, hpath, hmem⟩
      · exact .inr ⟨y', List.mem_cons_of_mem _ (List.mem_append_left _ hy'), hpath, hmem⟩
    · rcases ih' y hy with ⟨hpath, hmem⟩ | ⟨y', hy', hpath, hmem⟩
      · exact .inl ⟨hpath, List.mem_cons_of_mem _ hmem⟩
      · exact .inr ⟨y', List.mem_cons_of_mem _ (List.mem_append_right _ hy'), hpath, hmem⟩

/-- The nodes on the way are the ancestors. -/
theorem ancestor_of_mem_path (h : Iterates next st s entry ys) {y : Yielded σ α} (hy : y ∈ ys)
    {b : α} (hb : b ∈ y.node :: y.path) : ReflTransGen (Parent ys) b y.node := by
  obtain ⟨t, h⟩ := h
  induction hpath : y.path generalizing y with
  | nil =>
    rw [hpath, List.mem_singleton] at hb
    rw [hb]
  | cons p rest ih =>
    rw [hpath, List.mem_cons] at hb
    rcases hb with rfl | hb
    · exact .refl
    · rcases h.parent y hy with ⟨hnil, -⟩ | ⟨y', hy', hcons, -⟩
      · exact absurd (hpath.symm.trans hnil) (List.cons_ne_nil p rest)
      · obtain ⟨rfl, rfl⟩ := List.cons.inj (hpath.symm.trans hcons)
        exact (ih hy' hb rfl).tail ⟨y, hy, rfl, by rw [hpath]; rfl⟩

/-! ## Edges that go back -/

/-- An edge that goes back to an ancestor of its source, or to the source. -/
def IsBack (ys : List (Yielded σ α)) (a b : α) : Prop :=
  ∃ y ∈ ys, y.node = a ∧ b ∈ a :: y.path

/-- The edges between yielded nodes that do not go back. -/
def Forward (next : α → List α) (ys : List (Yielded σ α)) (a b : α) : Prop :=
  a ∈ nodes ys ∧ b ∈ next a ∧ ¬IsBack ys a b

variable [DecidableEq α]

variable {order order' : List α}

theorem idxOf_below (hx : x ∈ order) :
    (order ++ a :: order').idxOf x = order.idxOf x := List.idxOf_append_of_mem hx

theorem idxOf_self (ha : a ∉ order) : (order ++ a :: order').idxOf a = order.length := by
  rw [List.idxOf_append_of_notMem ha, List.idxOf_cons_self, Nat.add_zero]

theorem idxOf_after (hx : x ∉ order) (hne : x ≠ a) :
    (order ++ a :: order').idxOf x = order.length + (order'.idxOf x + 1) := by
  rw [List.idxOf_append_of_notMem hx, List.idxOf_cons_ne _ (Ne.symm hne)]

theorem mem_of_idxOf_lt {b : α} (h : order.idxOf b < order.idxOf x) : b ∈ order :=
  List.idxOf_lt_length_iff.1 (Nat.lt_of_lt_of_le h List.idxOf_le_length)

/-- The order in which the iterator is done with its nodes: a successor is an ancestor, or was seen
before and is not on the way, or is done earlier. -/
theorem Visits.exists_order (hm : Marks st seen) (h : Visits next st path s pending ys t) :
    ∃ order : List α, (∀ x, x ∈ order ↔ x ∈ nodes ys) ∧
      ∀ y ∈ ys, ∀ b ∈ next y.node, b ∈ y.node :: y.path ∨ (seen s b ∧ b ∉ path) ∨
        order.idxOf b < order.idxOf y.node := by
  induction h with
  | done => exact ⟨[], fun x => .rfl, List.forall_mem_nil _⟩
  | @skip path s a s' rest ys t hinsert _ ih =>
    obtain ⟨order, hmem, horder⟩ := ih
    refine ⟨order, hmem, fun y hy b hb => ?_⟩
    rcases horder y hy b hb with hb | ⟨hb, hpath⟩ | hb
    · exact .inl hb
    · refine .inr (.inl ⟨?_, hpath⟩)
      rcases (hm.seen_of_insert hinsert).1 hb with hb | rfl
      · exact hb
      · exact hm.old hinsert
    · exact .inr (.inr hb)
  | @enter path s a s' ys u rest zs t hinsert hys hzs ih ih' =>
    obtain ⟨order, hmem, horder⟩ := ih
    obtain ⟨order', hmem', horder'⟩ := ih'
    have ha : a ∉ order := fun h =>
      hys.not_seen hm a ((hmem a).1 h) ((hm.seen_of_insert hinsert).2 (.inr rfl))
    have hseen : ∀ {x}, seen (st.completed u a) x ↔ seen s x ∨ x = a ∨ x ∈ order := by
      intro x
      rw [hys.completed hm hinsert, hmem]
    -- the nodes below `a` are done first, then `a`, and then the nodes after it
    refine ⟨order ++ a :: order', fun x => ?_, ?_⟩
    · rw [nodes_append, nodes_cons, List.cons_append, List.mem_cons, List.mem_append,
        List.mem_append, List.mem_cons, hmem, hmem']
      tauto
    · intro y hy b hb
      rw [List.cons_append, List.mem_cons, List.mem_append] at hy
      rcases hy with rfl | hy | hy
      · -- the successors of `a` are seen once those below it are done
        have hb' := (hys.seen_iff hm b).1 (hys.seen_pending hm b hb)
        rw [hm.seen_of_insert hinsert, ← hmem, or_assoc] at hb'
        rcases hb' with hs | rfl | hbelow
        · by_cases hpath : b ∈ path
          · exact .inl (List.mem_cons_of_mem _ hpath)
          · exact .inr (.inl ⟨hs, hpath⟩)
        · exact .inl List.mem_cons_self
        · right; right
          rw [idxOf_below hbelow, idxOf_self ha]
          exact List.idxOf_lt_length_of_mem hbelow
      · rcases horder y hy b hb with hback | ⟨hs, hpath⟩ | hlt
        · exact .inl hback
        · rw [List.mem_cons, not_or] at hpath
          exact .inr (.inl ⟨((hm.seen_of_insert hinsert).1 hs).resolve_right hpath.1, hpath.2⟩)
        · have hnode : y.node ∈ order := (hmem _).2 (List.mem_map_of_mem hy)
          right; right
          rwa [idxOf_below (mem_of_idxOf_lt hlt), idxOf_below hnode]
      · have hnode : y.node ∈ nodes zs := List.mem_map_of_mem hy
        have hnew : ∀ x, x = a ∨ x ∈ order → x ∉ nodes zs := fun x hx hzx =>
          hzs.not_seen hm x hzx (hseen.2 (.inr hx))
        have hne : y.node ≠ a := fun heq => hnew _ (.inl heq) hnode
        have hbelow : y.node ∉ order := fun h => hnew _ (.inr h) hnode
        rcases horder' y hy b hb with hback | ⟨hs, hpath⟩ | hlt
        · exact .inl hback
        · rcases hseen.1 hs with hs | rfl | hb
          · exact .inr (.inl ⟨hs, hpath⟩)
          · right; right
            rw [idxOf_self ha, idxOf_after hbelow hne]
            omega
          · have hlt := List.idxOf_lt_length_of_mem hb
            right; right
            rw [idxOf_below hb, idxOf_after hbelow hne]
            omega
        · have hb' : b ∈ nodes zs := (hmem' b).1 (mem_of_idxOf_lt hlt)
          right; right
          rw [idxOf_after (fun h => hnew b (.inr h) hb') (fun h => hnew b (.inl h) hb'),
            idxOf_after hbelow hne]
          omega

/-- Without the edges that go back no cycle is left. -/
theorem acyclic_forward (hm : Marks st seen) (hnew : ∀ x, ¬seen s x)
    (h : Iterates next st s entry ys) : Acyclic (Forward next ys) := by
  obtain ⟨t, h⟩ := h
  obtain ⟨order, -, horder⟩ := h.exists_order hm
  have hdown : ∀ a b, Forward next ys a b → order.idxOf b < order.idxOf a := by
    rintro a b ⟨ha, hb, hback⟩
    obtain ⟨y, hy, rfl⟩ := List.mem_map.1 ha
    rcases horder y hy b hb with hmem | ⟨hs, -⟩ | hlt
    · exact absurd ⟨y, hy, rfl, hmem⟩ hback
    · exact absurd hs (hnew b)
    · exact hlt
  have htrans : ∀ a b, TransGen (Forward next ys) a b → order.idxOf b < order.idxOf a := by
    intro a b hab
    induction hab with
    | single hedge => exact hdown _ _ hedge
    | tail _ hedge ih => exact Nat.lt_trans (hdown _ _ hedge) ih
  exact fun a ha => Nat.lt_irrefl _ (htrans a a ha)

end

end DepthFirstIterator
