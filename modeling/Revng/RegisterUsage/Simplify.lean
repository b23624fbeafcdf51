import Mathlib.Data.List.Perm.Basic
import Mathlib.Logic.Function.Iterate
import Revng.RegisterUsage.Function

/-!
# Simplification

`simplify` merges a block into its only predecessor where that has no other successor.  Between
the blocks that remain, the paths perform the same operations as before (`simplify_simplifies`).
-/

namespace RegisterUsage

namespace Function

variable {Node : Type} [DecidableEq Node]

/-! ## Edges -/

def addSuccessor (f : Function Node) (m n : Node) : Function Node :=
  { f with
    successors := Function.update f.successors m (f.successors m ++ [n])
    predecessors := Function.update f.predecessors n (f.predecessors n ++ [m]) }

/-- Remove the first edge to `n`, and its other half. -/
def removePredecessorEdge (n : Node) (f : Function Node) : Function Node :=
  match f.predecessors n with
  | [] => f
  | m :: rest =>
      { f with
        predecessors := Function.update f.predecessors n rest
        successors := Function.update f.successors m ((f.successors m).erase n) }

/-- Remove the first edge from `n`, and its other half. -/
def removeSuccessorEdge (n : Node) (f : Function Node) : Function Node :=
  match f.successors n with
  | [] => f
  | m :: rest =>
      { f with
        successors := Function.update f.successors n rest
        predecessors := Function.update f.predecessors m ((f.predecessors m).erase n) }

def clearPredecessors (f : Function Node) (n : Node) : Function Node :=
  (removePredecessorEdge n)^[(f.predecessors n).length] f

def clearSuccessors (f : Function Node) (n : Node) : Function Node :=
  (removeSuccessorEdge n)^[(f.successors n).length] f

/-! ## The merges -/

/-- The predecessor that takes over the block. -/
def mergeTarget (preserve : List Node) (f : Function Node) (n : Node) : Option Node :=
  match f.predecessors n with
  | [p] =>
      if (f.successors p).length = 1 ∧ n ≠ p ∧ n ∉ preserve ∧ p ∉ preserve ∧
          ∀ s ∈ f.successors n, s ≠ n ∧ s ≠ p then some p
      else none
  | _ => none

def merge (f : Function Node) (p n : Node) : Function Node :=
  let dropped := f.clearPredecessors n
  let moved := (dropped.successors n).foldl (fun f s => f.addSuccessor p s) dropped
  let moved := moved.clearSuccessors n
  { moved with
    nodes := moved.nodes.erase n
    operations := Function.update moved.operations p (moved.operations p ++ moved.operations n) }

def simplify (preserve : List Node) (f : Function Node) : Function Node :=
  f.nodes.foldl (fun f n => (f.mergeTarget preserve n).elim f fun p => f.merge p n) f

/-! ## Mirrored edges -/

variable {f g : Function Node} {m n p : Node}

theorem Mirrored.addSuccessor (h : f.Mirrored) : (f.addSuccessor m n).Mirrored := by
  intro a b
  have := h a b
  by_cases ha : a = m <;> by_cases hb : b = n <;>
    simp_all [Function.addSuccessor, eq_comm]

theorem Mirrored.removePredecessorEdge (h : f.Mirrored) : (f.removePredecessorEdge n).Mirrored := by
  unfold Function.removePredecessorEdge
  split
  next => exact h
  next m rest hm =>
    intro a b
    have hcount := h a b
    by_cases hb : b = n
    · subst hb
      rw [hm] at hcount
      by_cases ha : a = m
      · subst ha
        simp [hcount]
      · simpa [ha, Ne.symm ha] using hcount
    · by_cases ha : a = m
      · subst ha
        simpa [hb, List.count_erase_of_ne] using hcount
      · simpa [ha, hb] using hcount

/-- The halves of every edge exchanged. -/
def transpose (f : Function Node) : Function Node :=
  { f with successors := f.predecessors, predecessors := f.successors }

theorem removeSuccessorEdge_eq :
    f.removeSuccessorEdge n = (f.transpose.removePredecessorEdge n).transpose := by
  unfold removeSuccessorEdge removePredecessorEdge
  cases hn : f.successors n <;> simp [transpose, hn]

theorem Mirrored.removeSuccessorEdge (h : f.Mirrored) : (f.removeSuccessorEdge n).Mirrored := by
  rw [removeSuccessorEdge_eq]
  have ht : f.transpose.Mirrored := fun a b => (h b a).symm
  exact fun a b => (ht.removePredecessorEdge b a).symm

/-! ## One merge -/

theorem foldl_addSuccessor (ss : List Node) (h : f.Mirrored) :
    let g := ss.foldl (fun f s => f.addSuccessor p s) f
    g.Mirrored ∧ g.successors = Function.update f.successors p (f.successors p ++ ss) ∧
      g.nodes = f.nodes ∧ g.operations = f.operations := by
  induction ss generalizing f with
  | nil => exact ⟨h, by simp, rfl, rfl⟩
  | cons s rest ih => simpa [addSuccessor] using ih (h.addSuccessor (m := p) (n := s))

theorem clearSuccessors_spec (h : f.Mirrored) :
    (f.clearSuccessors n).Mirrored ∧
      (f.clearSuccessors n).successors = Function.update f.successors n [] ∧
      (f.clearSuccessors n).nodes = f.nodes ∧ (f.clearSuccessors n).operations = f.operations := by
  unfold clearSuccessors
  generalize hk : (f.successors n).length = k
  induction k generalizing f with
  | zero => exact ⟨h, by simp [← List.length_eq_zero_iff.mp hk], rfl, rfl⟩
  | succ k ih =>
    obtain ⟨m, rest, hn⟩ := List.exists_cons_of_length_eq_add_one hk
    have hlen : rest.length = k := by simpa [hn] using hk
    rw [Function.iterate_succ_apply]
    have hrest := ih (h.removeSuccessorEdge (n := n)) (by simpa [removeSuccessorEdge, hn])
    simpa [removeSuccessorEdge, hn] using hrest

/-- What a merge is: the block is gone, and its predecessor goes on as it did. -/
structure Merged (f g : Function Node) (p n : Node) : Prop where
  mirrored : g.Mirrored
  successors : g.successors =
    Function.update (Function.update f.successors p (f.successors n)) n []
  nodes : g.nodes = f.nodes.erase n
  operations : g.operations = Function.update f.operations p (f.operations p ++ f.operations n)

theorem Mirrored.merged (h : f.Mirrored) (hn : f.predecessors n = [p]) (hp : f.successors p = [n])
    (hne : n ≠ p) : Merged f (f.merge p n) p n := by
  have hcleared : f.clearPredecessors n = Function.removePredecessorEdge n f := by
    simp [clearPredecessors, hn]
  have hfirst : (f.clearPredecessors n).successors = Function.update f.successors p [] ∧
      (f.clearPredecessors n).nodes = f.nodes ∧
      (f.clearPredecessors n).operations = f.operations := by
    simp [hcleared, Function.removePredecessorEdge, hn, hp]
  obtain ⟨hmoved, hsucc, hnodes, hops⟩ := foldl_addSuccessor (p := p)
    ((f.clearPredecessors n).successors n) (hcleared ▸ h.removePredecessorEdge (n := n))
  obtain ⟨hmirrored, hsucc', hnodes', hops'⟩ := clearSuccessors_spec (n := n) hmoved
  refine ⟨hmirrored, ?_, ?_, ?_⟩
  · refine hsucc'.trans ?_
    rw [hsucc, hfirst.1]
    simp [hne]
  · exact congrArg (·.erase n) (hnodes'.trans (hnodes.trans hfirst.2.1))
  · show Function.update _ p _ = _
    rw [hops', hops, hfirst.2.2]

/-! ## What the blocks perform -/

/-- A path from the start of `m` to the start of `n` performs the operations. -/
inductive Performs (f : Function Node) : Node → List Operation → Node → Prop where
  | refl {n : Node} : Performs f n [] n
  | step {m m' n : Node} {ops : List Operation} : m' ∈ f.successors m → Performs f m' ops n →
      Performs f m (f.operations m ++ ops) n

section Merged

variable {k : Node} {ops : List Operation}

theorem Merged.performs (h : Merged f g p n) (hp : f.successors p = [n]) (hne : n ≠ p)
    (honly : ∀ m, n ∈ f.successors m → m = p) (hm : m ≠ n) (hk : k ≠ n) :
    g.Performs m ops k ↔ f.Performs m ops k := by
  have hsucc : ∀ m, m ≠ n → m ≠ p → g.successors m = f.successors m := fun m hm hmp => by
    simp [h.successors, hm, hmp]
  have hsuccp : g.successors p = f.successors n := by simp [h.successors, hne.symm]
  have hops : ∀ m, m ≠ p → g.operations m = f.operations m := fun m hmp => by
    simp [h.operations, hmp]
  have hopsp : g.operations p = f.operations p ++ f.operations n := by simp [h.operations]
  constructor
  · intro hg
    induction hg with
    | refl => exact .refl
    | @step m m' k ops hm' _ ih =>
      by_cases hmp : m = p
      · subst hmp
        rw [hsuccp] at hm'
        rw [hopsp, List.append_assoc]
        have hm'n : m' ≠ n := fun heq => hne (honly n (heq ▸ hm'))
        exact .step (by simp [hp]) (.step hm' (ih hm'n hk))
      · rw [hsucc m hm hmp] at hm'
        rw [hops m hmp]
        exact .step hm' (ih (fun heq => hmp (honly m (heq ▸ hm'))) hk)
  · intro hf
    -- a path from the block that is gone has begun with its operations
    suffices hboth : (m ≠ n → g.Performs m ops k) ∧ (m = n → ∃ m' ∈ f.successors n, ∃ rest,
        ops = f.operations n ++ rest ∧ g.Performs m' rest k) from hboth.1 hm
    clear hm
    induction hf with
    | refl => exact ⟨fun _ => .refl, fun heq => absurd heq hk⟩
    | @step m m' k ops hm' _ ih =>
      obtain ⟨ih, ihn⟩ := ih hk
      refine ⟨fun hm => ?_, ?_⟩
      · by_cases hmp : m = p
        · subst hmp
          rw [hp, List.mem_singleton] at hm'
          obtain ⟨m'', hm'', rest, rfl, hrest⟩ := ihn hm'
          rw [← List.append_assoc, ← hopsp]
          exact .step (hsuccp ▸ hm'') hrest
        · rw [← hops m hmp]
          exact .step (hsucc m hm hmp ▸ hm') (ih fun heq => hmp (honly m (heq ▸ hm')))
      · rintro rfl
        exact ⟨m', hm', ops, rfl, ih fun heq => hne (honly m (heq ▸ hm'))⟩

end Merged

/-- What remains performs the same. -/
structure Simplifies (preserve : List Node) (f g : Function Node) : Prop where
  valid : g.Valid
  nodes : g.nodes ⊆ f.nodes
  entries : ∀ n, (∀ m, n ∉ f.successors m) → ∀ m, n ∉ g.successors m
  kept : ∀ n ∈ f.nodes, n ∈ preserve ∨ (∀ m, n ∉ f.successors m) → n ∈ g.nodes
  performs : ∀ m ∈ g.nodes, ∀ n ∈ g.nodes, ∀ ops, g.Performs m ops n ↔ f.Performs m ops n

variable {preserve : List Node}

theorem Simplifies.trans {k : Function Node} (h : Simplifies preserve f g)
    (h' : Simplifies preserve g k) : Simplifies preserve f k where
  valid := h'.valid
  nodes := List.Subset.trans h'.nodes h.nodes
  entries n hn := h'.entries n (h.entries n hn)
  kept n hn hkeep := h'.kept n (h.kept n hn hkeep) (hkeep.imp_right (h.entries n))
  performs m hm n hn ops :=
    (h'.performs m hm n hn ops).trans (h.performs m (h'.nodes hm) n (h'.nodes hn) ops)

theorem simplifies_merge (h : f.Valid) (hp : f.mergeTarget preserve n = some p) :
    Simplifies preserve f (f.merge p n) := by
  unfold mergeTarget at hp
  split at hp
  next q hq =>
    split at hp
    next hcond =>
      cases hp
      obtain ⟨hlen, hne, hpn, hpp, hs⟩ := hcond
      have hsp : f.successors p = [n] := by
        obtain ⟨s, hsp⟩ := List.length_eq_one_iff.mp hlen
        have hmem := h.mirrored.mem_predecessors.mp (hq ▸ List.mem_singleton_self p)
        rw [hsp, List.mem_singleton] at hmem
        rw [hsp, hmem]
      have honly : ∀ m, n ∈ f.successors m → m = p := fun m hm => by
        simpa [hq] using h.mirrored.mem_predecessors.mpr hm
      have hg := h.mirrored.merged hq hsp hne
      have hsucc : ∀ a b, b ∈ (f.merge p n).successors a →
          a ≠ n ∧ b ≠ n ∧ a ∈ f.nodes ∧ ∃ c, b ∈ f.successors c := by
        intro a b hb
        rw [hg.successors] at hb
        by_cases han : a = n
        · simp [han] at hb
        · rw [Function.update_of_ne han] at hb
          by_cases hap : a = p
          · subst hap
            rw [Function.update_self] at hb
            exact ⟨han, (hs b hb).1, (h.known a n (by simp [hsp])).1, n, hb⟩
          · rw [Function.update_of_ne hap] at hb
            exact ⟨han, fun heq => hap (honly a (heq ▸ hb)), (h.known a b hb).1, a, hb⟩
      have hmem : ∀ a, a ∈ (f.merge p n).nodes ↔ a ≠ n ∧ a ∈ f.nodes := fun a => by
        rw [hg.nodes, h.nodup.mem_erase_iff]
      refine ⟨⟨hg.mirrored, hg.nodes ▸ h.nodup.erase n, fun a b hb => ?_⟩,
        fun a ha => ((hmem a).mp ha).2, fun b hb a ha => ?_, fun a ha hkeep => ?_,
        fun a ha b hb ops => ?_⟩
      · obtain ⟨han, hbn, ha, c, hc⟩ := hsucc a b hb
        exact ⟨(hmem a).mpr ⟨han, ha⟩, (hmem b).mpr ⟨hbn, (h.known c b hc).2⟩⟩
      · obtain ⟨-, -, -, c, hc⟩ := hsucc a b ha
        exact hb c hc
      · refine (hmem a).mpr ⟨?_, ha⟩
        rintro rfl
        exact hkeep.elim hpn fun hentry => hentry p (by simp [hsp])
      · exact hg.performs hsp hne honly ((hmem a).mp ha).1 ((hmem b).mp hb).1
    next => cases hp
  next => cases hp

theorem simplify_simplifies (h : f.Valid) : Simplifies preserve f (f.simplify preserve) := by
  have hrefl : Simplifies preserve f f := ⟨h, fun _ => id, fun _ => id, fun _ hn _ => hn,
    fun _ _ _ _ _ => Iff.rfl⟩
  unfold simplify
  suffices hfold : ∀ (ns : List Node) g, Simplifies preserve f g → Simplifies preserve f
      (ns.foldl (fun f n => (f.mergeTarget preserve n).elim f fun p => f.merge p n) g) from
    hfold f.nodes f hrefl
  intro ns
  induction ns with
  | nil => exact fun _ hg => hg
  | cons n rest ih =>
    intro g hg
    refine ih _ ?_
    cases hp : g.mergeTarget preserve n with
    | none => simpa [hp] using hg
    | some p => simpa [hp] using hg.trans (simplifies_merge hg.valid hp)

theorem simplify_simplifies_two : Simplifies [] twoBlocks (twoBlocks.simplify []) :=
  simplify_simplifies valid_twoBlocks

end Function

end RegisterUsage
