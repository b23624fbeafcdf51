import Revng.Pypeline.Schedule

/-!
# Configuration identifiers

A savepoint keeps its objects under the digest of the configuration texts of the pipes
above it.  The texts are put one after the other, without their lengths and without a
separator, in an order that depends on the process, and the root is left out when it is a
pipe.  So configurations are told apart, whatever they are, only at a savepoint with one pipe
below the root at most, and none at the root (`distinguishes_iff`).

The texts are strings, and what is hashed is their encoding.  The encoding of strings put
one after the other is their encodings put one after the other, so nothing depends on it.
-/

namespace Pypeline

variable {Model Kind α : Type} {K : KindLayout}

/-! ## Texts put one after the other -/

section

variable {ι : Type} {f g : ι → String} {xs : List ι}

theorem length_join_le (hle : ∀ x ∈ xs, (f x).length ≤ (g x).length) :
    (String.join (xs.map f)).length ≤ (String.join (xs.map g)).length := by
  induction xs with
  | nil => exact Nat.le_refl _
  | cons x xs ih =>
    obtain ⟨hx, hxs⟩ := List.forall_mem_cons.mp hle
    simp only [List.map_cons, String.join_cons, String.length_append]
    exact Nat.add_le_add hx (ih hxs)

/-- Texts that are nowhere longer are the same when they are the same put together. -/
theorem eq_of_join_eq (hle : ∀ x ∈ xs, (f x).length ≤ (g x).length)
    (heq : String.join (xs.map f) = String.join (xs.map g)) : ∀ x ∈ xs, f x = g x := by
  induction xs with
  | nil => simp
  | cons x xs ih =>
    obtain ⟨hx, hxs⟩ := List.forall_mem_cons.mp hle
    simp only [List.map_cons, String.join_cons] at heq
    have hrest := length_join_le hxs
    have hlength := congrArg String.length heq
    simp only [String.length_append] at hlength
    have hlist := congrArg String.toList heq
    simp only [String.toList_append] at hlist
    obtain ⟨hfirst, htail⟩ := List.append_inj hlist (by
      simp only [String.length_toList]
      omega)
    exact List.forall_mem_cons.mpr ⟨String.toList_inj.mp hfirst, ih hxs (String.toList_inj.mp htail)⟩

end

/-! ## The pipes of a savepoint -/

/-- The dependencies of a node are the pipes from the root to the node, the root left
out. -/
theorem pipeDependencies_withPipeDependencies {path above : List (PipelineNode Model Kind K α)}
    {n : PipelineNode Model Kind K α} (h : n :: above = withPipeDependencies path) :
    n.pipeDependencies = (n :: above).dropLast.reverse.flatMap PipelineNode.ownPipe := by
  induction path generalizing n above with
  | nil => cases h
  | cons m rest ih =>
    cases rest with
    | nil =>
      cases h
      rfl
    | cons predecessor rest =>
      simp only [withPipeDependencies] at h
      obtain ⟨rfl, rfl⟩ := List.cons.inj h
      cases hrest : withPipeDependencies (predecessor :: rest) with
      | nil =>
        have hlen := congrArg List.length (map_withPipeDependencies (predecessor :: rest))
        rw [hrest] at hlen
        cases hlen
      | cons n' above' =>
        simp only [List.head?_cons, Option.map_some, Option.getD_some,
          List.dropLast_cons_cons, List.reverse_cons, List.flatMap_append,
          List.flatMap_cons, List.flatMap_nil, List.append_nil, ih hrest.symm]
        congr 1

/-- The pipes among some nodes. -/
def pipesOf (nodes : List (PipelineNode Model Kind K α)) : List Nat :=
  (nodes.flatMap PipelineNode.ownPipe).map Prod.snd

/-- The pipes below the root, in the order that their texts are hashed. -/
def hashedPipes (order : SetOrder) (path : List (PipelineNode Model Kind K α)) :
    List (String × Nat) :=
  (order.arrange (path.dropLast.reverse.flatMap PipelineNode.ownPipe)).insertionSort (·.1 ≤ ·.1)

def text (configuration : Nat → Option String) (pipe : Nat) : String :=
  (configuration pipe).getD ""

def hashedText (order : SetOrder) (configuration : Nat → Option String)
    (path : List (PipelineNode Model Kind K α)) : String :=
  String.join ((hashedPipes order path).map fun pipe => text configuration pipe.2)

theorem hashedPipes_perm (order : SetOrder) (path : List (PipelineNode Model Kind K α)) :
    ((hashedPipes order path).map Prod.snd).Perm (pipesOf path.dropLast) := by
  refine (((List.perm_insertionSort _ _).trans (order.perm _)).map _).trans ?_
  exact ((List.reverse_perm _).flatMap_right _).map _

theorem Pipeline.Target.configurationId_eq {pipeline : Pipeline Model Kind K α}
    (target : pipeline.Target) {name : String} {toSave : List ContainerID}
    (hsave : target.node.task = .savePoint name toSave) (hash : String → ConfigurationId)
    (order : SetOrder) (configuration : Nat → Option String) :
    target.node.configurationId hash order configuration =
      hash (hashedText order configuration target.path) := by
  obtain ⟨path, -, hpath⟩ := target.annotated
  simp only [PipelineNode.configurationId, hsave, hashedText, hashedPipes, Pipeline.Target.path,
    pipeDependencies_withPipeDependencies hpath, text]

/-! ## Distinct configurations -/

/-- When a pipe from the root to the savepoint is configured differently in two processes, different
texts are hashed, and the identifiers differ as far as the hash can tell. -/
def Pipeline.Target.Distinguishes {pipeline : Pipeline Model Kind K α} (target : pipeline.Target)
    (order order' : SetOrder) (configuration configuration' : Nat → Option String) : Prop :=
  (∃ pipe ∈ pipesOf target.path, text configuration pipe ≠ text configuration' pipe) →
  target.node.configurationId id order configuration ≠
      target.node.configurationId id order' configuration' ∧
    ∀ hash : String → ConfigurationId, Function.Injective hash →
      target.node.configurationId hash order configuration ≠
        target.node.configurationId hash order' configuration'

theorem Pipeline.Target.distinguishes {pipeline : Pipeline Model Kind K α}
    {target : pipeline.Target} {name : String} {toSave : List ContainerID}
    (hsave : target.node.task = .savePoint name toSave) {order order' : SetOrder}
    {configuration configuration' : Nat → Option String} :
    target.Distinguishes order order' configuration configuration' ↔
      ((∃ pipe ∈ pipesOf target.path, text configuration pipe ≠ text configuration' pipe) →
        hashedText order configuration target.path ≠
          hashedText order' configuration' target.path) := by
  simp only [Distinguishes, target.configurationId_eq hsave]
  exact imp_congr_right fun _ => ⟨fun h => h.1, fun h => ⟨h, fun _ hinj heq => h (hinj heq)⟩⟩

/-- A configuration that sets the text of one pipe. -/
def configure (pipe : Nat) (text : String) : Nat → Option String :=
  fun id => if id = pipe then some text else none

def stars (n : Nat) : String := String.ofList (List.replicate n '*')

theorem hashedText_configure (order : SetOrder) (path : List (PipelineNode Model Kind K α))
    (pipe n : Nat) : hashedText order (configure pipe (stars n)) path =
      stars ((pipesOf path.dropLast).count pipe * n) := by
  rw [← (hashedPipes_perm order path).count_eq, hashedText]
  induction hashedPipes order path with
  | nil => simp [stars]
  | cons x xs ih =>
    rw [List.map_cons, String.join_cons, ih, List.map_cons, List.count_cons]
    by_cases hx : x.2 = pipe
    · simp [text, configure, hx, stars, Nat.add_mul, Nat.add_comm _ n, ← String.ofList_append,
        List.replicate_append_replicate]
    · simp [text, configure, hx, stars]

/-- A savepoint tells all configurations apart exactly when every pipe on its path is below the root and
there is one only.  In one process it also tells those apart that differ below the root, where no
text is longer in the first one. -/
theorem Pipeline.Target.distinguishes_iff {pipeline : Pipeline Model Kind K α}
    (target : pipeline.Target) {name : String} {toSave : List ContainerID}
    (hsave : target.node.task = .savePoint name toSave) :
    ((∀ order order' configuration configuration',
        target.Distinguishes order order' configuration configuration') ↔
      ∀ pipe ∈ pipesOf target.path, pipe ∈ pipesOf target.path.dropLast ∧
        ∀ other ∈ pipesOf target.path.dropLast, other = pipe) ∧
    ∀ order configuration configuration',
      (∀ pipe ∈ pipesOf target.path, text configuration pipe ≠ text configuration' pipe →
        pipe ∈ pipesOf target.path.dropLast) →
      (∀ pipe ∈ pipesOf target.path.dropLast,
        (text configuration pipe).length ≤ (text configuration' pipe).length) →
      target.Distinguishes order order configuration configuration' := by
  simp only [distinguishes hsave]
  refine ⟨⟨fun h pipe hpipe => ?_, fun h order order' configuration configuration' => ?_⟩, ?_⟩
  · have hbelow : pipe ∈ pipesOf target.path.dropLast := by
      by_contra hnot
      -- only a pipe that is not hashed is configured
      refine h .inserted .inserted (configure pipe (stars 1)) (configure pipe (stars 0))
        ⟨pipe, hpipe, by simp [text, configure, stars]⟩ ?_
      rw [hashedText_configure, hashedText_configure, List.count_eq_zero_of_not_mem hnot, Nat.zero_mul]
    refine ⟨hbelow, fun other hother => ?_⟩
    by_contra hne
    have hpos : 0 < (pipesOf target.path.dropLast).count other := List.count_pos_iff.mpr hother
    -- the text of one pipe is moved to the other
    refine h .inserted .inserted
      (configure pipe (stars ((pipesOf target.path.dropLast).count other)))
      (configure other (stars ((pipesOf target.path.dropLast).count pipe)))
      ⟨pipe, hpipe, ?_⟩ ?_
    · have hother : ¬pipe = other := fun heq => hne heq.symm
      intro heq
      have hlength := congrArg String.length heq
      simp [text, configure, stars, hother] at hlength
      omega
    · rw [hashedText_configure, hashedText_configure, Nat.mul_comm]
  · rintro ⟨pipe, hpipe, hdiffer⟩ heq
    obtain ⟨hbelow, hone⟩ := h pipe hpipe
    have hall (order : SetOrder) (configuration : Nat → Option String) :
        hashedText order configuration target.path =
          String.join ((pipesOf target.path.dropLast).map fun _ => text configuration pipe) := by
      have hperm := hashedPipes_perm order target.path
      have hconst : (hashedPipes order target.path).map (fun x => text configuration x.2) =
          List.replicate (pipesOf target.path.dropLast).length (text configuration pipe) := by
        refine List.eq_replicate_iff.mpr ⟨?_, List.forall_mem_map.mpr fun x hx => ?_⟩
        · rw [List.length_map, ← hperm.length_eq, List.length_map]
        · rw [hone x.2 (hperm.subset (List.mem_map_of_mem hx))]
      rw [hashedText, hconst, List.map_const']
    rw [hall, hall] at heq
    rcases Nat.le_total (text configuration pipe).length (text configuration' pipe).length with
      hle | hle
    · exact hdiffer (eq_of_join_eq (fun _ _ => hle) heq pipe hbelow)
    · exact hdiffer (eq_of_join_eq (fun _ _ => hle) heq.symm pipe hbelow).symm
  · rintro order configuration configuration' hroot hle ⟨pipe, hpipe, hdiffer⟩ heq
    have hperm := hashedPipes_perm order target.path
    have hsame := eq_of_join_eq
      (fun x hx => hle x.2 (hperm.subset (List.mem_map_of_mem hx))) heq
    obtain ⟨x, hx, rfl⟩ := List.mem_map.mp (hperm.mem_iff.mpr (hroot pipe hpipe hdiffer))
    exact hdiffer (hsame x hx)

/-- A pipe without arguments. -/
def namedPipe (K : KindLayout) (id : Nat) (name : String) : PipelineNode Unit Unit K Bytes where
  id := id
  task := .pipe
    { name
      arity := 0
      access := Fin.elim0
      kind := Fin.elim0
      hasCustomInvalidation := false
      checkPrecondition := fun _ => true
      run := fun _ _ containers _ _ => ⟨containers, fun _ => [], fun _ => []⟩ }
    Fin.elim0 fun i => i.elim0
  savepointRange := ⟨0, 0⟩
  pipeDependencies := []

/-- Two pipes below the root, and a savepoint. -/
def twoPipes (K : KindLayout) : Pipeline Unit Unit K Bytes where
  declarations := []
  root := .node (namedPipe K 0 "load") [.node (namedPipe K 1 "lift")
    [.node (namedPipe K 2 "optimize") [.node ⟨3, .savePoint "final" [], ⟨0, 0⟩, []⟩ []]]]
  declared := fun n hn c hc => by
    simp only [PipelineTree.nodes, PipelineTree.nodesOfAll, List.append_nil, List.mem_cons,
      List.not_mem_nil, or_false] at hn
    rcases hn with rfl | rfl | rfl | rfl <;> cases hc

def twoPipesTarget (K : KindLayout) : (twoPipes K).Target where
  node := ⟨3, .savePoint "final" [], ⟨1, 1⟩, [("lift", 1), ("optimize", 2)]⟩
  ancestors :=
    [⟨2, (namedPipe K 2 "optimize").task, ⟨0, 1⟩, [("lift", 1), ("optimize", 2)]⟩,
     ⟨1, (namedPipe K 1 "lift").task, ⟨0, 1⟩, [("lift", 1)]⟩,
     ⟨0, (namedPipe K 0 "load").task, ⟨0, 1⟩, []⟩]
  annotated := by
    refine ⟨_, .child (List.mem_cons_self ..) (.child (List.mem_cons_self ..)
      (.child (List.mem_cons_self ..) (.here ..))), ?_⟩
    rfl

theorem distinguishes_iff_lift_configured :
    (¬∀ order order' configuration configuration',
      (twoPipesTarget ⟨fun _ => 0⟩).Distinguishes order order' configuration configuration') ∧
    (twoPipesTarget ⟨fun _ => 0⟩).Distinguishes .inserted .inserted (fun _ => none)
      (configure 1 "x") := by
  obtain ⟨hall, hone⟩ := (twoPipesTarget ⟨fun _ => 0⟩).distinguishes_iff rfl
  refine ⟨fun h => absurd (hall.mp h) (by decide), hone _ _ _ (by decide) (by decide)⟩

/-- The text of one pipe is moved to the next. -/
theorem not_distinguishes :
    ¬∀ (K : KindLayout) (pipeline : Pipeline Unit Unit K Bytes) (target : pipeline.Target)
        (name : String) (toSave : List ContainerID), target.node.task = .savePoint name toSave →
      ∀ order configuration configuration',
        target.Distinguishes order order configuration configuration' := by
  intro h
  have hdiffer := h ⟨fun _ => 0⟩ (twoPipes _) (twoPipesTarget _) "final" [] rfl .inserted
    (configure 1 "x") (configure 2 "x")
  refine (hdiffer ⟨1, by decide, by decide⟩).1 ?_
  have horder : ("lift" : String) ≤ "optimize" := by decide
  simp [PipelineNode.configurationId, twoPipesTarget, SetOrder.inserted, horder, configure]

end Pypeline
