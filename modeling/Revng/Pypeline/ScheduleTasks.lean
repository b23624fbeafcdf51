import Revng.Pypeline.ScheduleSpec

/-!
# One task of a schedule

A task that finds the objects it needs, with their recomputed contents, runs without a
failed check and leaves the objects requested of it, with their recomputed contents.  For a
pipe this is its contract.  A savepoint stores what it is given and takes the rest from the
storage, which is coherent before and after.
-/

namespace Pypeline

variable {Model Kind α σ : Type} {K : KindLayout} [DecidableEq Kind]

/-- The container has the object with its recomputed content. -/
def Environment.Right (E : Environment Model Kind K α σ)
    (path : List (PipelineNode Model Kind K α)) (containers : ContainerSet K α)
    (c : ContainerID) (o : ObjectID K) : Prop :=
  ∃ container v, containers c = some container ∧ container o = some v ∧
    E.recompute path c o = some v

section Run

variable {E : Environment Model Kind K α σ} {Valid : σ → Prop}
  {contents : σ → ContainerLocation → ObjectID K → Option α}
  {path : List (PipelineNode Model Kind K α)} {declared : ContainerID → Prop} {storage : σ}

/-- What holds of the state between two tasks: the working containers exist, and the storage
is coherent and still has what it had. -/
structure Environment.Sound (E : Environment Model Kind K α σ) (Valid : σ → Prop)
    (contents : σ → ContainerLocation → ObjectID K → Option α)
    (path : List (PipelineNode Model Kind K α)) (declared : ContainerID → Prop) (storage : σ)
    (s : RunState K α σ) : Prop where
  containers : ∀ c, declared c → (s.containers c).isSome = true
  valid : Valid s.storage
  coherent : E.Coherent contents path s.storage
  keeps : ∀ location o, (contents storage location o).isSome = true →
    (contents s.storage location o).isSome = true

/-- A task with the requests of the backward pass, without the containers of which nothing
is requested. -/
structure ScheduledTask.Carries (t : ScheduledTask Model Kind K α)
    (outgoing ingoing : Requests (ObjectID K)) : Prop where
  incoming_get : ∀ c, t.incoming.get c = ingoing.get c
  outgoing_get : ∀ c, t.outgoing.get c = outgoing.get c
  incoming_keys : ∀ c ∈ t.incoming.keys, ingoing.get c ≠ []
  outgoing_keys : ∀ c ∈ t.outgoing.keys, outgoing.get c ≠ []

variable {containers : ContainerSet K α}

omit [DecidableEq Kind] in
theorem Requests.check_eq_true {r requests : Requests (ObjectID K)}
    (hget : ∀ c, r.get c = requests.get c)
    (h : ∀ c, ∀ o ∈ requests.get c, ∃ container, containers c = some container ∧
      (container o).isSome = true) (hkeys : ∀ c ∈ r.keys, requests.get c ≠ []) :
    r.check containers = true := by
  refine List.all_eq_true.mpr fun c hc => ?_
  obtain ⟨o, ho⟩ := List.exists_mem_of_ne_nil _ (hkeys c hc)
  obtain ⟨container, hcontainer, -⟩ := h c o ho
  simp only [hcontainer, Container.containsAll, List.all_eq_true]
  intro o' ho'
  obtain ⟨container', hcontainer', hsome⟩ := h c o' (hget c ▸ ho')
  rw [hcontainer] at hcontainer'
  cases hcontainer'
  exact hsome

/-! ## Pipes -/

variable {n : PipelineNode Model Kind K α} {above : List (PipelineNode Model Kind K α)}

variable {p : Pipe Model Kind K α} {bindings : Fin p.arity → ContainerID}
  {distinct : Function.Injective bindings}

theorem Environment.recompute_pipe (htask : n.task = .pipe p bindings distinct) (i : Fin p.arity) :
    E.recompute (n :: above) (bindings i) =
      if p.access i = .read then E.recompute above (bindings i)
      else E.produceAlone n p (fun j => E.recompute above (bindings j)) i := by
  simp only [recompute, htask]
  exact setAll_apply distinct i

theorem Environment.recompute_pipe_of_ne (htask : n.task = .pipe p bindings distinct)
    {c : ContainerID} (hc : ∀ i, bindings i ≠ c) :
    E.recompute (n :: above) c = E.recompute above c := by
  simp only [recompute, htask]
  exact setAll_of_ne hc

variable {toSave : List ContainerID}

theorem Environment.recompute_savePoint {name : String} (htask : n.task = .savePoint name toSave) :
    E.recompute (n :: above) = E.recompute above := by
  simp only [recompute, htask]

variable {t : ScheduledTask Model Kind K α} {outgoing ingoing : Requests (ObjectID K)}

variable {s : RunState K α σ}

theorem Environment.runPipe_right
    (hcontract : p.Contract E.navigation E.model ((E.configuration t.node.id).getD ""))
    (htask : t.node.task = .pipe p bindings distinct)
    (hpre : E.prerequisitesFor storage t.node outgoing = some ingoing)
    (hcarries : t.Carries outgoing ingoing) (hsome : ∀ i, (s.containers (bindings i)).isSome = true)
    (hin : ∀ c, ∀ o ∈ ingoing.get c, E.Right above s.containers c o) :
    ∃ s', E.runPipe t p bindings s = .ok s' ∧ s'.storage = s.storage ∧
      (∀ c, (s'.containers c).isSome = (s.containers c).isSome) ∧
      ∀ c, ∀ o ∈ outgoing.get c, E.Right (t.node :: above) s'.containers c o := by
  obtain ⟨incoming, hincoming, hbound, hother⟩ := prerequisitesFor_pipe htask hpre
  have hcs : allSome (fun i => s.containers (bindings i)) =
      some fun i => (s.containers (bindings i)).get (hsome i) :=
    allSome_eq_some_iff.mpr fun i => by simp
  generalize hcontainers : (fun i => (s.containers (bindings i)).get (hsome i)) = containers at hcs
  have hcontainer : ∀ i, s.containers (bindings i) = some (containers i) :=
    allSome_eq_some_iff.mp hcs
  have hins : (fun i => t.incoming.get (bindings i)) = incoming := by
    funext i
    rw [hcarries.incoming_get, hbound]
  have houts : (fun i => t.outgoing.get (bindings i)) = fun i => outgoing.get (bindings i) := by
    funext i
    rw [hcarries.outgoing_get]
  -- the inputs have the recomputed contents
  have hinput : ∀ i, ∀ o ∈ incoming i,
      ∃ v, containers i o = some v ∧ E.recompute above (bindings i) o = some v := by
    intro i o ho
    obtain ⟨container, v, hc, hv, hre⟩ := hin (bindings i) o (hbound i ▸ ho)
    rw [hcontainer i] at hc
    cases hc
    exact ⟨v, hv, hre⟩
  have hholds : Holds containers incoming := by
    intro i o ho
    obtain ⟨v, hv, -⟩ := hinput i o ho
    rw [hv]
    rfl
  unfold runPipe
  rw [hcs]
  simp only [hins, houts, hcontract.checkOutput, if_true]
  refine ⟨_, rfl, rfl, fun c => ?_, fun c o ho => ?_⟩
  · by_cases hc : ∃ i, bindings i = c
    · obtain ⟨i, rfl⟩ := hc
      simp only [setAll_apply distinct i, hcontainer i, Option.isSome_some]
    · simp only [setAll_of_ne (not_exists.mp hc)]
  · by_cases hc : ∃ i, bindings i = c
    · obtain ⟨i, rfl⟩ := hc
      simp only [Right, setAll_apply distinct i, recompute_pipe htask i]
      by_cases haccess : p.access i = .read
      · have hself := Pipe.prerequisitesFor_self hincoming (i := i) (by simp [haccess])
        obtain ⟨v, hv, hre⟩ := hinput i o (hself ho)
        refine ⟨_, v, rfl, ?_, ?_⟩
        · rw [hcontract.readOnly _ _ _ i haccess]
          exact hv
        · rw [if_pos haccess]
          exact hre
      · have hprod := hcontract.produces containers incoming _ i o hincoming hholds haccess ho
        obtain ⟨v, hv⟩ := Option.isSome_iff_exists.mp hprod
        refine ⟨_, v, rfl, hv, ?_⟩
        have hsub : ∀ j, single i o j ⊆ outgoing.get (bindings j) := by
          intro j x hx
          by_cases hji : j = i
          · subst hji
            simp only [single, if_true, List.mem_singleton] at hx
            exact hx ▸ ho
          · simp [single, hji] at hx
        obtain ⟨incoming', hincoming', hle⟩ := Pipe.prerequisitesFor_mono hsub hincoming
        rw [if_neg haccess]
        simp only [produceAlone, hincoming']
        rw [hcontract.independent containers incoming _ _ incoming' i o hincoming hholds haccess ho
          hincoming' fun j x hx => ?_]
        · exact hv
        · obtain ⟨w, hw, hre⟩ := hinput j x (hle j hx)
          rw [hw]
          exact hre
    · have hne := not_exists.mp hc
      obtain ⟨container, v, hcontainer, hv, hre⟩ := hin c o (hother c hne ▸ ho)
      refine ⟨container, v, ?_, hv, ?_⟩
      · rw [← hcontainer]
        exact setAll_of_ne hne
      · rw [recompute_pipe_of_ne htask hne]
        exact hre

/-! ## Savepoints -/

/-- The objects of a container that a savepoint takes from the storage. -/
def ScheduledTask.wanted (t : ScheduledTask Model Kind K α) (c : ContainerID) :
    List (ObjectID K) :=
  (t.outgoing.get c).filter fun o => !(t.incoming.get c).contains o

omit [DecidableEq Kind] in
/-- Loading puts the stored contents over the containers. -/
theorem Environment.loadObjects_ok (hlaw : E.provider.Lawful Valid contents) {saved : σ}
    (hvalid : Valid saved) {cs : List ContainerID} :
    ∀ {containers : ContainerSet K α}, (∀ c ∈ cs, (containers c).isSome = true) →
      (∀ c ∈ cs, ∀ o ∈ t.wanted c, (contents saved (E.location t.node c) o).isSome = true) →
      ∃ containers', E.loadObjects t saved cs containers = .ok containers' ∧
        ∀ c, containers' c = (containers c).map fun container o =>
          if c ∈ cs ∧ o ∈ t.wanted c then contents saved (E.location t.node c) o
          else container o := by
  induction cs with
  | nil =>
    intro containers _ _
    refine ⟨containers, rfl, fun c => ?_⟩
    simp
  | cons c rest ih =>
    intro containers hsome hfound
    have hsome' : ∀ d ∈ rest, (containers d).isSome = true := fun d hd =>
      hsome d (List.mem_cons_of_mem _ hd)
    have hfound' : ∀ d ∈ rest, ∀ o ∈ t.wanted d,
        (contents saved (E.location t.node d) o).isSome = true := fun d hd =>
      hfound d (List.mem_cons_of_mem _ hd)
    by_cases hwanted : t.wanted c = []
    · obtain ⟨containers', hload, hcontainers'⟩ := ih hsome' hfound'
      refine ⟨containers', ?_, fun d => ?_⟩
      · rw [loadObjects]
        exact (if_pos (List.isEmpty_iff.mpr hwanted)).trans hload
      · rw [hcontainers' d]
        by_cases hd : d = c
        · subst hd
          simp [hwanted]
        · simp [hd]
    · obtain ⟨data, hget, hdata⟩ := hlaw.get_ok saved (E.location t.node c) (t.wanted c) hvalid
        hwanted (hfound c (List.mem_cons_self ..))
      obtain ⟨container, hcontainer⟩ := Option.isSome_iff_exists.mp
        (hsome c (List.mem_cons_self ..))
      have hupdated : ∀ d ∈ rest, (Function.update containers c
          (some (container.deserialize data)) d).isSome = true := by
        intro d hd
        by_cases hdc : d = c
        · subst hdc
          simp
        · rw [Function.update_of_ne hdc]
          exact hsome' d hd
      obtain ⟨containers', hload, hcontainers'⟩ := ih hupdated hfound'
      refine ⟨containers', ?_, fun d => ?_⟩
      · rw [loadObjects]
        refine (if_neg (mt List.isEmpty_iff.mp hwanted)).trans ?_
        simp only [ScheduledTask.wanted] at hget
        simp only [hget, hcontainer]
        exact hload
      · rw [hcontainers' d]
        by_cases hdc : d = c
        · subst hdc
          rw [Function.update_self, hcontainer]
          simp only [Option.map_some, Option.some.injEq]
          funext o
          simp only [Container.deserialize, hdata, List.mem_cons, true_or, true_and]
          by_cases ho : o ∈ t.wanted d
          · obtain ⟨v, hv⟩ := Option.isSome_iff_exists.mp
              (hfound d (List.mem_cons_self ..) o ho)
            simp [ho, hv]
          · simp [ho]
        · rw [Function.update_of_ne hdc]
          simp [hdc]

omit [DecidableEq Kind] in
/-- A savepoint stores objects of its containers that were requested of its predecessor. -/
theorem Environment.mem_savedObjects {x : ContainerLocation × List (ObjectID K × α)}
    (hx : x ∈ E.savedObjects t toSave containers) {o : ObjectID K} {v : α} (ho : (o, v) ∈ x.2) :
    ∃ c ∈ toSave, x.1 = E.location t.node c ∧ o ∈ t.incoming.get c ∧
      ∃ container, containers c = some container ∧ container o = some v := by
  obtain ⟨c, hc, hx⟩ := List.mem_filterMap.mp hx
  split at hx
  · cases hx
  · obtain ⟨container, hcontainer, rfl⟩ := Option.map_eq_some_iff.mp hx
    obtain ⟨o', ho', hv⟩ := List.mem_filterMap.mp ho
    obtain ⟨v', hv', heq⟩ := Option.map_eq_some_iff.mp hv
    cases heq
    exact ⟨c, hc, rfl, ho', container, hcontainer, hv'⟩

omit [DecidableEq Kind] in
/-- The savepoints of a path have distinct identifiers. -/
theorem suffix_eq_of_start_eq {n' : PipelineNode Model Kind K α}
    {above' : List (PipelineNode Model Kind K α)} (hbelow : path.Pairwise PipelineNode.Below)
    (h : (n :: above) <:+ path) (h' : (n' :: above') <:+ path) (hn : n.task.isSavePoint = true)
    (hn' : n'.task.isSavePoint = true) (hstart : n.savepointRange.start = n'.savepointRange.start) :
    n :: above = n' :: above' := by
  have hne : ∀ {m m' : PipelineNode Model Kind K α} {rest rest'}, (m' :: rest') <:+ path →
      (m :: rest) <:+ (m' :: rest') → m'.task.isSavePoint = true →
      m.savepointRange.start = m'.savepointRange.start → m :: rest = m' :: rest' := by
    intro m m' rest rest' hpath hsuffix hsave heq
    rcases List.suffix_cons_iff.mp hsuffix with hsame | hinside
    · exact hsame
    · have hmem : m ∈ rest' := hinside.subset (List.mem_cons_self ..)
      have hlt := ((List.pairwise_cons.mp (hbelow.sublist hpath.sublist)).1 m hmem).start_lt hsave
      exact absurd heq (Nat.ne_of_lt hlt)
  rcases List.suffix_or_suffix_of_suffix h h' with hle | hle
  · exact hne h' hle hn' hstart
  · exact (hne h hle hn hstart.symm).symm

omit [DecidableEq Kind] in
theorem Environment.location_eq {n' : PipelineNode Model Kind K α} {c c' : ContainerID}
    (h : E.location n c = E.location n' c') :
    n.savepointRange.start = n'.savepointRange.start ∧ c = c' := by
  simp only [location, ContainerLocation.mk.injEq] at h
  exact ⟨h.1, h.2.1⟩

/-- Storing the objects of a savepoint keeps the storage coherent. -/
theorem Environment.Coherent.addObjects (hbelow : path.Pairwise PipelineNode.Below) {name : String}
    {old saved : σ} (h : E.Coherent contents path old) (hsuffix : (t.node :: above) <:+ path)
    (htask : t.node.task = .savePoint name toSave)
    (hincoming : ∀ c, t.incoming.get c = ingoing.get c)
    (hin : ∀ c, ∀ o ∈ ingoing.get c, E.Right above containers c o) (hsaved : ∀ location k,
      (∃ x ∈ E.savedObjects t toSave containers, ∃ b, x.1 = location ∧ (k, b) ∈ x.2 ∧
        contents saved location k = some b) ∨ contents saved location k = contents old location k) :
    E.Coherent contents path saved := by
  intro n above' hpath' name' toSave' htask' c hc o v hv
  rcases hsaved (E.location n c) o with ⟨x, hx, b, hloc, hb, hcontent⟩ | hold
  · obtain ⟨d, -, hloc', ho, container, hcontainer, hb'⟩ := mem_savedObjects hx hb
    obtain ⟨hstart, rfl⟩ := location_eq (hloc.symm.trans hloc')
    have hsave : t.node.task.isSavePoint = true := by
      rw [htask]
      rfl
    have hsave' : n.task.isSavePoint = true := by
      rw [htask']
      rfl
    -- the location is that of this savepoint and of no other
    rw [suffix_eq_of_start_eq hbelow hpath' hsuffix hsave' hsave hstart,
      recompute_savePoint htask]
    obtain ⟨container', w, hcontainer', hw, hre⟩ := hin c o (hincoming c ▸ ho)
    rw [hcontainer] at hcontainer'
    cases hcontainer'
    rw [hb'] at hw
    cases hw
    rw [hv] at hcontent
    cases hcontent
    exact hre
  · exact h n above' hpath' name' toSave' htask' c hc o v (hold.symm.trans hv)

theorem Environment.runSavePoint_right (hlaw : E.provider.Lawful Valid contents)
    (hbelow : path.Pairwise PipelineNode.Below) {name : String}
    (hsuffix : (t.node :: above) <:+ path) (htask : t.node.task = .savePoint name toSave)
    (hvalid : Valid storage) (hpre : E.prerequisitesFor storage t.node outgoing = some ingoing)
    (hcarries : t.Carries outgoing ingoing) (hdeclared : ∀ c ∈ toSave, declared c)
    (hsound : E.Sound Valid contents path declared storage s)
    (hin : ∀ c, ∀ o ∈ ingoing.get c, E.Right above s.containers c o) :
    ∃ s', E.runSavePoint t toSave s = .ok s' ∧
      E.Sound Valid contents path declared storage s' ∧
      ∀ c, ∀ o ∈ outgoing.get c, E.Right (t.node :: above) s'.containers c o := by
  have hflow := prerequisitesFor_savePoint htask hpre
  have hkeys : (t.incoming.keys ++ t.outgoing.keys).all
      (fun c => (s.containers c).isSome) = true := by
    refine List.all_eq_true.mpr fun c hc => ?_
    by_cases hc' : c ∈ toSave
    · exact hsound.containers c (hdeclared c hc')
    · have hne : ingoing.get c ≠ [] := by
        rcases List.mem_append.mp hc with hk | hk
        · exact hcarries.incoming_keys c hk
        · obtain ⟨o, ho⟩ := List.exists_mem_of_ne_nil _ (hcarries.outgoing_keys c hk)
          exact List.ne_nil_of_mem ((hflow c o).mpr ⟨ho, fun h => absurd h hc'⟩)
      obtain ⟨o, ho⟩ := List.exists_mem_of_ne_nil _ hne
      obtain ⟨container, v, hcontainer, -⟩ := hin c o ho
      rw [hcontainer]
      rfl
  obtain ⟨saved, hadd, hvalid', hsaved⟩ := hlaw.addObjects_ok s.storage
    (s.computedDependencies.filter (!·.isEmpty)) (E.savedObjects t toSave s.containers) hsound.valid
  have hcoherent : E.Coherent contents path saved :=
    hsound.coherent.addObjects hbelow hsuffix htask hcarries.incoming_get hin hsaved
  have hkeeps : ∀ location o, (contents storage location o).isSome = true →
      (contents saved location o).isSome = true := by
    intro location o hsome
    rcases hsaved location o with ⟨-, -, b, -, -, hcontent⟩ | hold
    · rw [hcontent]
      rfl
    · rw [hold]
      exact hsound.keeps location o hsome
  -- an object is wanted from the storage when it was found there, and not otherwise
  have hwanted : ∀ c o, o ∈ outgoing.get c →
      (c ∈ toSave ∧ o ∈ t.wanted c ∧
        (contents saved (E.location t.node c) o).isSome = true) ∨
      (¬ (c ∈ toSave ∧ o ∈ t.wanted c) ∧ o ∈ ingoing.get c) := by
    intro c o ho
    have hmem : o ∈ t.wanted c ↔ o ∉ ingoing.get c := by
      simp [ScheduledTask.wanted, hcarries.outgoing_get, hcarries.incoming_get, ho]
    by_cases hingoing : o ∈ ingoing.get c
    · exact Or.inr ⟨fun h => hmem.mp h.2 hingoing, hingoing⟩
    · rw [hflow c o, not_and, Classical.not_imp, not_not] at hingoing
      obtain ⟨hc, hhas⟩ := hingoing ho
      have hnot : o ∉ ingoing.get c := fun h => ((hflow c o).mp h).2 hc hhas
      exact Or.inl ⟨hc, hmem.mpr hnot, hkeeps _ _ ((hlaw.mem_has _ _ _ _ hvalid).mp hhas).2⟩
  have hfound : ∀ c ∈ toSave, ∀ o ∈ t.wanted c,
      (contents saved (E.location t.node c) o).isSome = true := by
    intro c hc o ho
    have hout : o ∈ outgoing.get c := hcarries.outgoing_get c ▸ (List.mem_filter.mp ho).1
    rcases hwanted c o hout with ⟨-, -, hsome⟩ | ⟨hnot, -⟩
    · exact hsome
    · exact absurd ⟨hc, ho⟩ hnot
  obtain ⟨containers', hload, hcontainers'⟩ := loadObjects_ok hlaw hvalid'
    (fun c hc => hsound.containers c (hdeclared c hc)) hfound
  refine ⟨⟨containers', saved, []⟩, ?_, ⟨fun c hc => ?_, hvalid', hcoherent, hkeeps⟩,
    fun c o ho => ?_⟩
  · simp only [runSavePoint, hkeys, if_true, hadd, hload]
  · simp only [hcontainers' c, Option.isSome_map]
    exact hsound.containers c hc
  · rcases hwanted c o ho with ⟨hc, hwant, hsome⟩ | ⟨hnot, hingoing⟩
    · obtain ⟨v, hv⟩ := Option.isSome_iff_exists.mp hsome
      obtain ⟨container, hcontainer⟩ := Option.isSome_iff_exists.mp
        (hsound.containers c (hdeclared c hc))
      have hnew := hcontainers' c
      rw [hcontainer, Option.map_some] at hnew
      refine ⟨_, v, hnew, ?_, hcoherent _ above hsuffix name toSave htask c hc o v hv⟩
      simp only [hc, hwant, and_self, if_true, hv]
    · obtain ⟨container, v, hcontainer, hv, hre⟩ := hin c o hingoing
      have hnew := hcontainers' c
      rw [hcontainer, Option.map_some] at hnew
      refine ⟨_, v, hnew, ?_, ?_⟩
      · simp only [hnot, if_false, hv]
      · rw [recompute_savePoint htask]
        exact hre

/-! ## One task -/

/-- The pipes of a path keep their contracts. -/
def Environment.PipesKeepContracts (E : Environment Model Kind K α σ)
    (path : List (PipelineNode Model Kind K α)) : Prop :=
  ∀ n ∈ path, ∀ p bindings distinct, n.task = .pipe p bindings distinct →
    p.Contract E.navigation E.model ((E.configuration n.id).getD "")

section

variable (hlaw : E.provider.Lawful Valid contents)
  (hcontract : E.PipesKeepContracts path) (hbelow : path.Pairwise PipelineNode.Below)
  (hsuffix : (t.node :: above) <:+ path) (hvalid : Valid storage)
  (hpre : E.prerequisitesFor storage t.node outgoing = some ingoing)
  (hcarries : t.Carries outgoing ingoing)
  (hdeclared : ∀ c ∈ t.node.argumentDeclarations, declared c)
  (hsound : E.Sound Valid contents path declared storage s)
  (hin : ∀ c, ∀ o ∈ ingoing.get c, E.Right above s.containers c o)
include hlaw hcontract hbelow hsuffix hvalid hpre hcarries hdeclared hsound hin

theorem Environment.runTaskImpl_right :
    ∃ s', E.runTaskImpl t s = .ok s' ∧
      E.Sound Valid contents path declared storage s' ∧
      ∀ c, ∀ o ∈ outgoing.get c, E.Right (t.node :: above) s'.containers c o := by
  cases htask : t.node.task with
  | pipe p bindings distinct =>
    have hsome : ∀ i, (s.containers (bindings i)).isSome = true := fun i =>
      hsound.containers _ (hdeclared _ (List.mem_map.mpr
        ⟨_, (PipelineNode.mem_arguments_pipe htask).mpr ⟨i, rfl⟩, rfl⟩))
    have hnode : t.node ∈ path := hsuffix.subset (List.mem_cons_self ..)
    obtain ⟨s', hrun, hstorage, hcontainers, hright⟩ := runPipe_right
      (hcontract t.node hnode p bindings distinct htask) htask hpre hcarries hsome hin
    refine ⟨s', ?_, ⟨fun c hc => ?_, ?_, ?_, ?_⟩, hright⟩
    · simp only [runTaskImpl, htask]
      exact hrun
    · rw [hcontainers c]
      exact hsound.containers c hc
    · rw [hstorage]
      exact hsound.valid
    · rw [hstorage]
      exact hsound.coherent
    · rw [hstorage]
      exact hsound.keeps
  | savePoint name toSave =>
    simp only [runTaskImpl, htask]
    refine runSavePoint_right hlaw hbelow hsuffix htask hvalid hpre hcarries ?_ hsound hin
    intro c hc
    exact hdeclared c (List.mem_map.mpr
      ⟨_, (PipelineNode.mem_arguments_savePoint htask).mpr ⟨c, hc, rfl⟩, rfl⟩)

theorem Environment.runTask_right
    (hdisposable : ∀ c ∈ t.disposableContainers, c ∈ t.node.argumentDeclarations) :
    ∃ s', E.runTask t s = .ok s' ∧
      E.Sound Valid contents path declared storage s' ∧
      ∀ c, c ∉ t.disposableContainers → ∀ o ∈ outgoing.get c,
        E.Right (t.node :: above) s'.containers c o := by
  have hpresent : ∀ {path' containers c o}, E.Right path' containers c o →
      ∃ container, containers c = some container ∧ (container o).isSome = true := by
    rintro path' containers c o ⟨container, v, hcontainer, hv, -⟩
    exact ⟨container, hcontainer, by rw [hv]; rfl⟩
  have hincoming : t.incoming.check s.containers = true :=
    Requests.check_eq_true hcarries.incoming_get (fun c o ho => hpresent (hin c o ho))
      hcarries.incoming_keys
  have hkeys : (t.disposableContainers.all fun c => (s.containers c).isSome) = true :=
    List.all_eq_true.mpr fun c hc => hsound.containers c (hdeclared c (hdisposable c hc))
  obtain ⟨s', hrun, hsound', hright⟩ := runTaskImpl_right hlaw hcontract hbelow hsuffix hvalid hpre
    hcarries hdeclared hsound hin
  have houtgoing : t.outgoing.check s'.containers = true :=
    Requests.check_eq_true hcarries.outgoing_get (fun c o ho => hpresent (hright c o ho))
      hcarries.outgoing_keys
  refine ⟨{ s' with containers := dispose t.disposableContainers s'.containers }, ?_,
    ⟨fun c hc => ?_, hsound'.valid, hsound'.coherent, hsound'.keeps⟩, fun c hc o ho => ?_⟩
  · simp only [runTask, hincoming, hkeys, hrun, houtgoing, Bool.not_true, Bool.false_eq_true,
      if_false, if_true]
  · have hsome := hsound'.containers c hc
    simp only [dispose]
    split
    · rw [Option.isSome_map]
      exact hsome
    · exact hsome
  · obtain ⟨container, v, hcontainer, hv, hre⟩ := hright c o ho
    refine ⟨container, v, ?_, hv, hre⟩
    simp only [dispose, List.contains_eq_mem, hc, decide_false, Bool.false_eq_true, if_false]
    exact hcontainer

end

end Run

end Pypeline
