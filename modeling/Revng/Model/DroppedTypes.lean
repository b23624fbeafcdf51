import Revng.Model.ReverseDependencies

/-!
# Models without the dropped types

What `dropTypesDependingOnDefinitions` leaves of the model.  Exactly the doomed definitions are
removed, and no definition that stays refers to one of them.  But of the references elsewhere only
the prototypes of functions are looked at, and of those only the function type at the end of the
typedefs (`dropsCleanly_iff`).
-/

namespace Model

open OnceQueue

/-! ## What the function is for -/

def Binary.prototypes (b : Binary) : List UpcastableType :=
  b.functions.map Function.prototype ++ b.importedDynamicFunctions

/-- The references that are neither in a definition nor the prototype of a function. -/
def Binary.otherTypes (b : Binary) : List UpcastableType :=
  (b.functions.flatMap fun f =>
    f.stackFrameType :: (f.callSitePrototypes ++ f.localVariableTypes)) ++
    (b.segmentTypes ++ [b.defaultPrototype])

def Binary.types (b : Binary) : List UpcastableType :=
  (b.typeDefinitions.entries.flatMap fun x => x.2.references.map Prod.snd) ++
    (b.prototypes ++ b.otherTypes)

/-- The definition was in the model and is not any more. -/
def isRemoved (b r : Binary) (d : ℕ) : Bool :=
  (b.typeDefinitions.find d).isSome && (r.typeDefinitions.find d).isNone

/-- A pointer to a removed definition has become one to `void`. -/
def UpcastableType.withoutPointee (removed : ℕ → Bool) (t : UpcastableType) : UpcastableType :=
  if t.referencedDefinition.any removed then t.voidPointee else t

/-- The fields that contain no removed definition by value. -/
def keptFields (removed : ℕ → Bool) (fields : KeyedVector UpcastableType) :
    List (ℕ × UpcastableType) :=
  (fields.entries.filter fun x => !x.2.byValue.any removed).map fun x =>
    (x.1, x.2.withoutPointee removed)

/-- What is left of a definition that stays. -/
def Pruned (removed : ℕ → Bool) : TypeDefinition → TypeDefinition → Prop
  | .structDefinition fields, d' =>
      ∃ fields', d' = .structDefinition fields' ∧ fields'.entries = keptFields removed fields
  | .unionDefinition fields, d' =>
      ∃ fields', d' = .unionDefinition fields' ∧
        fields'.entries.map Prod.snd = (keptFields removed fields).map Prod.snd ∧
        (fields.IsDense ∨ fields'.entries.length < fields.entries.length → fields'.IsDense)
  | d, d' => d' = d.modify fun _ t => t.withoutPointee removed

structure DropsCleanly (b : Binary) (types : List ℕ) (r : Binary) : Prop where
  noDangling : ∀ t ∈ r.types, ∀ d, t.referencedDefinition = some d → isRemoved b r d = false
  removed : ∀ d ∈ b.typeDefinitions.keys,
    isRemoved b r d = true ↔ Doomed b.typeDefinitions types d
  kept : ∀ key d', (key, d') ∈ r.typeDefinitions.entries →
    ∃ d, (key, d) ∈ b.typeDefinitions.entries ∧ Pruned (isRemoved b r) d d'

/-- No assertion fails: the references of the definitions resolve, the given definitions are in the
model, and prototypes are those of functions. -/
structure Processable (b : Binary) (types : List ℕ) : Prop where
  references : ∀ key d, (key, d) ∈ b.typeDefinitions.entries → key ∉ types →
    ∀ x ∈ d.references, ∀ target, x.2.referencedDefinition = some target →
      target ∈ b.typeDefinitions.keys
  given : ∀ d ∈ types, d ∈ b.typeDefinitions.keys
  prototypes : ∀ t ∈ b.prototypes, t = .empty ∨ (toPrototype b.typeDefinitions t).isSome

/-- Nothing outside of the definitions refers to a doomed one, but a prototype whose function type
is doomed as well. -/
structure OutsideKept (b : Binary) (types : List ℕ) : Prop where
  others : ∀ t ∈ b.otherTypes, ∀ d, t.referencedDefinition = some d →
    ¬Doomed b.typeDefinitions types d
  prototypes : ∀ t ∈ b.prototypes, ∀ d f, t.referencedDefinition = some d →
    toPrototype b.typeDefinitions t = some f → Doomed b.typeDefinitions types d →
    Doomed b.typeDefinitions types f

variable {b r : Binary} {ds : KeyedVector TypeDefinition} {types : List ℕ}
  {edges : List (ℕ × GraphNode)} {order : List GraphNode} {key place : ℕ} {d : TypeDefinition}
  {t : UpcastableType}

/-! ## Places in definitions -/

theorem mem_numbered {ts : List UpcastableType} {i : ℕ} :
    (i, t) ∈ numbered ts ↔ ts[i]? = some t := by
  simp [numbered, List.mem_zipIdx_iff_getElem?]

/-- A place holds one type. -/
theorem TypeDefinition.references_unique {t' : UpcastableType} (h : (place, t) ∈ d.references)
    (h' : (place, t') ∈ d.references) : t = t' := by
  cases d with
  | structDefinition fields | unionDefinition fields => exact KeyedVector.eq_of_mem h h'
  | _ =>
    simp only [TypeDefinition.references, mem_numbered] at h h'
    exact Option.some.inj (h.symm.trans h')

theorem TypeDefinition.modify_congr {f g : ℕ → UpcastableType → UpcastableType}
    (h : ∀ x ∈ d.references, f x.1 x.2 = g x.1 x.2) : d.modify f = d.modify g := by
  have hfields (fields : KeyedVector UpcastableType)
      (hfields : ∀ x ∈ fields.entries, f x.1 x.2 = g x.1 x.2) :
      fields.modify f = fields.modify g := by
    simp only [KeyedVector.modify, KeyedVector.mk.injEq]
    exact List.map_congr_left fun x hx => by rw [hfields x hx]
  have hlist (ts : List UpcastableType) (hts : ∀ x ∈ numbered ts, f x.1 x.2 = g x.1 x.2) :
      ts.mapIdx f = ts.mapIdx g := by
    refine List.ext_getElem (by simp) fun i hi _ => ?_
    rw [List.length_mapIdx] at hi
    simpa using hts (i, ts[i]) (mem_numbered.2 (List.getElem?_eq_getElem hi))
  cases d with
  | structDefinition fields => rw [modify, modify, hfields fields h]
  | unionDefinition fields => rw [modify, modify, hfields fields h]
  | enumDefinition t | typedefDefinition t => simpa [modify] using hlist [t] h
  | rawFunctionDefinition arguments returnValues stack =>
    have heq := hlist _ h
    rw [List.mapIdx_append, List.mapIdx_append, List.mapIdx_append, List.mapIdx_append] at heq
    obtain ⟨heq, hstack⟩ := List.append_inj heq (by simp)
    obtain ⟨harguments, hreturns⟩ := List.append_inj heq (by simp)
    simp only [modify, harguments, hreturns, rawFunctionDefinition.injEq, true_and]
    simpa [Nat.add_comm] using hstack
  | cabiFunctionDefinition arguments returnType =>
    have heq := hlist _ h
    rw [List.mapIdx_append, List.mapIdx_append] at heq
    obtain ⟨harguments, hreturn⟩ := List.append_inj heq (by simp)
    simp only [modify, harguments, cabiFunctionDefinition.injEq, true_and]
    simpa using hreturn

theorem directNode_inj {key' place' : ℕ} {d' : TypeDefinition} (hfields : d.hasFields = true)
    (h : directNode key place d = directNode key' place' d') : key = key' ∧ place = place' := by
  cases d <;> cases d' <;> simp_all [directNode, TypeDefinition.hasFields]

/-- The fields that contain a removed definition are erased. -/
theorem entries_eraseIf {removed p : ℕ → Bool} {fields : KeyedVector UpcastableType}
    (h : ∀ x ∈ fields.entries, p x.1 = x.2.byValue.any removed) :
    ((fields.modify fun _ t => t.withoutPointee removed).eraseIf p).entries =
      keptFields removed fields := by
  simp only [KeyedVector.eraseIf, KeyedVector.modify, keptFields, List.filter_map]
  congr 1
  exact List.filter_congr fun x hx => by simp [h x hx]

/-! ## The definitions that are left -/

/-- The state at the end of the worklist. -/
def finalState (ds : KeyedVector TypeDefinition) (edges : List (ℕ × GraphNode))
    (order : List GraphNode) : Traversal :=
  after (visit edges) (Traversal.start ds) order

/-- The definitions after the removal of fields, before that of definitions. -/
def finalDefinitions (ds : KeyedVector TypeDefinition) (edges : List (ℕ × GraphNode))
    (order : List GraphNode) : KeyedVector TypeDefinition :=
  (finalState ds edges order).typeDefinitions.modify (finalState ds edges order).removeFields

/-- What becomes of one definition. -/
def finalDefinition (ds : KeyedVector TypeDefinition) (edges : List (ℕ × GraphNode))
    (order : List GraphNode) (key : ℕ) (d : TypeDefinition) : TypeDefinition :=
  (finalState ds edges order).removeFields key
    (d.modify fun place t => if .pointer key place ∈ order then t.voidPointee else t)

theorem finalDefinitions_eq (h : order.Nodup) :
    finalDefinitions ds edges order = ds.modify (finalDefinition ds edges order) := by
  rw [finalDefinitions, finalState, typeDefinitions_after h, voided, KeyedVector.modify_modify]
  rfl

section

variable (hgraph : reverseDependencyGraph ds types = some edges)
  (horder : IsOrder ds types edges order)

include hgraph horder

theorem mem_toDelete_iff {x : ℕ} :
    x ∈ (finalState ds edges order).toDelete ↔ Doomed ds types x :=
  mem_toDelete_after.trans (horder.mem_iff hgraph)

variable {removed : ℕ → Bool}

/-- In a definition that stays the pointers to doomed definitions are among the nodes. -/
theorem ite_pointer_mem (hremoved : ∀ x ∈ ds.keys, removed x = true ↔ Doomed ds types x)
    (hkeys : ∀ x, t.referencedDefinition = some x → x ∈ ds.keys) (hkey : key ∉ types)
    (hd : (key, d) ∈ ds.entries) (ht : (place, t) ∈ d.references) :
    (if .pointer key place ∈ order then t.voidPointee else t) = t.withoutPointee removed := by
  have hmem : .pointer key place ∈ order ↔
      t.crossesPointer = true ∧ t.referencedDefinition.any removed = true := by
    rw [horder.mem_iff hgraph]
    constructor
    · rintro ⟨target, hdoomed, hedge⟩
      obtain ⟨-, d', t', hd', ht', href, hcross⟩ := isEdge_pointer.1 hedge
      obtain rfl := KeyedVector.eq_of_mem hd hd'
      obtain rfl := TypeDefinition.references_unique ht ht'
      refine ⟨hcross, ?_⟩
      rw [href, Option.any_some]
      exact (hremoved target (hkeys target href)).2 hdoomed
    · rintro ⟨hcross, hany⟩
      obtain ⟨target, href, hgone⟩ := Option.any_eq_true _ _ |>.1 hany
      exact ⟨target, (hremoved target (hkeys target href)).1 hgone,
        isEdge_pointer.2 ⟨hkey, d, t, hd, ht, href, hcross⟩⟩
  rw [UpcastableType.withoutPointee]
  by_cases hcross : t.crossesPointer = true
  · simp [hmem, hcross]
  · rw [UpcastableType.voidPointee_of_not_crossesPointer (by simpa using hcross)]
    simp

/-- A field of a definition that stays contains a doomed definition if its node was taken. -/
theorem byValue_any_iff (hremoved : ∀ x ∈ ds.keys, removed x = true ↔ Doomed ds types x)
    (hkeys : ∀ x, t.referencedDefinition = some x → x ∈ ds.keys) (hkey : key ∉ types)
    (hd : (key, d) ∈ ds.entries) (ht : (place, t) ∈ d.references) (hfields : d.hasFields = true) :
    directNode key place d ∈ order ↔ t.byValue.any removed = true := by
  have hnode : directNode key place d ∈ order ↔
      ∃ target, Doomed ds types target ∧ IsEdge ds types target (directNode key place d) := by
    rw [horder.mem_iff hgraph]
    cases d <;> first | rfl | cases hfields
  rw [hnode]
  constructor
  · rintro ⟨target, hdoomed, hedge⟩
    obtain ⟨key', d', place', t', hd', -, ht', ⟨hvalue, hn⟩ | ⟨-, -, hn⟩⟩ := isEdge_iff.1 hedge
    · obtain ⟨rfl, rfl⟩ := directNode_inj hfields hn
      obtain rfl := KeyedVector.eq_of_mem hd hd'
      obtain rfl := TypeDefinition.references_unique ht ht'
      rw [hvalue, Option.any_some]
      exact (hremoved target (hkeys target (UpcastableType.byValue_eq_some.1 hvalue).1)).2 hdoomed
    · cases d <;> cases hn
  · intro hany
    obtain ⟨target, hvalue, hgone⟩ := Option.any_eq_true _ _ |>.1 hany
    exact ⟨target,
      (hremoved target (hkeys target (UpcastableType.byValue_eq_some.1 hvalue).1)).1 hgone,
      isEdge_iff.2 ⟨key, d, place, t, hd, hkey, ht, .inl ⟨hvalue, rfl⟩⟩⟩

/-- The definition that stays is pruned of what is removed. -/
theorem pruned_final (hremoved : ∀ x ∈ ds.keys, removed x = true ↔ Doomed ds types x)
    (hkeys : ∀ x ∈ d.references, ∀ target, x.2.referencedDefinition = some target →
      target ∈ ds.keys)
    (hkey : ¬Doomed ds types key) (hd : (key, d) ∈ ds.entries) :
    Pruned removed d (finalDefinition ds edges order key d) := by
  have hgiven : key ∉ types := fun hmem => hkey (.given hmem)
  have hstay : key ∉ (finalState ds edges order).toDelete := fun hmem =>
    hkey ((mem_toDelete_iff hgraph horder).1 hmem)
  have hmodify : (d.modify fun place t => if .pointer key place ∈ order then t.voidPointee else t) =
      d.modify fun _ t => t.withoutPointee removed :=
    TypeDefinition.modify_congr fun x hx =>
      ite_pointer_mem hgraph horder hremoved (hkeys x hx) hgiven hd hx
  have hfield (hfields : d.hasFields = true) (x : ℕ × UpcastableType) (hx : x ∈ d.references) :
      directNode key x.1 d ∈ order ↔ x.2.byValue.any removed = true :=
    byValue_any_iff hgraph horder hremoved (hkeys x hx) hgiven hd hx hfields
  rw [finalDefinition, hmodify]
  cases d with
  | structDefinition fields =>
    rw [TypeDefinition.modify, Traversal.removeFields, if_neg hstay]
    refine ⟨_, rfl, entries_eraseIf fun x hx => ?_⟩
    rw [Bool.eq_iff_iff, decide_eq_true_iff, ← hfield rfl x hx]
    exact mem_structFieldsToRemove_after
  | unionDefinition fields =>
    have hremove (x : ℕ × UpcastableType) (hx : x ∈ fields.entries) :
        (key, x.1) ∈ (finalState ds edges order).unionFieldsToRemove ↔
          x.2.byValue.any removed = true := by
      rw [← hfield rfl x hx]
      exact mem_unionFieldsToRemove_after
    rw [TypeDefinition.modify, Traversal.removeFields]
    split_ifs with hnone
    · -- no field of the union was taken
      have hall : keptFields removed fields =
          (fields.modify fun _ t => t.withoutPointee removed).entries := by
        refine congrArg (List.map _) (List.filter_eq_self.2 fun x hx => ?_)
        rw [Bool.not_eq_true', ← Bool.not_eq_true, ← hremove x hx]
        intro hmem
        have hmem : (key, x.1) ∈
            (finalState ds edges order).unionFieldsToRemove.filter fun x => x.1 = key :=
          Finset.mem_filter.2 ⟨hmem, rfl⟩
        rw [hnone.resolve_left hstay] at hmem
        exact Finset.notMem_empty _ hmem
      refine ⟨_, rfl, congrArg (List.map Prod.snd) hall.symm, ?_⟩
      rintro (hdense | hlt)
      · rw [KeyedVector.IsDense, KeyedVector.keys_modify, hdense]
        simp [KeyedVector.modify]
      · simp [KeyedVector.modify] at hlt
    · refine ⟨_, rfl, ?_, fun _ => KeyedVector.isDense_reindex _⟩
      rw [KeyedVector.map_snd_reindex]
      refine congrArg (List.map Prod.snd) (entries_eraseIf fun x hx => ?_)
      rw [Bool.eq_iff_iff, decide_eq_true_iff]
      exact hremove x hx
  | _ => rfl

end

/-! ## Prototypes -/

/-- The definition of a type that is neither const nor an array or a pointer. -/
def UpcastableType.plainDefinition : UpcastableType → Option ℕ
  | .defined false d => some d
  | _ => none

theorem UpcastableType.eq_of_plainDefinition {x : ℕ} (h : t.plainDefinition = some x) :
    t = .defined false x := by
  cases t with
  | defined isConst d =>
    cases isConst with
    | true => cases h
    | false => rw [Option.some.inj h]
  | _ => cases h

theorem UpcastableType.plainDefinition_voidPointee (t : UpcastableType) :
    t.voidPointee.plainDefinition = t.plainDefinition := by
  cases t with
  | pointer c size t => rw [voidPointee]; split_ifs <;> rfl
  | _ => rfl

/-- A change of definitions that keeps function types, and typedefs with what they are plainly. -/
structure KeepsTypedefs (g : ℕ → TypeDefinition → TypeDefinition) : Prop where
  typedef : ∀ key t, ∃ t', g key (.typedefDefinition t) = .typedefDefinition t' ∧
    t'.plainDefinition = t.plainDefinition
  other : ∀ key d, (∀ t, d ≠ .typedefDefinition t) → ∀ t, g key d ≠ .typedefDefinition t
  function : ∀ key d, (g key d).isFunction = d.isFunction

theorem keepsTypedefs_final : KeepsTypedefs (finalDefinition ds edges order) where
  typedef key t := by
    refine ⟨_, rfl, ?_⟩
    dsimp only
    split_ifs
    · exact t.plainDefinition_voidPointee
    · rfl
  other key d h t := by
    cases d with
    | typedefDefinition t' => exact absurd rfl (h t')
    | structDefinition | unionDefinition =>
      simp only [finalDefinition, TypeDefinition.modify, Traversal.removeFields]
      split_ifs <;> simp
    | _ => simp [finalDefinition, TypeDefinition.modify, Traversal.removeFields]
  function key d := by
    cases d with
    | structDefinition | unionDefinition =>
      simp only [finalDefinition, TypeDefinition.modify, Traversal.removeFields]
      split_ifs <;> rfl
    | _ => rfl

theorem skipTypedefs_modify {g : ℕ → TypeDefinition → TypeDefinition} (hg : KeepsTypedefs g)
    (fuel : ℕ) {t' : UpcastableType} (h : t'.plainDefinition = t.plainDefinition) :
    (skipTypedefs (ds.modify g) fuel t').bind UpcastableType.plainDefinition =
      (skipTypedefs ds fuel t).bind UpcastableType.plainDefinition := by
  induction fuel generalizing t t' with
  | zero => rfl
  | succ fuel ih =>
    cases hplain : t.plainDefinition with
    | none =>
      have hsome (ds : KeyedVector TypeDefinition) {t : UpcastableType}
          (h : t.plainDefinition = none) : skipTypedefs ds (fuel + 1) t = some t := by
        cases t with
        | defined isConst d =>
          cases isConst with
          | true => simp [skipTypedefs]
          | false => cases h
        | _ => simp [skipTypedefs]
      rw [hsome _ (h.trans hplain), hsome _ hplain, Option.bind_some, Option.bind_some, h]
    | some x =>
      obtain rfl := UpcastableType.eq_of_plainDefinition hplain
      obtain rfl := UpcastableType.eq_of_plainDefinition (h.trans hplain)
      rw [skipTypedefs, skipTypedefs, KeyedVector.find_modify]
      cases hfind : ds.find x with
      | none => rfl
      | some d =>
        cases d with
        | typedefDefinition u =>
          obtain ⟨u', hu', hplain'⟩ := hg.typedef x u
          simp only [Option.map_some, hu']
          exact ih hplain'
        | _ =>
          simp only [Option.map_some]
          split
          case h_2 heq => exact absurd (Option.some.inj heq) (hg.other x _ (by simp) _)
          all_goals first | rfl | simp_all

theorem toPrototype_eq : toPrototype ds t =
    ((skipTypedefs ds (ds.keys.length + 1) t).bind UpcastableType.plainDefinition).bind fun d =>
      if (ds.find d).any TypeDefinition.isFunction then some d else none := by
  rw [toPrototype]
  split
  · next heq => simp [heq, UpcastableType.plainDefinition]
  · next hne =>
      cases hskip : skipTypedefs ds (ds.keys.length + 1) t with
      | none => rfl
      | some u =>
        cases hu : u.plainDefinition with
        | none => simp [hu]
        | some x => exact absurd (UpcastableType.eq_of_plainDefinition hu ▸ hskip) (hne x)

theorem toPrototype_modify {g : ℕ → TypeDefinition → TypeDefinition} (hg : KeepsTypedefs g) :
    toPrototype (ds.modify g) t = toPrototype ds t := by
  rw [toPrototype_eq, toPrototype_eq, KeyedVector.keys_modify, skipTypedefs_modify hg _ rfl]
  congr 1
  funext x
  rw [KeyedVector.find_modify, Option.any_map]
  congr 2
  exact congrArg (Option.any · (ds.find x)) (funext fun d => hg.function x d)

/-! ## The run -/

theorem exists_graph (h : Processable b types) :
    ∃ edges, reverseDependencyGraph b.typeDefinitions types = some edges := by
  refine ⟨_, Option.map_eq_some_iff.2 ⟨_, PartialLoops.mapM_eq_some_map (g := fun r =>
    (registerEdge b.typeDefinitions r).getD []) fun r hr => ?_, rfl⟩⟩
  obtain ⟨key, d, place, t, hd, hkey, ht, rfl⟩ := mem_registrations.1 hr
  rw [registerEdge]
  cases href : t.referencedDefinition with
  | none => rfl
  | some target =>
    simp [KeyedVector.isSome_find.2 (h.references key d hd hkey _ ht target href)]

/-- No more nodes can be taken than there are definitions and edges. -/
theorem exists_traverse (hgraph : reverseDependencyGraph ds types = some edges)
    (hgiven : ∀ d ∈ types, d ∈ ds.keys) :
    ∃ order, IsOrder ds types edges order ∧
      traverse ds types edges = some (finalState ds edges order) := by
  have hsome : (traverse ds types edges).isSome := by
    refine drain_isSome (ds.keys.map GraphNode.definition ++ edges.map Prod.snd).toFinset
      (fun x hx => ?_) (fun x hx s y hy => ?_) ?_
    · obtain ⟨d, hd, rfl⟩ := List.mem_map.1 hx
      exact List.mem_toFinset.2 (List.mem_append_left _ (List.mem_map_of_mem (hgiven d hd)))
    · cases x with
      | definition d =>
        obtain ⟨e, he, rfl⟩ := List.mem_map.1 hy
        exact List.mem_toFinset.2 (List.mem_append_right _
          (List.mem_map_of_mem (List.mem_filter.1 he).1))
      | unionField parent index =>
        obtain ⟨e, he, hnode⟩ : ∃ e ∈ edges, e.2 = .unionField parent index := by
          simpa using hx
        obtain ⟨target, n⟩ := e
        obtain rfl := hnode
        obtain ⟨-, fields, -, hd, -, -⟩ := isEdge_unionField.1 ((mem_graph_iff hgraph).1 he)
        rw [visit] at hy
        simp only at hy
        split_ifs at hy
        · obtain rfl := List.mem_singleton.1 hy
          exact List.mem_toFinset.2 (List.mem_append_left _
            (List.mem_map_of_mem (KeyedVector.mem_keys.2 ⟨_, hd⟩)))
        · cases hy
      | _ => cases hy
    · refine (List.toFinset_card_le _).trans (Nat.le_of_eq ?_)
      simp
  obtain ⟨s, hs⟩ := Option.isSome_iff_exists.1 hsome
  obtain ⟨order, horder, rfl⟩ := exists_drained_of_drain hs
  exact ⟨order, horder, hs⟩

/-- The prototype of a function afterwards. -/
def purged (ds : KeyedVector TypeDefinition) (toDelete : Finset ℕ) (t : UpcastableType) :
    UpcastableType :=
  if (toPrototype ds t).any (· ∈ toDelete) then .empty else t

theorem purgePrototype_eq {toDelete : Finset ℕ} (hnodup : order.Nodup)
    (h : t = .empty ∨ (toPrototype ds t).isSome) :
    purgePrototype (finalDefinitions ds edges order) toDelete t =
      some (purged ds toDelete t) := by
  have hproto : toPrototype (finalDefinitions ds edges order) t = toPrototype ds t := by
    rw [finalDefinitions_eq hnodup, toPrototype_modify keepsTypedefs_final]
  cases t with
  | empty => simp [purgePrototype, purged]
  | _ =>
    obtain ⟨f, hf⟩ := Option.isSome_iff_exists.1 (h.resolve_left (by simp))
    simp [purgePrototype, purged, hproto, hf]

/-- The model afterwards, by the order in which the nodes were taken. -/
def droppedBinary (b : Binary) (edges : List (ℕ × GraphNode)) (order : List GraphNode) : Binary :=
  let s := finalState b.typeDefinitions edges order
  { b with
    typeDefinitions :=
      (finalDefinitions b.typeDefinitions edges order).eraseIf fun key => key ∈ s.toDelete
    functions := b.functions.map fun f =>
      { f with prototype := purged b.typeDefinitions s.toDelete f.prototype }
    importedDynamicFunctions :=
      b.importedDynamicFunctions.map (purged b.typeDefinitions s.toDelete) }

theorem exists_drop (h : Processable b types) :
    ∃ edges order, reverseDependencyGraph b.typeDefinitions types = some edges ∧
      IsOrder b.typeDefinitions types edges order ∧
      dropTypesDependingOnDefinitions b types = some (droppedBinary b edges order,
        (finalState b.typeDefinitions edges order).toDelete.card) := by
  obtain ⟨edges, hgraph⟩ := exists_graph h
  obtain ⟨order, horder, htraverse⟩ := exists_traverse hgraph h.given
  refine ⟨edges, order, hgraph, horder, ?_⟩
  have hall : (types.all fun d => (b.typeDefinitions.find d).isSome) = true :=
    List.all_eq_true.2 fun d hd => KeyedVector.isSome_find.2 (h.given d hd)
  have hdynamic : b.importedDynamicFunctions.mapM (purgePrototype
      (finalDefinitions b.typeDefinitions edges order)
        (finalState b.typeDefinitions edges order).toDelete) = some _ :=
    PartialLoops.mapM_eq_some_map fun t ht => purgePrototype_eq horder.nodup
      (h.prototypes t (List.mem_append_right _ ht))
  have hfunctions : b.functions.mapM (fun f => (purgePrototype
      (finalDefinitions b.typeDefinitions edges order)
        (finalState b.typeDefinitions edges order).toDelete f.prototype).map fun t =>
          { f with prototype := t }) = some _ :=
    PartialLoops.mapM_eq_some_map fun f hf => by
      rw [purgePrototype_eq horder.nodup
        (h.prototypes _ (List.mem_append_left _ (List.mem_map_of_mem hf))), Option.map_some]
  rw [finalDefinitions] at hdynamic hfunctions
  simp only [dropTypesDependingOnDefinitions, hgraph, hall, htraverse, hdynamic, hfunctions,
    Option.bind_eq_bind, Option.bind_some, if_true]
  rfl

/-! ## What is left -/

theorem mem_keys_of_doomed (hgiven : ∀ d ∈ types, d ∈ ds.keys) {x : ℕ}
    (h : Doomed ds types x) : x ∈ ds.keys := by
  cases h with
  | given hx => exact hgiven x hx
  | depends hd => exact KeyedVector.mem_keys.2 ⟨_, hd⟩
  | union hd => exact KeyedVector.mem_keys.2 ⟨_, hd⟩

section

variable (hgraph : reverseDependencyGraph b.typeDefinitions types = some edges)
  (horder : IsOrder b.typeDefinitions types edges order)
  (hgiven : ∀ d ∈ types, d ∈ b.typeDefinitions.keys)

include hgraph horder

theorem mem_keys_dropped {x : ℕ} : x ∈ (droppedBinary b edges order).typeDefinitions.keys ↔
    x ∈ b.typeDefinitions.keys ∧ ¬Doomed b.typeDefinitions types x := by
  rw [droppedBinary, KeyedVector.keys_eraseIf, finalDefinitions_eq horder.nodup,
    KeyedVector.keys_modify, decide_eq_false_iff_not, mem_toDelete_iff hgraph horder]

include hgiven in
theorem isRemoved_iff {x : ℕ} : isRemoved b (droppedBinary b edges order) x = true ↔
    Doomed b.typeDefinitions types x := by
  rw [isRemoved, Bool.and_eq_true, KeyedVector.isSome_find, ← Option.not_isSome,
    Bool.not_eq_true', ← Bool.not_eq_true, KeyedVector.isSome_find,
    mem_keys_dropped hgraph horder]
  constructor
  · rintro ⟨hmem, hgone⟩
    by_contra hstay
    exact hgone ⟨hmem, hstay⟩
  · exact fun hdoomed => ⟨mem_keys_of_doomed hgiven hdoomed, fun hmem => hmem.2 hdoomed⟩

theorem mem_entries_dropped {d' : TypeDefinition} :
    (key, d') ∈ (droppedBinary b edges order).typeDefinitions.entries ↔
      ∃ d, (key, d) ∈ b.typeDefinitions.entries ∧ ¬Doomed b.typeDefinitions types key ∧
        finalDefinition b.typeDefinitions edges order key d = d' := by
  rw [droppedBinary, KeyedVector.mem_eraseIf, finalDefinitions_eq horder.nodup,
    KeyedVector.mem_modify, decide_eq_false_iff_not, mem_toDelete_iff hgraph horder]
  constructor
  · rintro ⟨⟨d, hd, heq⟩, hstay⟩
    exact ⟨d, hd, hstay, heq⟩
  · rintro ⟨d, hd, hstay, heq⟩
    exact ⟨⟨d, hd, heq⟩, hstay⟩

end

theorem not_removed_of_withoutPointee {removed : ℕ → Bool} {target : ℕ}
    (h : t.byValue.any removed = false)
    (href : (t.withoutPointee removed).referencedDefinition = some target) :
    removed target = false := by
  rw [UpcastableType.withoutPointee] at href
  split_ifs at href with hany
  · by_cases hcross : t.crossesPointer = true
    · rw [UpcastableType.referencedDefinition_voidPointee hcross] at href
      cases href
    · rw [UpcastableType.byValue, if_neg hcross, hany] at h
      cases h
  · rw [href, Option.any_some] at hany
    simpa using hany

/-- A pruned definition refers to nothing that is removed. -/
theorem not_removed_of_pruned {removed : ℕ → Bool} {d' : TypeDefinition}
    (h : Pruned removed d d')
    (hplain : d.hasFields = false → ∀ x ∈ d.references, x.2.byValue.any removed = false) :
    ∀ x ∈ d'.references, ∀ target, x.2.referencedDefinition = some target →
      removed target = false := by
  have hkept (fields : KeyedVector UpcastableType) (u : UpcastableType) (target : ℕ)
      (hu : u ∈ (keptFields removed fields).map Prod.snd)
      (href : u.referencedDefinition = some target) : removed target = false := by
    obtain ⟨y, hy, rfl⟩ := List.mem_map.1 hu
    obtain ⟨x, hx, rfl⟩ := List.mem_map.1 hy
    exact not_removed_of_withoutPointee (by simpa using (List.mem_filter.1 hx).2) href
  have hother (hd' : d' = d.modify fun _ t => t.withoutPointee removed)
      (hfields : d.hasFields = false) (x : ℕ × UpcastableType) (hx : x ∈ d'.references)
      (target : ℕ) (href : x.2.referencedDefinition = some target) : removed target = false := by
    rw [hd', TypeDefinition.references_modify] at hx
    obtain ⟨y, hy, rfl⟩ := List.mem_map.1 hx
    exact not_removed_of_withoutPointee (hplain hfields y hy) href
  intro x hx target href
  cases d with
  | structDefinition fields =>
    obtain ⟨fields', rfl, hentries⟩ := h
    exact hkept fields x.2 target (List.mem_map_of_mem (hentries ▸ hx)) href
  | unionDefinition fields =>
    obtain ⟨fields', rfl, htypes, -⟩ := h
    exact hkept fields x.2 target (htypes ▸ List.mem_map_of_mem hx) href
  | _ => exact hother h rfl x hx target href

theorem prototypes_dropped : (droppedBinary b edges order).prototypes = b.prototypes.map
    (purged b.typeDefinitions (finalState b.typeDefinitions edges order).toDelete) := by
  simp [Binary.prototypes, droppedBinary, Function.comp_def]

theorem otherTypes_dropped : (droppedBinary b edges order).otherTypes = b.otherTypes := by
  simp [Binary.otherTypes, droppedBinary, List.flatMap_map]

/-- Dropping is clean exactly if nothing else refers to a doomed definition. -/
theorem dropsCleanly_iff (b : Binary) (types : List ℕ) (h : Processable b types) :
    ∃ r n, dropTypesDependingOnDefinitions b types = some (r, n) ∧
      (DropsCleanly b types r ↔ OutsideKept b types) := by
  obtain ⟨edges, order, hgraph, horder, hdrop⟩ := exists_drop h
  refine ⟨_, _, hdrop, ?_⟩
  have hremoved {x : ℕ} : isRemoved b (droppedBinary b edges order) x = true ↔
      Doomed b.typeDefinitions types x := isRemoved_iff hgraph horder h.given
  have hkept : ∀ key d', (key, d') ∈ (droppedBinary b edges order).typeDefinitions.entries →
      ∃ d, (key, d) ∈ b.typeDefinitions.entries ∧ ¬Doomed b.typeDefinitions types key ∧
        Pruned (isRemoved b (droppedBinary b edges order)) d d' := by
    intro key d' hd'
    obtain ⟨d, hd, hstay, rfl⟩ := (mem_entries_dropped hgraph horder).1 hd'
    refine ⟨d, hd, hstay, pruned_final hgraph horder (fun x _ => hremoved) ?_ hstay hd⟩
    exact h.references key d hd fun hmem => hstay (.given hmem)
  constructor
  · intro hclean
    have hstays (t : UpcastableType) (d : ℕ) (ht : t ∈ (droppedBinary b edges order).types)
        (href : t.referencedDefinition = some d) : ¬Doomed b.typeDefinitions types d := by
      rw [← hremoved, hclean.noDangling t ht d href]
      exact Bool.false_ne_true
    refine ⟨fun t ht d href => hstays t d ?_ href, fun t ht d f href hf hdoomed => ?_⟩
    · rw [← otherTypes_dropped] at ht
      exact List.mem_append_right _ (List.mem_append_right _ ht)
    · by_contra hstay
      have hsame : purged b.typeDefinitions
          (finalState b.typeDefinitions edges order).toDelete t = t := by
        simp [purged, hf, mem_toDelete_iff hgraph horder, hstay]
      refine hstays t d ?_ href hdoomed
      refine List.mem_append_right _ (List.mem_append_left _ ?_)
      rw [prototypes_dropped]
      exact List.mem_map.2 ⟨t, ht, hsame⟩
  · intro houtside
    refine ⟨fun t ht d href => ?_, fun d _ => hremoved, fun key d' hd' => ?_⟩
    · rw [← Bool.not_eq_true, hremoved]
      rcases List.mem_append.1 ht with ht | ht
      · obtain ⟨⟨key, d'⟩, hd', ht⟩ := List.mem_flatMap.1 ht
        obtain ⟨x, hx, rfl⟩ := List.mem_map.1 ht
        obtain ⟨d₀, hd, hstay, hpruned⟩ := hkept key d' hd'
        rw [← hremoved, Bool.not_eq_true]
        refine not_removed_of_pruned hpruned (fun hfields y hy => ?_) x hx d href
        rw [← Bool.not_eq_true]
        intro hany
        obtain ⟨target, hvalue, hgone⟩ := Option.any_eq_true _ _ |>.1 hany
        exact hstay (.depends hd hfields hy hvalue (hremoved.1 hgone))
      · rcases List.mem_append.1 ht with ht | ht
        · rw [prototypes_dropped] at ht
          obtain ⟨u, hu, rfl⟩ := List.mem_map.1 ht
          rw [purged] at href
          split_ifs at href with hany
          · cases href
          · intro hdoomed
            rcases h.prototypes u hu with rfl | hsome
            · cases href
            · obtain ⟨f, hf⟩ := Option.isSome_iff_exists.1 hsome
              refine hany ?_
              simp [hf, mem_toDelete_iff hgraph horder,
                houtside.prototypes u hu d f href hf hdoomed]
        · rw [otherTypes_dropped] at ht
          exact houtside.others t ht d href
    · obtain ⟨d, hd, -, hpruned⟩ := hkept key d' hd'
      exact ⟨d, hd, hpruned⟩

/-- A structure, and a function with a pointer to it and the given stack frame. -/
def structAndFunction (stackFrameType : UpcastableType) : Binary where
  typeDefinitions := {
    entries := [(0, .structDefinition ⟨[(0, .primitive false .unsigned 4)], by simp⟩),
      (1, .cabiFunctionDefinition [.pointer false 8 (.defined false 0)] .makeVoid)]
    sorted := by simp }
  functions := [⟨.defined false 1, stackFrameType, [], []⟩]
  importedDynamicFunctions := []
  segmentTypes := []
  defaultPrototype := .empty

theorem dropsCleanly_struct : ∃ r n,
    dropTypesDependingOnDefinitions (structAndFunction .empty) [0] = some (r, n) ∧
      (DropsCleanly (structAndFunction .empty) [0] r ↔
        OutsideKept (structAndFunction .empty) [0]) :=
  dropsCleanly_iff _ _ {
    references := by
      intro key d hd hkey x hx target href
      simp only [structAndFunction, List.mem_cons, Prod.mk.injEq, List.not_mem_nil, or_false] at hd
      rcases hd with ⟨rfl, rfl⟩ | ⟨rfl, rfl⟩
      · exact absurd List.mem_cons_self hkey
      · simp only [TypeDefinition.references, numbered, List.singleton_append,
          List.zipIdx_cons, List.zipIdx_nil, List.map_cons, List.map_nil, List.mem_cons,
          List.not_mem_nil, or_false] at hx
        rcases hx with rfl | rfl
        · obtain rfl := Option.some.inj href
          simp [structAndFunction, KeyedVector.keys]
        · cases href
    given := by simp [structAndFunction, KeyedVector.keys]
    prototypes := by
      simp only [structAndFunction, Binary.prototypes]
      decide }

/-- The stack frame keeps its type, which is not in the model any more. -/
theorem not_dropsCleanly : ¬∃ r n,
    dropTypesDependingOnDefinitions (structAndFunction (.defined false 0)) [0] = some (r, n) ∧
      DropsCleanly (structAndFunction (.defined false 0)) [0] r := by
  rintro ⟨r, n, hdrop, hclean⟩
  have hstack : (dropTypesDependingOnDefinitions (structAndFunction (.defined false 0)) [0]).map
      (fun x => (x.1.otherTypes, isRemoved (structAndFunction (.defined false 0)) x.1 0)) =
        some ([.defined false 0, .empty], true) := by decide
  rw [hdrop, Option.map_some, Option.some.injEq, Prod.mk.injEq] at hstack
  have hkept := hclean.noDangling (.defined false 0)
    (by rw [Binary.types, hstack.1]; simp) 0 rfl
  rw [hstack.2] at hkept
  cases hkept

end Model
