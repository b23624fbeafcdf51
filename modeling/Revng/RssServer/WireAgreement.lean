import Revng.RssServer.Wire

/-!
# Agreement of the client and the server

An operation that goes through the client reaches the storage of the project as the call it
would have made there directly, when its arguments survive the trip (`serve_send_iff`).

The dependencies and the changed paths always do.  An object does when neither its container nor
its configuration has a slash in it and the archive keeps the name of its member and the
serialized identifier.  The archive drops slashes at the end of a long name, and base64 may end
in a slash, so the bytes of the identifier matter here.

An additional object of `set_model` never does: the server decodes the identifiers of
`add_objects`, but hands these on as text.
-/

namespace RssServer.Wire

open Pypeline (SavepointID ContainerID ConfigurationId ModelPath Bytes ContainerLocation
  SavePointsRange)
open SeparatedText Tar

/-! ## Texts -/

theorem toNat_digit {c : Char} (h : c.isDigit = true) : 48 ≤ c.toNat ∧ c.toNat ≤ 57 := by
  simpa [Char.isDigit, UInt32.le_iff_toNat_le] using h

theorem asciiDigit_digit {c : Char} (h : c.isDigit = true) : asciiDigit c = c := by
  obtain ⟨hlow, hhigh⟩ := toNat_digit h
  have hfind : decimalZeros.find? (fun first => decide (first ≤ c.toNat) &&
      decide (c.toNat < first + 10)) = some 0x30 := by
    rw [decimalZeros, List.find?_cons_of_pos]
    simp only [Bool.and_eq_true, decide_eq_true_eq]
    omega
  rw [asciiDigit, hfind]
  simp only [Nat.add_sub_cancel' hlow, Char.ofNat_toNat]

theorem isSpace_digit {c : Char} (h : c.isDigit = true) : isSpace c = false := by
  obtain ⟨hlow, hhigh⟩ := toNat_digit h
  simp only [isSpace, List.contains_cons, List.contains_nil, Bool.or_eq_false_iff,
    Bool.and_eq_false_iff, decide_eq_false_iff_not, beq_eq_false_iff_ne, and_true]
  omega

theorem isDigit_decimal {n : Nat} : ∀ c ∈ decimal n, c.isDigit = true := fun _ h =>
  Nat.isDigit_of_mem_toDigits (by decide) (by decide) h

theorem notMem_decimal {c : Char} (h : c.isDigit = false) (n : Nat) : c ∉ decimal n := fun hc => by
  rw [isDigit_decimal c hc] at h
  cases h

theorem toNat?_decimal (n : Nat) : (String.ofList (decimal n)).toNat? = some n := by
  rw [decimal, ← Nat.repr_eq_ofList_toDigits]
  exact Nat.toNat?_repr n

theorem trim_decimal (n : Nat) :
    (((decimal n).map asciiDigit).dropWhile isSpace).rdropWhile isSpace = decimal n := by
  have hmap : (decimal n).map asciiDigit = decimal n := by
    refine (List.map_congr_left fun c hc => ?_).trans (List.map_id _)
    exact asciiDigit_digit (isDigit_decimal c hc)
  have hfirst : (decimal n).dropWhile isSpace = decimal n := by
    rw [List.dropWhile_eq_self_iff]
    intro hlength
    rw [isSpace_digit (isDigit_decimal _ (List.getElem_mem hlength))]
    exact Bool.false_ne_true
  have hlast : (decimal n).rdropWhile isSpace = decimal n := by
    rw [List.rdropWhile_eq_self_iff]
    intro hne
    rw [isSpace_digit (isDigit_decimal _ (List.getLast_mem hne))]
    exact Bool.false_ne_true
  rw [hmap, hfirst, hlast]

/-- `int` undoes `str`. -/
theorem int_decimal (n : Nat) : int (decimal n) = some (n : Int) := by
  rw [int, trim_decimal]
  split
  next digits hminus =>
    exact absurd (hminus ▸ List.mem_cons_self ..) (notMem_decimal (by decide) n)
  next digits hplus =>
    exact absurd (hplus ▸ List.mem_cons_self ..) (notMem_decimal (by decide) n)
  · rw [toNat?_decimal, Option.map_some]
    rfl

@[simp] theorem readId_decimal (n : Nat) : readId (decimal n) = some n := by
  rw [readId, int_decimal]
  rfl

theorem toNat_lt_of_mem_b64encode {c : Char} {data : Bytes} (h : c ∈ b64encode data) :
    c.toNat < 128 ∧ c ≠ nul := by
  have halphabet : Base64.alphabet.all (fun c => c.toNat < 128 ∧ c ≠ nul) = true := by decide
  rcases Base64.mem_encode h with h | rfl
  · simpa using List.all_eq_true.mp halphabet c h
  · decide

@[simp] theorem b64decode_b64encode (data : Bytes) : b64decode (b64encode data) = some data := by
  have hascii : Tar.Ascii (b64encode data) := fun c hc => (toNat_lt_of_mem_b64encode hc).1
  rw [b64decode, if_pos hascii, b64encode, Base64.decode_encode]

/-- Without the slashes at its end a text decodes to fewer bytes. -/
theorem eq_zero_of_b64decode {data : Bytes} {x : List Char} {n : Nat}
    (hencode : b64encode data = x ++ List.replicate n '/') (hdecode : b64decode x = some data) :
    n = 0 := by
  rw [b64decode] at hdecode
  split at hdecode
  case isFalse => cases hdecode
  have hshort := Base64.length_decode_le hdecode
  cases n with
  | zero => rfl
  | succ n =>
    have hlast : (Base64.encode data).getLast? = some '/' := by
      rw [show Base64.encode data = _ from hencode, List.replicate_succ', ← List.append_assoc,
        List.getLast?_concat]
    have hfull := Base64.length_encode_of_getLast? (x := data) (by rw [hlast]; decide)
    rw [show Base64.encode data = _ from hencode, List.length_append,
      List.length_replicate] at hfull
    omega

/-! ## Names of members -/

section Names

variable {a b c a' b' c' d : List Char} {data : Bytes}

/-- The name of a member, of three identifiers and the bytes of an object. -/
def memberName (a b c : List Char) (data : Bytes) : List Char := join '/' [a, b, c, b64encode data]

/-- A name that is kept is cut into its identifiers again. -/
theorem splitMax_memberName (ha : '/' ∉ a) (hb : '/' ∉ b) (hc : '/' ∉ c)
    (h : KeepsPath (memberName a b c data)) :
    splitMax '/' 3 (writeText lengthName (memberName a b c data)).path =
      [a, b, c, b64encode data] := by
  rw [path_writeText h, splitMax_eq_iff rfl]
  exact ⟨rfl, by simp [ha, hb, hc]⟩

theorem notMem_of_splitMax {x : List Char} (h : splitMax '/' 3 x = [a', b', c', d]) :
    '/' ∉ a' ∧ '/' ∉ b' ∧ '/' ∉ c' := by
  have := ((splitMax_eq_iff rfl).mp h).2
  simpa using this

theorem nul_notMem_of_splitMax {x : List Char} (hfits : Fits lengthName x)
    (h : splitMax '/' 3 (writeText lengthName x).path = [a', b', c', d]) :
    nul ∉ b' ∧ nul ∉ c' := by
  have hpath := ((splitMax_eq_iff rfl).mp h).1
  rw [path_writeText_of_fits hfits] at hpath
  have hnul := nul_notMem_cutAtNul x
  rw [hpath] at hnul
  simp only [join, List.mem_append, List.mem_cons, not_or] at hnul
  exact ⟨hnul.2.2.1, hnul.2.2.2.2.1⟩

/-- A name that is cut into identifiers and the bytes of the object was kept. -/
theorem keepsPath_of_splitMax (ha : '/' ∉ a) (hb : '/' ∉ b) (hc : '/' ∉ c)
    (hnul : Fits lengthName (memberName a b c data) → nul ∉ a ∧ nul ∉ b ∧ nul ∉ c)
    (hsplit : splitMax '/' 3 (writeText lengthName (memberName a b c data)).path = [a', b', c', d])
    (hdecode : b64decode d = some data) : KeepsPath (memberName a b c data) := by
  rw [KeepsPath]
  split
  next hfits =>
    obtain ⟨ha, hb, hc⟩ := hnul hfits
    have hdata : nul ∉ b64encode data := fun h => (toNat_lt_of_mem_b64encode h).2 rfl
    have hslash : nul ≠ '/' := by decide
    simp [memberName, join, ha, hb, hc, hdata, hslash]
  next hfits =>
    obtain ⟨n, hpath⟩ := path_writeText_append hfits
    obtain ⟨hjoin, hparts⟩ := (splitMax_eq_iff rfl).mp hsplit
    -- The parts that were read, with the lost slashes, are the parts that were written.
    have hname : memberName a b c data = join '/' [a', b', c', d ++ List.replicate n '/'] := by
      rw [hpath, hjoin]
      simp [join]
    have hwritten : splitMax '/' 3 (memberName a b c data) = [a, b, c, b64encode data] :=
      splitMax_join rfl (by simp [ha, hb, hc])
    have hread : splitMax '/' 3 (memberName a b c data) =
        [a', b', c', d ++ List.replicate n '/'] := by
      rw [hname]
      exact splitMax_join rfl (by simpa using hparts)
    have hlast : b64encode data = d ++ List.replicate n '/' := by
      have hparts := hwritten.symm.trans hread
      simp only [List.cons.injEq] at hparts
      exact hparts.2.2.2.1
    have hnone := eq_zero_of_b64decode hlast hdecode
    rw [hnone, List.replicate_zero, List.append_nil, path_writeText_of_not_fits hfits, eq_comm,
      List.rdropWhile_eq_self_iff] at hpath
    intro hslash
    have hne : memberName a b c data ≠ [] := fun h => by simp [h] at hslash
    rw [List.getLast?_eq_some_getLast hne] at hslash
    exact hpath hne (by simpa using hslash)

end Names

/-! ## Objects -/

variable {O M : Type} (methods : ObjectMethods O) (serializeModel : M → Bytes)

/-- The object survives the trip. -/
def ObjectCarried (location : ContainerLocation) (object : O) : Prop :=
  '/' ∉ location.containerId.toList ∧ '/' ∉ location.configurationId.toList ∧
    KeepsPath (objectPath methods location object) ∧
    KeepsText lengthOwner (objectIdSerializeSplit methods object).1 ∧
    KeepsText lengthOwner (objectIdSerializeSplit methods object).2

/-- The data for custom invalidation survives the trip. -/
def CustomCarried (d : PipeDependencies O) (index : Nat) (object : O) : Prop :=
  '/' ∉ d.configuration.toList ∧ KeepsPath (customPath methods d index object)

theorem readObject_eq_some_iff {member : Member} {e : ObjectEntry} :
    readObject member = some e ↔ ∃ a b c d, splitMax '/' 3 member.name.path = [a, b, c, d] ∧
      readId a = some e.savepointId ∧ b = e.containerId.toList ∧
      c = e.configurationHash.toList ∧ b64decode d = some e.objectId ∧
      member.uname.text ++ member.gname.text = e.objectIdString.toList ∧
      member.data = e.content := by
  rw [readObject]
  constructor
  · intro h
    split at h
    next a b c d hpath =>
      simp only [Option.bind_eq_bind, Option.bind_eq_some_iff] at h
      obtain ⟨savepoint, hsavepoint, data, hdata, h⟩ := h
      cases h
      exact ⟨a, b, c, d, hpath, hsavepoint, (String.toList_ofList ..).symm,
        (String.toList_ofList ..).symm, hdata, (String.toList_ofList ..).symm, rfl⟩
    · cases h
  · rintro ⟨a, b, c, d, hpath, hsavepoint, rfl, rfl, hdata, howner, hcontent⟩
    simp [hpath, hsavepoint, hdata, howner, hcontent]

theorem readCustomDependency_eq_some_iff {member : Member} {e : CustomDependency} :
    readCustomDependency member = some e ↔
      ∃ a b c d, splitMax '/' 3 member.name.path = [a, b, c, d] ∧
        readId a = some e.pipeId ∧ b = e.configurationHash.toList ∧
        readId c = some e.argumentIndex ∧ b64decode d = some e.objectId ∧
        member.data = e.data := by
  rw [readCustomDependency]
  constructor
  · intro h
    split at h
    next a b c d hpath =>
      simp only [Option.bind_eq_bind, Option.bind_eq_some_iff] at h
      obtain ⟨pipe, hpipe, index, hindex, data, hdata, h⟩ := h
      cases h
      exact ⟨a, b, c, d, hpath, hpipe, (String.toList_ofList ..).symm, hindex, hdata, rfl⟩
    · cases h
  · rintro ⟨a, b, c, d, hpath, hpipe, rfl, hindex, hdata, hcontent⟩
    simp [hpath, hpipe, hindex, hdata, hcontent]

theorem text_append_text_iff {size : Nat} {x y : List Char} :
    (writeText size x).text ++ (writeText size y).text = x ++ y ↔
      KeepsText size x ∧ KeepsText size y := by
  rw [← text_writeText_iff, ← text_writeText_iff]
  constructor
  · intro h
    have hx := (text_writeText_initial size x).length_le
    have hy := (text_writeText_initial size y).length_le
    have hlength := congrArg List.length h
    rw [List.length_append, List.length_append] at hlength
    exact List.append_inj h (by omega)
  · rintro ⟨hx, hy⟩
    rw [hx, hy]

theorem slash_notMem_decimal (n : Nat) : '/' ∉ decimal n := notMem_decimal (by decide) n

theorem nul_notMem_decimal (n : Nat) : nul ∉ decimal n := notMem_decimal (by decide) n

theorem readObject_objectMember_iff {location : ContainerLocation} {item : O × Bytes} :
    readObject (objectMember methods location item) = some (objectEntry methods location item) ↔
      ObjectCarried methods location item.1 := by
  rw [readObject_eq_some_iff]
  have hsplit : (objectIdSerializeSplit methods item.1).1 ++
      (objectIdSerializeSplit methods item.1).2 = (methods.serialize item.1).toList := by
    simp [objectIdSerializeSplit]
  constructor
  · rintro ⟨a, b, c, d, hpath, -, rfl, rfl, hdecode, howner, -⟩
    obtain ⟨-, hcontainer, hconfiguration⟩ := notMem_of_splitMax hpath
    refine ⟨hcontainer, hconfiguration, ?_, ?_⟩
    · refine keepsPath_of_splitMax (slash_notMem_decimal _) hcontainer hconfiguration
        (fun hfits => ?_) hpath hdecode
      obtain ⟨hb, hc⟩ := nul_notMem_of_splitMax hfits hpath
      exact ⟨nul_notMem_decimal _, hb, hc⟩
    · rw [← text_append_text_iff, hsplit]
      exact howner
  · rintro ⟨hcontainer, hconfiguration, hpath, howner⟩
    refine ⟨_, _, _, _, splitMax_memberName (slash_notMem_decimal _) hcontainer hconfiguration hpath,
      readId_decimal _, rfl, rfl, b64decode_b64encode _, ?_, rfl⟩
    exact (text_append_text_iff.mpr howner).trans hsplit

/-- A slash in the name of a container moves the parts. -/
example : splitMax '/' 3 (objectMember ⟨id, fun _ => ""⟩ ⟨1, "a/b", ""⟩ ([0x01], [])).name.path =
    ["1".toList, "a".toList, "b".toList, "/AQ==".toList] := by decide

theorem readCustomDependency_customMember_iff {d : PipeDependencies O} {item : Nat × O × Bytes} :
    readCustomDependency (customMember methods d item) = some (d.customEntry methods item) ↔
      CustomCarried methods d item.1 item.2.1 := by
  rw [readCustomDependency_eq_some_iff]
  constructor
  · rintro ⟨a, b, c, location, hpath, -, rfl, -, hdecode, -⟩
    obtain ⟨-, hconfiguration, -⟩ := notMem_of_splitMax hpath
    refine ⟨hconfiguration, keepsPath_of_splitMax (slash_notMem_decimal _) hconfiguration
      (slash_notMem_decimal _) (fun hfits => ?_) hpath hdecode⟩
    exact ⟨nul_notMem_decimal _, (nul_notMem_of_splitMax hfits hpath).1, nul_notMem_decimal _⟩
  · rintro ⟨hconfiguration, hpath⟩
    exact ⟨_, _, _, _, splitMax_memberName (slash_notMem_decimal _) hconfiguration
      (slash_notMem_decimal _) hpath, readId_decimal _, rfl, readId_decimal _,
      b64decode_b64encode _, rfl⟩

/-! ## Forms -/

/-- Reading what was written gives the expected values when every item does. -/
theorem mapM_map_iff {α β γ : Type} {read : β → Option γ} {write : α → β} {expected : α → γ}
    {xs : List α} : (xs.map write).mapM read = some (xs.map expected) ↔
      ∀ x ∈ xs, read (write x) = some (expected x) := by
  induction xs with
  | nil => simp
  | cons x xs ih =>
    rw [List.forall_mem_cons, ← ih]
    simp only [List.map_cons, List.mapM_cons, Option.bind_eq_bind, Option.bind_eq_some_iff,
      Option.pure_def, Option.some.injEq, List.cons.injEq]
    constructor
    · rintro ⟨_, hx, _, hxs, rfl, rfl⟩
      exact ⟨hx, hxs⟩
    · rintro ⟨hx, hxs⟩
      exact ⟨_, hx, _, hxs, rfl, rfl⟩

theorem mapM_flatMap_iff {α β γ δ : Type} {read : γ → Option δ} {write : α → β → γ}
    {expected : α → β → δ} {items : α → List β} {xs : List α} :
    (xs.flatMap fun x => (items x).map (write x)).mapM read =
        some (xs.flatMap fun x => (items x).map (expected x)) ↔
      ∀ x ∈ xs, ∀ i ∈ items x, read (write x i) = some (expected x i) := by
  have hpairs {ε : Type} (f : α → β → ε) : (xs.flatMap fun x => (items x).map (f x)) =
      (xs.flatMap fun x => (items x).map (x, ·)).map fun p => f p.1 p.2 := by
    simp only [List.map_flatMap, List.map_map, Function.comp_def]
  rw [hpairs write, hpairs expected, mapM_map_iff]
  simp only [List.mem_flatMap, List.mem_map, forall_exists_index, and_imp]
  constructor
  · intro h x hx i hi
    exact h (x, i) x hx i hi rfl
  · rintro h _ x hx i hi rfl
    exact h x hx i hi

theorem readDependenciesOf_dependencyJson (d : PipeDependencies O) :
    readDependenciesOf (dependencyJson methods d) = some (d.entries methods) := by
  have hentry (x : ContainerID × O × ModelPath) :
      readDependency (dependencyJson methods d)
        (.arr [.str x.1, objectIdJson methods x.2.1, .str x.2.2]) =
          some ⟨d.savepointsRange.start, d.savepointsRange.stop, x.1, d.configuration,
            methods.toBytes x.2.1, x.2.2⟩ := by
    simp [readDependency, dependencyJson, readRange, rangeJson, objectIdJson, objectIdToStr,
      Json.field?, Json.items?, Json.str?, Json.num?, List.lookup_cons]
  exact mapM_map_iff.mpr fun x _ => hentry x

theorem readDependencies_arr (dependencies : List (PipeDependencies O)) :
    readDependencies (.arr (dependencies.map (dependencyJson methods))) =
      some (dependencies.flatMap (·.entries methods)) := by
  simp only [readDependencies, Json.items?, Option.bind_eq_bind, Option.bind_some]
  rw [mapM_map_iff.mpr fun d _ => readDependenciesOf_dependencyJson methods d]
  rfl

/-- What the server makes of additional objects. -/
def ObjectsToInvalidate.textEntries (a : ObjectsToInvalidate O) : List AdditionalObjectEntry :=
  a.objects.map fun object =>
    ⟨a.savepointRange.start, a.savepointRange.stop, a.containerId, a.configurationId,
      .str (.ofList (objectIdToStr methods object))⟩

theorem readAdditionalObjectsOf_additionalObjectsJson (a : ObjectsToInvalidate O) :
    readAdditionalObjectsOf (additionalObjectsJson methods a) = some (a.textEntries methods) := by
  have hentry (object : O) :
      readAdditionalObject (additionalObjectsJson methods a) (objectIdJson methods object) =
        some ⟨a.savepointRange.start, a.savepointRange.stop, a.containerId, a.configurationId,
          .str (.ofList (objectIdToStr methods object))⟩ := by
    simp [readAdditionalObject, additionalObjectsJson, readRange, rangeJson, objectIdJson,
      Json.field?, Json.str?, Json.num?, List.lookup_cons]
  exact mapM_map_iff.mpr fun object _ => hentry object

theorem readAdditionalObjects_arr (additional : List (ObjectsToInvalidate O)) :
    readAdditionalObjects (.arr (additional.map (additionalObjectsJson methods))) =
      some (additional.flatMap (·.textEntries methods)) := by
  simp only [readAdditionalObjects, Json.items?, Option.bind_eq_bind, Option.bind_some]
  rw [mapM_map_iff.mpr fun a _ => readAdditionalObjectsOf_additionalObjectsJson methods a]
  rfl

/-- A text is not the bytes it stands for. -/
theorem textEntries_eq_entries_iff {additional : List (ObjectsToInvalidate O)} :
    additional.flatMap (·.textEntries methods) = additional.flatMap (·.entries methods) ↔
      ∀ a ∈ additional, a.objects = [] := by
  constructor
  · intro h a ha
    cases hobjects : a.objects with
    | nil => rfl
    | cons object rest =>
      have htext : (⟨a.savepointRange.start, a.savepointRange.stop, a.containerId,
          a.configurationId, .str (.ofList (objectIdToStr methods object))⟩ :
            AdditionalObjectEntry) ∈ additional.flatMap (·.entries methods) := by
        rw [← h, List.mem_flatMap]
        exact ⟨a, ha, by simp [ObjectsToInvalidate.textEntries, hobjects]⟩
      simp [ObjectsToInvalidate.entries] at htext
  · intro h
    simp only [List.flatMap_def]
    congr 1
    refine List.map_congr_left fun a ha => ?_
    simp [ObjectsToInvalidate.textEntries, ObjectsToInvalidate.entries, h a ha]

/-- The arguments survive the trip. -/
def Carried : ClientCall O M → Prop
  | .addObjects dependencies objects =>
      (∀ d ∈ dependencies, ∀ item ∈ d.customItems, CustomCarried methods d item.1 item.2.1) ∧
        ∀ x ∈ objects, ∀ item ∈ x.2, ObjectCarried methods x.1 item.1
  | .setModel _ _ customInvalidations _ => ∀ a ∈ customInvalidations, a.objects = []

theorem serve_send_addObjects (dependencies : List (PipeDependencies O))
    (objects : List (ContainerLocation × List (O × Bytes))) :
    serve (send methods serializeModel (.addObjects dependencies objects)) = do
      let customDependencies ← (dependencies.flatMap fun d =>
        d.customItems.map (customMember methods d)).mapM readCustomDependency
      let objects ← (objects.flatMap fun x =>
        x.2.map (objectMember methods x.1)).mapM readObject
      return .addObjects (dependencies.flatMap (·.entries methods)) customDependencies objects := by
  have hdependencies := readDependencies_arr methods dependencies
  simp [serve, send, savepointAddObjects, List.lookup_cons, Part.document?, Part.members?,
    hdependencies]

theorem serve_send_setModel (newModel : M) (changedPaths : List ModelPath)
    (additional : List (ObjectsToInvalidate O)) (modelBytes : Option Bytes) :
    serve (send methods serializeModel (.setModel newModel changedPaths additional modelBytes)) =
      some (.invalidateAndSetModel changedPaths (additional.flatMap (·.textEntries methods))
        (modelBytes.getD (serializeModel newModel))) := by
  have hpaths : (changedPaths.map Json.str).mapM Json.str? = some (changedPaths.map id) :=
    mapM_map_iff.mpr fun _ _ => rfl
  rw [List.map_id] at hpaths
  have hadditional := readAdditionalObjects_arr methods additional
  simp [serve, send, setModel, List.lookup_cons, Part.document?, Part.data?, Json.field?, Json.items?,
    hpaths, hadditional]

/-- The server makes the call it was given exactly when the arguments survive the trip. -/
theorem serve_send_iff (call : ClientCall O M) :
    serve (send methods serializeModel call) = some (given methods serializeModel call) ↔
      Carried methods call := by
  cases call with
  | addObjects dependencies objects =>
      rw [serve_send_addObjects, Carried]
      simp only [← readCustomDependency_customMember_iff, ← readObject_objectMember_iff]
      rw [← mapM_flatMap_iff, ← mapM_flatMap_iff]
      simp [given, Option.bind_eq_some_iff]
  | setModel newModel changedPaths customInvalidations modelBytes =>
      rw [serve_send_setModel, given, Carried, ← textEntries_eq_entries_iff methods]
      simp

/-- Invalidation of one object besides the changed paths, where objects are their bytes. -/
def oneAdditionalObject : ClientCall Bytes Unit :=
  .setModel () ["/Functions"] [⟨⟨1, 2⟩, "functions", "", [[0x01]]⟩] none

theorem not_serve_send : ¬ ∀ call : ClientCall Bytes Unit,
    serve (send ⟨id, fun _ => ""⟩ (fun _ => []) call) =
      some (given ⟨id, fun _ => ""⟩ (fun _ => []) call) := by
  intro h
  have hcall := h oneAdditionalObject
  rw [oneAdditionalObject, serve_send_setModel] at hcall
  revert hcall
  decide +kernel

end RssServer.Wire
