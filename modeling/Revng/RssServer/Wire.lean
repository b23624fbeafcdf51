import Std.Data.String.ToNat
import Revng.Lib.Base64
import Revng.Lib.SeparatedText
import Revng.Lib.Tar
import Revng.RssServer.ProjectTables

/-!
# The requests of a remote storage client

The client of the remote storage turns `add_objects` and `set_model` into a request with a form,
and the server reads the form and calls the storage of the project.  Dependencies and changed
paths travel as JSON.  Objects and the data for custom invalidations travel as members of a tar
archive, whose names have the identifiers in them, separated by slashes.  The bytes of object
identifiers are written in base64 everywhere.

`send` is the client and `serve` is the server, up to the call of the storage.  `given` is the
call that the same operation makes on a storage without a client in between.

JSON documents are values here: writing one and reading it back changes nothing.
-/

namespace RssServer.Wire

open Pypeline (SavepointID ContainerID ConfigurationId ModelPath Bytes ContainerLocation
  SavePointsRange)
open SeparatedText (join splitMax)

/-! ## The arguments of the client -/

/-- The two methods of an object identifier that the client calls. -/
structure ObjectMethods (O : Type) where
  toBytes : O → Bytes
  serialize : O → String

structure PipeDependencies (O : Type) where
  pipeId : Nat
  savepointsRange : SavePointsRange
  configuration : ConfigurationId
  dependencies : List (ContainerID × O × ModelPath)
  customInvalidation : List (List (O × Bytes))

structure ObjectsToInvalidate (O : Type) where
  savepointRange : SavePointsRange
  containerId : ContainerID
  configurationId : ConfigurationId
  objects : List O

/-- The operations of the client.  `modelBytes` is the serialized model, if the caller has it. -/
inductive ClientCall (O M : Type) where
  | addObjects (dependencies : List (PipeDependencies O))
      (objects : List (ContainerLocation × List (O × Bytes)))
  | setModel (newModel : M) (changedPaths : List ModelPath)
      (customInvalidations : List (ObjectsToInvalidate O)) (modelBytes : Option Bytes)

/-! ## The calls of the storage -/

/-- Python does not check that a field declared as bytes is given bytes. -/
inductive PyValue where
  | str (text : String)
  | bytes (data : Bytes)
deriving DecidableEq, Repr

structure AdditionalObjectEntry where
  savepointIdStart : SavepointID
  savepointIdEnd : SavepointID
  containerId : ContainerID
  configurationHash : ConfigurationHash
  objectId : PyValue
deriving DecidableEq, Repr

inductive StorageCall where
  | addObjects (dependencies : List DependencyEntry) (customDependencies : List CustomDependency)
      (objects : List ObjectEntry)
  | invalidateAndSetModel (invalidationList : List ModelPath)
      (additionalObjects : List AdditionalObjectEntry) (modelBytes : Bytes)
deriving DecidableEq, Repr

/-! ## Messages -/

inductive Json where
  | num (n : Nat)
  | str (text : String)
  | arr (items : List Json)
  | obj (fields : List (String × Json))

/-- What a field of a form holds. -/
inductive Part where
  | json (document : Json)
  | tar (members : List Tar.Member)
  | raw (data : Bytes)

structure HttpRequest where
  path : String
  files : List (String × Part)

/-! ## Texts -/

/-- `str` on an integer -/
def decimal (n : Nat) : List Char := Nat.toDigits 10 n

def b64encode (data : Bytes) : List Char := Base64.encode data

/-- A text that is not ASCII raises an error. -/
def b64decode (x : List Char) : Option Bytes :=
  if Tar.Ascii x then Base64.decode x else none

/-- The zeros of the scripts that have decimal digits. -/
def decimalZeros : List Nat :=
  [0x30, 0x660, 0x6F0, 0x7C0, 0x966, 0x9E6, 0xA66, 0xAE6, 0xB66, 0xBE6, 0xC66, 0xCE6, 0xD66, 0xDE6,
    0xE50, 0xED0, 0xF20, 0x1040, 0x1090, 0x17E0, 0x1810, 0x1946, 0x19D0, 0x1A80, 0x1A90, 0x1B50,
    0x1BB0, 0x1C40, 0x1C50, 0xA620, 0xA8D0, 0xA900, 0xA9D0, 0xA9F0, 0xAA50, 0xABF0, 0xFF10, 0x104A0,
    0x10D30, 0x11066, 0x110F0, 0x11136, 0x111D0, 0x112F0, 0x11450, 0x114D0, 0x11650, 0x116C0,
    0x11730, 0x118E0, 0x11950, 0x11C50, 0x11D50, 0x11DA0, 0x11F50, 0x16A60, 0x16AC0, 0x16B50,
    0x1D7CE, 0x1D7D8, 0x1D7E2, 0x1D7EC, 0x1D7F6, 0x1E140, 0x1E2F0, 0x1E4F0, 0x1E950, 0x1FBF0]

/-- A digit of any script as an ASCII digit. -/
def asciiDigit (c : Char) : Char :=
  match decimalZeros.find? fun first => decide (first ≤ c.toNat) && decide (c.toNat < first + 10) with
  | some first => Char.ofNat (0x30 + (c.toNat - first))
  | none => c

def isSpace (c : Char) : Bool :=
  decide (0x9 ≤ c.toNat) && decide (c.toNat ≤ 0xD) ||
    decide (0x2000 ≤ c.toNat) && decide (c.toNat ≤ 0x200A) ||
    [0x20, 0x85, 0xA0, 0x1680, 0x2028, 0x2029, 0x202F, 0x205F, 0x3000].contains c.toNat

/-- `int` on a text: blanks around it, a sign, and digits with single underscores between
them. -/
def int (x : List Char) : Option Int :=
  match ((x.map asciiDigit).dropWhile isSpace).rdropWhile isSpace with
  | '-' :: digits => (String.ofList digits).toNat?.map (-Int.ofNat ·)
  | '+' :: digits => (String.ofList digits).toNat?.map Int.ofNat
  | digits => (String.ofList digits).toNat?.map Int.ofNat

/-- Identifiers of savepoints and pipes and positions of arguments are not negative. -/
def readId (x : List Char) : Option Nat := (int x).bind Int.toNat?

/-! ## The client -/

section Client

variable {O M : Type} (methods : ObjectMethods O) (serializeModel : M → Bytes)

def objectIdToStr (object : O) : List Char := b64encode (methods.toBytes object)

/-- The two parts of the serialized identifier that fill the names of the owner. -/
def objectIdSerializeSplit (object : O) : List Char × List Char :=
  (methods.serialize object).toList.splitAt 31

def rangeJson (range : SavePointsRange) : Json :=
  .obj [("start", .num range.start), ("end", .num range.stop)]

def objectIdJson (object : O) : Json := .str (.ofList (objectIdToStr methods object))

def dependencyJson (d : PipeDependencies O) : Json :=
  .obj [("savepoint_range", rangeJson d.savepointsRange),
    ("configuration_id", .str d.configuration),
    ("dependencies", .arr (d.dependencies.map fun (container, object, path) =>
      .arr [.str container, objectIdJson methods object, .str path]))]

/-- The data for custom invalidation, with the positions of the containers. -/
def PipeDependencies.customItems (d : PipeDependencies O) : List (Nat × O × Bytes) :=
  d.customInvalidation.zipIdx.flatMap fun (items, index) =>
    items.map fun (object, data) => (index, object, data)

def customPath (d : PipeDependencies O) (index : Nat) (object : O) : List Char :=
  join '/' [decimal d.pipeId, d.configuration.toList, decimal index, objectIdToStr methods object]

def customMember (d : PipeDependencies O) (item : Nat × O × Bytes) : Tar.Member :=
  .ofFile (customPath methods d item.1 item.2.1) [] [] item.2.2

def objectPath (location : ContainerLocation) (object : O) : List Char :=
  join '/' [decimal location.savepointId, location.containerId.toList,
    location.configurationId.toList, objectIdToStr methods object]

def objectMember (location : ContainerLocation) (item : O × Bytes) : Tar.Member :=
  .ofFile (objectPath methods location item.1) (objectIdSerializeSplit methods item.1).1
    (objectIdSerializeSplit methods item.1).2 item.2

def additionalObjectsJson (a : ObjectsToInvalidate O) : Json :=
  .obj [("savepoint_range", rangeJson a.savepointRange), ("container_id", .str a.containerId),
    ("configuration_id", .str a.configurationId),
    ("objects", .arr (a.objects.map (objectIdJson methods)))]

def send : ClientCall O M → HttpRequest
  | .addObjects dependencies objects =>
      ⟨"/savepoint/add-objects",
        [("dependencies", .json (.arr (dependencies.map (dependencyJson methods)))),
          ("custom_invalidation", .tar (dependencies.flatMap fun d =>
            d.customItems.map (customMember methods d))),
          ("objects", .tar (objects.flatMap fun (location, items) =>
            items.map (objectMember methods location)))]⟩
  | .setModel newModel changedPaths customInvalidations modelBytes =>
      ⟨"/model/set",
        [("invalidation", .json (.obj [("invalidation_list", .arr (changedPaths.map .str)),
            ("additional_objects", .arr (customInvalidations.map (additionalObjectsJson methods)))])),
          ("model", .raw (modelBytes.getD (serializeModel newModel)))]⟩

end Client

/-! ## The server -/

namespace Json

def field? (key : String) : Json → Option Json
  | .obj fields => fields.lookup key
  | _ => none

def num? : Json → Option Nat
  | .num n => some n
  | _ => none

def str? : Json → Option String
  | .str text => some text
  | _ => none

def items? : Json → Option (List Json)
  | .arr items => some items
  | _ => none

end Json

def readRange (j : Json) : Option SavePointsRange := do
  let range ← j.field? "savepoint_range"
  let start ← (← range.field? "start").num?
  let stop ← (← range.field? "end").num?
  return ⟨start, stop⟩

/-- One of the triples of a dependency. -/
def readDependency (dep item : Json) : Option DependencyEntry := do
  match ← item.items? with
  | [container, objectIdStr, modelPath] =>
      let range ← readRange dep
      let configuration ← (← dep.field? "configuration_id").str?
      let objectId ← b64decode (← objectIdStr.str?).toList
      return ⟨range.start, range.stop, ← container.str?, configuration, objectId, ← modelPath.str?⟩
  | _ => none

def readDependenciesOf (dep : Json) : Option (List DependencyEntry) := do
  (← (← dep.field? "dependencies").items?).mapM (readDependency dep)

def readDependencies (document : Json) : Option (List DependencyEntry) := do
  return (← (← document.items?).mapM readDependenciesOf).flatten

def readCustomDependency (member : Tar.Member) : Option CustomDependency := do
  match splitMax '/' 3 member.name.path with
  | [pipeId, configHash, containerIndex, location] =>
      return ⟨← readId pipeId, .ofList configHash, ← readId containerIndex, ← b64decode location,
        member.data⟩
  | _ => none

def readObject (member : Tar.Member) : Option ObjectEntry := do
  match splitMax '/' 3 member.name.path with
  | [savepointId, containerId, configHash, location] =>
      return ⟨← readId savepointId, .ofList containerId, .ofList configHash, ← b64decode location,
        .ofList (member.uname.text ++ member.gname.text), member.data⟩
  | _ => none

/-- One of the additional objects.  Its identifier is handed on as the text it came as. -/
def readAdditionalObject (obj objectId : Json) : Option AdditionalObjectEntry := do
  let range ← readRange obj
  let container ← (← obj.field? "container_id").str?
  let configuration ← (← obj.field? "configuration_id").str?
  return ⟨range.start, range.stop, container, configuration, .str (← objectId.str?)⟩

def readAdditionalObjectsOf (obj : Json) : Option (List AdditionalObjectEntry) := do
  (← (← obj.field? "objects").items?).mapM (readAdditionalObject obj)

def readAdditionalObjects (document : Json) : Option (List AdditionalObjectEntry) := do
  return (← (← document.items?).mapM readAdditionalObjectsOf).flatten

def Part.document? : Part → Option Json
  | .json document => some document
  | _ => none

def Part.members? : Part → Option (List Tar.Member)
  | .tar members => some members
  | _ => none

def Part.data? : Part → Option Bytes
  | .raw data => some data
  | _ => none

def savepointAddObjects (form : List (String × Part)) : Option StorageCall := do
  let dependencies ← readDependencies (← (← form.lookup "dependencies").document?)
  let customDependencies ←
    (← (← form.lookup "custom_invalidation").members?).mapM readCustomDependency
  let objects ← (← (← form.lookup "objects").members?).mapM readObject
  return .addObjects dependencies customDependencies objects

def setModel (form : List (String × Part)) : Option StorageCall := do
  let invalidation ← (← form.lookup "invalidation").document?
  let invalidationList ←
    (← ((invalidation.field? "invalidation_list").getD (.arr [])).items?).mapM Json.str?
  let additionalObjects ←
    readAdditionalObjects ((invalidation.field? "additional_objects").getD (.arr []))
  return .invalidateAndSetModel invalidationList additionalObjects
    (← (← form.lookup "model").data?)

def serve (request : HttpRequest) : Option StorageCall :=
  match request.path with
  | "/savepoint/add-objects" => savepointAddObjects request.files
  | "/model/set" => setModel request.files
  | _ => none

/-! ## The call without a client in between -/

section Given

variable {O M : Type} (methods : ObjectMethods O) (serializeModel : M → Bytes)

def PipeDependencies.entries (d : PipeDependencies O) : List DependencyEntry :=
  d.dependencies.map fun (container, object, path) =>
    ⟨d.savepointsRange.start, d.savepointsRange.stop, container, d.configuration,
      methods.toBytes object, path⟩

def PipeDependencies.customEntry (d : PipeDependencies O) (item : Nat × O × Bytes) :
    CustomDependency :=
  ⟨d.pipeId, d.configuration, item.1, methods.toBytes item.2.1, item.2.2⟩

def objectEntry (location : ContainerLocation) (item : O × Bytes) : ObjectEntry :=
  ⟨location.savepointId, location.containerId, location.configurationId, methods.toBytes item.1,
    methods.serialize item.1, item.2⟩

def ObjectsToInvalidate.entries (a : ObjectsToInvalidate O) : List AdditionalObjectEntry :=
  a.objects.map fun object =>
    ⟨a.savepointRange.start, a.savepointRange.stop, a.containerId, a.configurationId,
      .bytes (methods.toBytes object)⟩

def given : ClientCall O M → StorageCall
  | .addObjects dependencies objects =>
      .addObjects (dependencies.flatMap (·.entries methods))
        (dependencies.flatMap fun d => d.customItems.map (d.customEntry methods))
        (objects.flatMap fun (location, items) => items.map (objectEntry methods location))
  | .setModel newModel changedPaths customInvalidations modelBytes =>
      .invalidateAndSetModel changedPaths (customInvalidations.flatMap (·.entries methods))
        (modelBytes.getD (serializeModel newModel))

end Given

end RssServer.Wire
