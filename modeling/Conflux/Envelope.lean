import Conflux.Json.Printer
import Conflux.Json.Record
import Conflux.Time
import Conflux.Version

/-!
Bundle envelopes: one bundle of one source as an event document. The reader is
written once for any kind of version field. Reading with versions left as text and
parsing them afterwards (`decode`) tells a bad version from a bad document; reading
with versions parsed on the way (`read?`) does not.
-/

namespace Conflux

/-- An envelope whose version fields have the type `ν`. -/
structure EnvelopeOf (ν : Type) where
  specVersion : String
  bundleType : String
  source : String
  id : String
  time : Time
  version : ν
  dependencyVersion : Option ν
  data : List Json
deriving Repr

abbrev Envelope := EnvelopeOf Version

/-! ### Versions in JSON -/

/-- A version as a JSON text: its own text as a string. -/
def Version.jsonText (v : Version) : Bytes := Json.quote v.text

def Version.ofJsonText? (b : Bytes) : Option Version :=
  (Json.whole? Json.string? b).bind fun s => (Version.parse s).toOption

/-- Why bytes are no envelope. -/
inductive DecodeError where
  | version (e : Version.ParseError)
  /-- The text is not JSON, or a field is missing, repeated or of a wrong type. -/
  | document
deriving DecidableEq, Repr

def DecodeError.versionMessage (e : Version.ParseError) : String :=
  "malformed version: " ++ e.message

namespace Envelope

def defaultSpecVersion : String := "1.0"

/-- A fresh envelope; its identifier joins source, type and version. -/
def fresh (source bundleType : String) (version : Version) (data : List Json) (time : Time) :
    Envelope :=
  { specVersion := defaultSpecVersion
    bundleType, source, time, version, data
    id := source ++ "." ++ bundleType ++ "." ++ version.text
    dependencyVersion := none }

/-- The version that the dependency has to reach before the bundle may run. -/
def required (e : Envelope) : Version := e.dependencyVersion.getD e.version

/-- The key of the stream that a source's bundles of one type travel on. -/
def streamKey (source bundleType : String) : String := source ++ "." ++ bundleType

/-! ### Writing -/

def toJson (e : Envelope) : Json :=
  .object ([("specversion", .string e.specVersion), ("type", .string e.bundleType),
    ("source", .string e.source), ("id", .string e.id), ("time", .string e.time.text),
    ("version", .string e.version.text)] ++
    (match e.dependencyVersion with
      | some v => [("dependencyversion", .string v.text)]
      | none => []) ++
    [("data", .array e.data)])

def encode (e : Envelope) : Bytes := e.toJson.compact

/-! ### Reading -/

/-- One field of a document. -/
inductive Field (ν : Type) where
  | text (s : String)
  | time (t : Time)
  | version (v : ν)
  | dependency (v : Option ν)
  | data (items : List Json)

def fieldNames : List String :=
  ["specversion", "type", "source", "id", "time", "version", "dependencyversion", "data"]

/-- A string that has to mean something. -/
def meaning? {α : Type} (f : String → Option α) : Json.Scan α := fun s => do
  let (text, r) ← Json.string? s
  let x ← f text
  some (x, r)

/-- The records of a bundle lie two levels down in the document. -/
def recordRoom : Nat := Json.roomLimit - 2

def field {ν : Type} (version? : String → Option ν) (name : String) : Json.Scan (Field ν) :=
  if name = "time" then fun s => (meaning? Time.parse? s).map fun p => (.time p.1, p.2)
  else if name = "version" then fun s =>
    (meaning? version? s).map fun p => (.version p.1, p.2)
  else if name = "dependencyversion" then fun s =>
    (Json.nullable? (meaning? version?) s).map fun p => (.dependency p.1, p.2)
  else if name = "data" then fun s =>
    (Json.values? recordRoom s).map fun p => (.data p.1, p.2)
  else fun s => (Json.string? s).map fun p => (.text p.1, p.2)

def textField? {ν : Type} (name : String) (fields : List (String × Field ν)) : Option String :=
  match fields.lookup name with
  | some (.text s) => some s
  | _ => none

/-- Builds the envelope from its fields. The specification version, the dependency
version and the data may be missing. -/
def ofFields? {ν : Type} (fields : List (String × Field ν)) : Option (EnvelopeOf ν) := do
  guard (Json.distinctNames fields)
  let bundleType ← textField? "type" fields
  let source ← textField? "source" fields
  let id ← textField? "id" fields
  match fields.lookup "time", fields.lookup "version" with
  | some (.time time), some (.version version) =>
      some
        { specVersion := (textField? "specversion" fields).getD defaultSpecVersion
          bundleType, source, id, time, version
          dependencyVersion := match fields.lookup "dependencyversion" with
            | some (.dependency v) => v
            | _ => none
          data := match fields.lookup "data" with
            | some (.data items) => items
            | _ => [] }
  | _, _ => none

def scan? {ν : Type} (version? : String → Option ν) : Json.Scan (EnvelopeOf ν) := fun s => do
  let (fields, r) ← Json.record? fieldNames (field version?) s
  let e ← ofFields? fields
  some (e, r)

/-- The document in the given bytes, its versions read by `version?`. -/
def readWith? {ν : Type} (version? : String → Option ν) (b : Bytes) : Option (EnvelopeOf ν) :=
  Json.whole? (scan? version?) b

/-- Reads the versions as part of the document. -/
def read? (b : Bytes) : Option Envelope := readWith? (fun s => (Version.parse s).toOption) b

/-- Parses the versions of a document, the bundle's own first. -/
def parseVersions (raw : EnvelopeOf String) : Except Version.ParseError Envelope := do
  let version ← Version.parse raw.version
  let dependencyVersion ← match raw.dependencyVersion with
    | some s => (Version.parse s).map some
    | none => .ok none
  .ok
    { specVersion := raw.specVersion, bundleType := raw.bundleType, source := raw.source
      id := raw.id, time := raw.time, version, dependencyVersion, data := raw.data }

/-- Reads the document first and its versions afterwards. -/
def decode (b : Bytes) : Except DecodeError Envelope :=
  match readWith? some b with
  | none => .error .document
  | some raw => (parseVersions raw).mapError .version

end Envelope

end Conflux
