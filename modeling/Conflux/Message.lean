import Conflux.Bytes.Base64
import Conflux.Envelope

/-!
Transport messages: the wrapper in which one envelope travels. A message made from an
envelope repeats its type, its version and, inside the key, its source; opening a
message checks the first two against the envelope found inside, and `source?` reads
the third back.
-/

namespace Conflux

structure Message where
  key : String
  id : String
  kind : String
  version : String
  destination : String
  payload : Bytes
deriving DecidableEq, Repr, Inhabited

/-- Why a message cannot be opened. -/
inductive OpenError where
  | version (e : Version.ParseError)
  | document
  | typeMismatch (transport envelope : String)
  | versionMismatch (transport envelope : String)
deriving DecidableEq, Repr

namespace OpenError

def mismatchMessage (field transport envelope : String) : String :=
  field ++ " mismatch: transport says " ++ Text.quoted transport ++ ", envelope says " ++
    Text.quoted envelope

/-- The wording; a bad document has none of its own. -/
def message? : OpenError → Option String
  | version e => some (DecodeError.versionMessage e)
  | document => none
  | typeMismatch t e => some (mismatchMessage "type" t e)
  | versionMismatch t e => some (mismatchMessage "version" t e)

def ofDecode : DecodeError → OpenError
  | .version e => version e
  | .document => document

end OpenError

namespace Message

/-- What kind of message carries a bundle. -/
def statusKind : String := "StatusBundle"

def ofEnvelope (e : Envelope) (destination : String) : Message :=
  { key := Envelope.streamKey e.source e.bundleType
    id := e.bundleType
    kind := statusKind
    version := e.version.text
    destination
    payload := e.encode }

/-- What is left of a list when it ends in the given one. -/
def stripEnd? (ending cs : List Char) : Option (List Char) :=
  if ending.isSuffixOf cs then some (cs.take (cs.length - ending.length)) else none

/-- The source named in the key: what stands before the point and the identifier. -/
def source? (m : Message) : Option String :=
  match (stripEnd? m.id.toList m.key.toList).bind (stripEnd? ['.']) with
  | some (c :: cs) => some (String.ofList (c :: cs))
  | _ => none

/-- The envelope inside, if it agrees with the wrapper. -/
def open? (m : Message) : Except OpenError Envelope := do
  let version ← (Version.parse m.version).mapError .version
  let e ← (Envelope.decode m.payload).mapError .ofDecode
  if e.bundleType ≠ m.id then .error (.typeMismatch m.id e.bundleType)
  else if e.version ≠ version then .error (.versionMismatch m.version e.version.text)
  else .ok e

/-! ### JSON form -/

def base64Text (b : Bytes) : String := (Bytes.toText? (Bytes.Base64.encode b)).getD ""

def toJson (m : Message) : Json :=
  .object [("key", .string m.key), ("id", .string m.id), ("msgType", .string m.kind),
    ("version", .string m.version), ("destination", .string m.destination),
    ("payload", .string (base64Text m.payload))]

def encode (m : Message) : Bytes := m.toJson.compact

inductive Field where
  | text (s : String)
  | payload (b : Bytes)

def fieldNames : List String := ["key", "id", "msgType", "version", "destination", "payload"]

def field (name : String) : Json.Scan Field :=
  if name = "payload" then fun s =>
    (Envelope.meaning? (fun t => Bytes.Base64.decode? (Bytes.ofText t)) s).map fun p =>
      (.payload p.1, p.2)
  else fun s => (Json.string? s).map fun p => (.text p.1, p.2)

def textField? (name : String) (fields : List (String × Field)) : Option String :=
  match fields.lookup name with
  | some (.text s) => some s
  | _ => none

/-- Builds the message from its fields; only the destination may be missing. -/
def ofFields? (fields : List (String × Field)) : Option Message := do
  guard (Json.distinctNames fields)
  let key ← textField? "key" fields
  let id ← textField? "id" fields
  let kind ← textField? "msgType" fields
  let version ← textField? "version" fields
  match fields.lookup "payload" with
  | some (.payload payload) =>
      some
        { key, id, kind, version, payload
          destination := (textField? "destination" fields).getD "" }
  | _ => none

def scan? : Json.Scan Message := fun s => do
  let (fields, r) ← Json.record? fieldNames field s
  let m ← ofFields? fields
  some (m, r)

/-- The message a JSON text stands for. -/
def decode? (b : Bytes) : Option Message := Json.whole? scan? b

end Message

end Conflux
