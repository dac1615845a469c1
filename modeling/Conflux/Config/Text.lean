import Conflux.Config.Settings
import Conflux.Toml.Printer
import Conflux.Toml.Reader

/-!
Settings as a configuration text. A section is a table of fields, or a list of its
first fields in their order; what is not set has its default, and what means nothing
is passed over.
-/

namespace Conflux.Config

/-! ### Fields -/

/-- The values of a section by the names of its fields. A moment sets nothing. -/
def fields? (names : List String) : Toml.Value → Option (List (String × Toml.Value))
  | .table entries => some entries
  | .array items => some (names.zip items)
  | .moment _ => some []
  | _ => none

/-- The value of a field, or the default where it is not set. -/
def field? {α : Type} (read : Toml.Value → Option α) (fields : List (String × Toml.Value))
    (name : String) (default : α) : Option α :=
  match fields.lookup name with
  | some v => read v
  | none => some default

def text? : Toml.Value → Option String
  | .string s => some s
  | _ => none

def flag? : Toml.Value → Option Bool
  | .bool b => some b
  | _ => none

def natural? (bound : Nat) : Toml.Value → Option Nat
  | .integer i => if 0 ≤ i ∧ i.toNat ≤ bound then some i.toNat else none
  | _ => none

/-- An encoding is told by its name, or by a table with that one key and nothing under
it. -/
def encoding? : Toml.Value → Option Encoding
  | .string s => Encoding.ofName? s
  | .table [(name, v)] => if v.isEmpty then Encoding.ofName? name else none
  | _ => none

/-! ### Sections -/

def word : Toml.Value → Option Nat := natural? Decimal.maxUInt64

def transport? (default : Transport) (v : Toml.Value) : Option Transport := do
  let fields ← fields? ["bind_addr", "topic", "hub_name", "max_fragment_bytes", "encoding",
    "offsets_path"] v
  some
    { bindAddress := ← field? text? fields "bind_addr" default.bindAddress
      topic := ← field? text? fields "topic" default.topic
      hubName := ← field? text? fields "hub_name" default.hubName
      maxFragmentBytes := ← field? word fields "max_fragment_bytes" default.maxFragmentBytes
      encoding := ← field? encoding? fields "encoding" default.encoding
      offsetsPath := ← field? text? fields "offsets_path" default.offsetsPath }

def conflation? (default : Conflation) (v : Toml.Value) : Option Conflation := do
  let fields ← fields? ["workers", "commit_interval_secs", "retry_max_attempts",
    "retry_initial_backoff_ms", "retry_max_backoff_ms"] v
  some
    { workers := ← field? word fields "workers" default.workers
      commitIntervalSecs := ← field? word fields "commit_interval_secs" default.commitIntervalSecs
      retryMaxAttempts := ← field? (natural? Decimal.maxUInt32) fields "retry_max_attempts"
        default.retryMaxAttempts
      retryInitialBackoffMillis := ← field? word fields "retry_initial_backoff_ms"
        default.retryInitialBackoffMillis
      retryMaxBackoffMillis := ← field? word fields "retry_max_backoff_ms"
        default.retryMaxBackoffMillis }

def assembler? (default : Assembly) (v : Toml.Value) : Option Assembly := do
  let fields ← fields? ["ttl_secs", "sweep_interval_secs", "dedup_capacity"] v
  some
    { ttlSecs := ← field? word fields "ttl_secs" default.ttlSecs
      sweepIntervalSecs := ← field? word fields "sweep_interval_secs" default.sweepIntervalSecs
      remembered := ← field? word fields "dedup_capacity" default.remembered }

def api? (default : Api) (v : Toml.Value) : Option Api := do
  let fields ← fields? ["enabled", "port"] v
  some
    { enabled := ← field? flag? fields "enabled" default.enabled
      port := ← field? (natural? Decimal.maxUInt16) fields "port" default.port }

def storage? (default : Storage) (v : Toml.Value) : Option Storage := do
  let fields ← fields? ["sink_path"] v
  some { sinkPath := ← field? text? fields "sink_path" default.sinkPath }

/-- The settings that a table makes of the given ones. -/
def ofEntries? (default : Config) (entries : List (String × Toml.Value)) : Option Config := do
  some
    { transport := ← field? (transport? default.transport) entries "transport" default.transport
      conflation := ← field? (conflation? default.conflation) entries "conflation"
        default.conflation
      assembler := ← field? (assembler? default.assembler) entries "assembler" default.assembler
      api := ← field? (api? default.api) entries "api" default.api
      storage := ← field? (storage? default.storage) entries "storage" default.storage }

/-- The settings that a text makes of the given ones. -/
def ofText? (default : Config) (text : String) : Option Config :=
  (Toml.parse? text).bind (ofEntries? default)

/-! ### Writing -/

def sections (c : Config) : List Toml.Section :=
  [⟨"transport",
      [("bind_addr", .string c.transport.bindAddress),
        ("topic", .string c.transport.topic),
        ("hub_name", .string c.transport.hubName),
        ("max_fragment_bytes", .natural c.transport.maxFragmentBytes),
        ("encoding", .string c.transport.encoding.name),
        ("offsets_path", .string c.transport.offsetsPath)]⟩,
    ⟨"conflation",
      [("workers", .natural c.conflation.workers),
        ("commit_interval_secs", .natural c.conflation.commitIntervalSecs),
        ("retry_max_attempts", .natural c.conflation.retryMaxAttempts),
        ("retry_initial_backoff_ms", .natural c.conflation.retryInitialBackoffMillis),
        ("retry_max_backoff_ms", .natural c.conflation.retryMaxBackoffMillis)]⟩,
    ⟨"assembler",
      [("ttl_secs", .natural c.assembler.ttlSecs),
        ("sweep_interval_secs", .natural c.assembler.sweepIntervalSecs),
        ("dedup_capacity", .natural c.assembler.remembered)]⟩,
    ⟨"api", [("enabled", .bool c.api.enabled), ("port", .natural c.api.port)]⟩,
    ⟨"storage", [("sink_path", .string c.storage.sinkPath)]⟩]

def text (c : Config) : String := Toml.writeSections c.sections

end Conflux.Config
