import Conflux.Config.Text
import Conflux.Files.Replace

/-!
Where the settings come from: the environment overrides a file, and a file overrides
the defaults. The settings have to be valid twice, as the file leaves them and as the
environment does.
-/

namespace Conflux

/-- Why there are no settings. -/
inductive ConfigError where
  | readFailed
  | parseFailed
  | writeFailed
  /-- The wire cannot carry fragments of this size. -/
  | invalidSize (size : Nat)
deriving DecidableEq, Repr

/-- The wording, where it does not depend on a path. -/
def ConfigError.message? : ConfigError → Option String
  | invalidSize n =>
      some ("invalid transport.max_fragment_bytes: " ++ Decimal.write n ++ " is outside 1..=" ++
        Decimal.write Fragment.maxPayload)
  | _ => none

namespace Config

def validate (c : Config) : Except ConfigError Config :=
  if c.Valid then .ok c else .error (.invalidSize c.transport.maxFragmentBytes)

/-! ### Overrides -/

/-- A variable as text; unset it changes nothing. -/
def override (env : Environment) (name old : String) : String := (env.get? name).getD old

/-- A variable as a number up to a bound; one that is none changes nothing. -/
def overrideNatural (env : Environment) (name : String) (bound old : Nat) : Nat :=
  ((env.get? name).bind fun s => Decimal.read? bound s.toList).getD old

/-- A variable as a switch: two words turn it on, and every other one turns it off. -/
def overrideFlag (env : Environment) (name : String) (old : Bool) : Bool :=
  match env.get? name with
  | some s => s == "true" || s == "1"
  | none => old

/-- The settings with what the environment says instead. -/
def withOverrides (env : Environment) (c : Config) : Config :=
  { transport :=
      { c.transport with
        bindAddress := override env "HUBSTAT_TRANSPORT__BIND_ADDR" c.transport.bindAddress
        topic := override env "HUBSTAT_TRANSPORT__TOPIC" c.transport.topic
        hubName := override env "HUBSTAT_TRANSPORT__HUB_NAME" c.transport.hubName
        maxFragmentBytes := overrideNatural env "HUBSTAT_TRANSPORT__MAX_FRAGMENT_BYTES"
          Decimal.maxUInt64 c.transport.maxFragmentBytes
        offsetsPath := override env "HUBSTAT_TRANSPORT__OFFSETS_PATH" c.transport.offsetsPath }
    conflation :=
      { c.conflation with
        workers := overrideNatural env "HUBSTAT_CONFLATION__WORKERS" Decimal.maxUInt64
          c.conflation.workers
        commitIntervalSecs := overrideNatural env "HUBSTAT_CONFLATION__COMMIT_INTERVAL_SECS"
          Decimal.maxUInt64 c.conflation.commitIntervalSecs
        retryMaxAttempts := overrideNatural env "HUBSTAT_CONFLATION__RETRY_MAX_ATTEMPTS"
          Decimal.maxUInt32 c.conflation.retryMaxAttempts }
    assembler :=
      { c.assembler with
        ttlSecs := overrideNatural env "HUBSTAT_ASSEMBLER__TTL_SECS" Decimal.maxUInt64
          c.assembler.ttlSecs }
    api :=
      { enabled := overrideFlag env "HUBSTAT_API__ENABLED" c.api.enabled
        port := overrideNatural env "HUBSTAT_API__PORT" Decimal.maxUInt16 c.api.port }
    storage :=
      { sinkPath := override env "HUBSTAT_STORAGE__SINK_PATH" c.storage.sinkPath } }

/-! ### Files -/

/-- The settings in the bytes of a file. -/
def ofBytes (env : Environment) (b : Bytes) : Except ConfigError Config :=
  match Bytes.toText? b with
  | none => .error .readFailed
  | some text =>
      match ofText? (standard env) text with
      | none => .error .parseFailed
      | some c => c.validate

/-- The settings in a file alone, which has to be there. -/
def ofFile (env : Environment) (file : Except Files.ReadError Bytes) : Except ConfigError Config :=
  match file with
  | .ok b => ofBytes env b
  | .error _ => .error .readFailed

/-- The settings in a file, or the defaults where nothing is. -/
def ofFileOrStandard (env : Environment) (file : Except Files.ReadError Bytes) :
    Except ConfigError Config :=
  match file with
  | .error .notFound => .ok (standard env)
  | .error .noWay => .ok (standard env)
  | file => ofFile env file

/-- The settings of a hub. -/
def load (env : Environment) (file : Except Files.ReadError Bytes) : Except ConfigError Config :=
  (ofFileOrStandard env file).bind fun c => (c.withOverrides env).validate

/-- Makes a file with the defaults where nothing is. -/
def writeStandard (env : Environment) (t : Files.Tree) (path : Files.Path) :
    Files.Tree × Except ConfigError Unit :=
  match t.node? path with
  | some _ => (t, .ok ())
  | none =>
      match t.runSteps (path.ancestors.map .makeDirectory ++
          [.create path, .append path (Bytes.ofText (standard env).text)]) with
      | (t, .ok ()) => (t, .ok ())
      | (t, .error _) => (t, .error .writeFailed)

end Config

end Conflux
