import Conflux.Committer
import Conflux.Config.Loading
import Conflux.OffsetStore
import Conflux.Pipeline
import Conflux.Sink
import Conflux.Zstd.Plain
import Mathlib.Tactic.DeprecateTo

/-!
The command line. `send` cuts the envelope in a file into datagrams and prints them,
one line of hexadecimal digits each. Without it the hub reads such lines, keeps the
bundles that come in below the sink path, and commits at the end of the input. Lines are
numbered on from the offset that the run before has committed.
-/

namespace Conflux.Main

open scoped Zstd

/-- The variables that the settings look at. -/
def variableNames : List String :=
  ["HOME", "XDG_CONFIG_HOME", "XDG_DATA_HOME", "HUBSTAT_CONFIG",
    "HUBSTAT_TRANSPORT__BIND_ADDR", "HUBSTAT_TRANSPORT__TOPIC", "HUBSTAT_TRANSPORT__HUB_NAME",
    "HUBSTAT_TRANSPORT__MAX_FRAGMENT_BYTES", "HUBSTAT_TRANSPORT__OFFSETS_PATH",
    "HUBSTAT_CONFLATION__WORKERS", "HUBSTAT_CONFLATION__COMMIT_INTERVAL_SECS",
    "HUBSTAT_CONFLATION__RETRY_MAX_ATTEMPTS", "HUBSTAT_ASSEMBLER__TTL_SECS",
    "HUBSTAT_API__ENABLED", "HUBSTAT_API__PORT", "HUBSTAT_STORAGE__SINK_PATH"]

def environment : IO Environment := do
  let found ← variableNames.filterMapM fun name => do
    let value ← IO.getEnv name
    return value.map fun v => (name, v)
  return ⟨found⟩

def readBytes (path : String) : IO Bytes := do
  return (← IO.FS.readBinFile path).toList

/-- Carries out one step of a replacement below a directory. -/
def perform (base : String) : Files.Step → IO Unit
  | .makeDirectory p => IO.FS.createDirAll (Files.Path.text base p)
  | .create p => IO.FS.writeBinFile (Files.Path.text base p) .empty
  | .append p data => IO.FS.writeBinFile (Files.Path.text base p) ⟨data.toArray⟩
  | .sync _ => pure ()
  | .rename source target =>
      IO.FS.rename (Files.Path.text base source) (Files.Path.text base target)

def replace (base : String) (path : Files.Path) (data : Bytes) : IO Unit := do
  IO.FS.createDirAll base
  (Files.Tree.replaceSteps path data).forM (perform base)

def settings : IO Config := do
  let env ← environment
  try
    let b ← readBytes env.configPath
    match Config.load env (.ok b) with
    | .ok c => return c
    | .error _ =>
        IO.eprintln "failed to load config, using defaults"
        return .standard env
  catch _ =>
    match Config.load env (.error .notFound) with
    | .ok c => return c
    | .error _ => return .standard env

/-! ### Sending -/

/-- Milliseconds since the epoch. The calendar comes with the last of the imports. -/
def wallClock : IO UInt64 := do
  let now ← Std.Time.Timestamp.now
  return UInt64.ofNat now.toMillisecondsSinceUnixEpoch.toInt.toNat

def send (file hub : String) : IO UInt32 := do
  let config ← settings
  match Envelope.read? (← readBytes file) with
  | none =>
      IO.eprintln s!"failed to parse {file}"
      return 1
  | some e =>
      match config.fragmenter.fragment (.ofEnvelope e hub) (← wallClock) with
      | .error e =>
          IO.eprintln (e.message?.getD "compression failed")
          return 1
      | .ok fragments =>
          fragments.forM fun f => IO.println (Bytes.toHex f.toBytes)
          return 0

/-! ### Receiving -/

/-- Keeps a bundle; tells how that went. -/
def keep (config : Config) (policy : RetryPolicy) (c : Claim) : IO Verdict := do
  let stored : Sink.Stored :=
    ⟨c.envelope.version, c.envelope.dependencyVersion, c.position, c.envelope⟩
  try
    replace config.storage.sinkPath (Sink.place c.envelope.source c.envelope.bundleType)
      stored.encode
    return .succeeded
  catch _ => return .failed policy.maxAttempts

/-- Works until no ticket is left. -/
partial def drain (config : Config) (policy : RetryPolicy) (p : Pipeline) : IO Pipeline := do
  match p.pop? with
  | none => return p
  | some (t, p) =>
      match p.claim t.source t.bundleType with
      | (p, none) => drain config policy p
      | (p, some c) =>
          let verdict ← keep config policy c
          match p.finishRun t.source t.bundleType verdict with
          | (p, .retry attempt) =>
              IO.sleep (UInt32.ofNat (policy.backoffMillis attempt))
              drain config policy (p.endRest t.source t.bundleType).1
          | (p, _) => drain config policy p

/-- Reads datagrams to the end of the input. -/
partial def receive (config : Config) (policy : RetryPolicy) (input : IO.FS.Stream)
    (offset : UInt64) (p : Pipeline) : IO Pipeline := do
  let line ← input.getLine
  if line.isEmpty then return p
  else
    match Bytes.ofHex? line.trimAscii.toString with
    | none => receive config policy input offset p
    | some datagram =>
        let now ← IO.monoMsNow
        let position : Position := ⟨config.transport.topic, 0, offset⟩
        let p ← drain config policy (p.deliver now datagram position).1
        receive config policy input (offset + 1) p

/-! ### Offsets -/

/-- The directory that a path starts from, and the names on the way from there. -/
def splitPath (path : String) : String × Files.Path :=
  let names := (path.splitOn "/").filter (· ≠ "")
  (if path.startsWith "/" then "/" else ".", names)

/-- The tree below a directory as far as the file at a path goes: that file alone, if it is
there. -/
def lookAt (base : String) (path : Files.Path) : IO Files.Tree := do
  try
    let b ← readBytes (Files.Path.text base path)
    return (Files.Tree.empty.replace path b).1
  catch
    | .noFileOrDirectory _ _ _ => return .empty
    | e => throw e

def openOffsets (t : Files.Tree) (path : Files.Path) : IO OffsetStore :=
  match OffsetStore.open? t path with
  | .ok store => return store
  | .error e => throw (IO.userError e.message)

/-- What the store writes to the tree is written below the directory. -/
def commit (base : String) (t : Files.Tree) (store : OffsetStore) (p : Pipeline) : IO Unit :=
  match p.commit? with
  | none => IO.eprintln "nothing can be committed"
  | some positions => do
      if Committer.fresh.due positions then
        match store.advance t positions none with
        | (_, _, .error e) => IO.eprintln e.message
        | (_, store, .ok moved) =>
            if moved ≠ 0 then replace base store.path store.encode

def serve : IO UInt32 := do
  let config ← settings
  match Registry.empty.registerAll Registry.standard with
  | (_, some e) =>
      IO.eprintln e.message
      return 1
  | (registry, none) =>
      let (base, path) := splitPath config.transport.offsetsPath
      let t ← lookAt base path
      let store ← openOffsets t path
      let first := (store.get? ⟨config.transport.topic, 0⟩).getD 0
      let assembler := Assembler.fresh (1000 * config.assembler.ttlSecs) config.assembler.remembered
      let p := Pipeline.fresh (hubHash config.transport.hubName) assembler registry
      let p ← receive config config.retryPolicy (← IO.getStdin) first p
      commit base t store p
      return 0

def usage : String := "usage: conflux send <envelope.json> [hub]"

def run : List String → IO UInt32
  | "send" :: file :: rest => send file (rest.headD "")
  | ["send"] => do
      IO.eprintln usage
      return 1
  | _ => serve

end Conflux.Main

def main (args : List String) : IO UInt32 := Conflux.Main.run args
