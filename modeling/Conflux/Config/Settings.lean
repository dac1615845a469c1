import Conflux.Files.Path
import Conflux.Fragment
import Conflux.Retry

/-!
The settings of a hub, their defaults, and what the parts of the program take from
them. Where files are kept by default depends on the environment.
-/

namespace Conflux

/-- The variables that a program was started with. -/
structure Environment where
  entries : List (String × String)
deriving Repr

namespace Environment

/-- A variable with an empty value is there. -/
def get? (env : Environment) (name : String) : Option String := env.entries.lookup name

def home (env : Environment) : String := (env.get? "HOME").getD "/tmp"

def configDirectory (env : Environment) : String :=
  Files.Path.join
    ((env.get? "XDG_CONFIG_HOME").getD (Files.Path.join env.home ".config")) "hubstat"

def dataDirectory (env : Environment) : String :=
  Files.Path.join
    ((env.get? "XDG_DATA_HOME").getD
      (Files.Path.join (Files.Path.join env.home ".local") "share")) "hubstat"

/-- Where the settings are looked for. -/
def configPath (env : Environment) : String :=
  (env.get? "HUBSTAT_CONFIG").getD (Files.Path.join env.configDirectory "config.toml")

end Environment

namespace Config

structure Transport where
  bindAddress : String
  topic : String
  /-- Datagrams for another hub are dropped. -/
  hubName : String
  /-- The most that one fragment carries. -/
  maxFragmentBytes : Nat
  encoding : Encoding
  offsetsPath : String
deriving DecidableEq, Repr

structure Conflation where
  /-- No number means one worker for each processor. -/
  workers : Nat
  commitIntervalSecs : Nat
  retryMaxAttempts : Nat
  retryInitialBackoffMillis : Nat
  retryMaxBackoffMillis : Nat
deriving DecidableEq, Repr

structure Assembly where
  /-- Incomplete messages that are older expire. -/
  ttlSecs : Nat
  sweepIntervalSecs : Nat
  /-- How many completed messages are remembered. -/
  remembered : Nat
deriving DecidableEq, Repr

structure Api where
  enabled : Bool
  port : Nat
deriving DecidableEq, Repr

structure Storage where
  sinkPath : String
deriving DecidableEq, Repr

end Config

structure Config where
  transport : Config.Transport
  conflation : Config.Conflation
  assembler : Config.Assembly
  api : Config.Api
  storage : Config.Storage
deriving DecidableEq, Repr

namespace Config

/-! ### Defaults -/

def Transport.standard (env : Environment) : Transport :=
  { bindAddress := "0.0.0.0:9440"
    topic := "status"
    hubName := ""
    maxFragmentBytes := 60000
    encoding := .zstd
    offsetsPath := Files.Path.join env.dataDirectory "offsets.json" }

def Conflation.standard : Conflation :=
  { workers := 0
    commitIntervalSecs := 5
    retryMaxAttempts := 5
    retryInitialBackoffMillis := 200
    retryMaxBackoffMillis := 10000 }

def Assembly.standard : Assembly :=
  { ttlSecs := 120
    sweepIntervalSecs := 10
    remembered := 4096 }

def Api.standard : Api := ⟨true, 9441⟩

def Storage.standard (env : Environment) : Storage :=
  ⟨Files.Path.join env.dataDirectory "bundles"⟩

def standard (env : Environment) : Config :=
  { transport := .standard env
    conflation := .standard
    assembler := .standard
    api := .standard
    storage := .standard env }

/-! ### What the settings mean -/

/-- The wire can carry fragments of the size that is set. -/
def Valid (c : Config) : Prop :=
  1 ≤ c.transport.maxFragmentBytes ∧ c.transport.maxFragmentBytes ≤ Fragment.maxPayload

instance decidableValid (c : Config) : Decidable c.Valid := inferInstanceAs (Decidable (_ ∧ _))

/-- How many workers are asked for, if the number is set. -/
def workerCount? (c : Config) : Option Nat :=
  if c.conflation.workers = 0 then none else some c.conflation.workers

/-- There is at least a second between two commits. -/
def commitSecs (c : Config) : Nat := max c.conflation.commitIntervalSecs 1

/-- There is at least a second between two sweeps. -/
def sweepSecs (c : Config) : Nat := max c.assembler.sweepIntervalSecs 1

/-- A bundle has at least one attempt. -/
def retryPolicy (c : Config) : RetryPolicy :=
  { maxAttempts := max c.conflation.retryMaxAttempts 1
    initialMillis := c.conflation.retryInitialBackoffMillis
    maxMillis := c.conflation.retryMaxBackoffMillis }

def fragmenter (c : Config) : Fragmenter := ⟨c.transport.encoding, c.transport.maxFragmentBytes⟩

end Config

end Conflux
