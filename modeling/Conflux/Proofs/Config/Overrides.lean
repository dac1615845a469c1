import Conflux.Config.Loading

/-!
The settings one by one, and what the environment has to say about each of them. A variable that is
set counts if its text has the form that its setting asks for, and otherwise it is as if it were not
set. So the settings that are overridden do not depend on those that they were made of, and the
others do on nothing else.
-/

namespace Conflux.Config

inductive Setting where
  | bindAddress | topic | hubName | maxFragmentBytes | encoding | offsetsPath
  | workers | commitIntervalSecs | retryMaxAttempts | retryInitialBackoffMillis
  | retryMaxBackoffMillis
  | ttlSecs | sweepIntervalSecs | remembered
  | apiEnabled | apiPort
  | sinkPath
deriving DecidableEq

inductive Value where
  | text (s : String)
  | natural (n : Nat)
  | flag (b : Bool)
  | encoding (e : Encoding)
deriving DecidableEq

def get (c : Config) : Setting → Value
  | .bindAddress => .text c.transport.bindAddress
  | .topic => .text c.transport.topic
  | .hubName => .text c.transport.hubName
  | .maxFragmentBytes => .natural c.transport.maxFragmentBytes
  | .encoding => .encoding c.transport.encoding
  | .offsetsPath => .text c.transport.offsetsPath
  | .workers => .natural c.conflation.workers
  | .commitIntervalSecs => .natural c.conflation.commitIntervalSecs
  | .retryMaxAttempts => .natural c.conflation.retryMaxAttempts
  | .retryInitialBackoffMillis => .natural c.conflation.retryInitialBackoffMillis
  | .retryMaxBackoffMillis => .natural c.conflation.retryMaxBackoffMillis
  | .ttlSecs => .natural c.assembler.ttlSecs
  | .sweepIntervalSecs => .natural c.assembler.sweepIntervalSecs
  | .remembered => .natural c.assembler.remembered
  | .apiEnabled => .flag c.api.enabled
  | .apiPort => .natural c.api.port
  | .sinkPath => .text c.storage.sinkPath

theorem eq_of_get {c c' : Config} (h : ∀ s, c.get s = c'.get s) : c = c' := by
  obtain ⟨⟨_, _, _, _, _, _⟩, ⟨_, _, _, _, _⟩, ⟨_, _, _⟩, ⟨_, _⟩, ⟨_⟩⟩ := c
  obtain ⟨⟨_, _, _, _, _, _⟩, ⟨_, _, _, _, _⟩, ⟨_, _, _⟩, ⟨_, _⟩, ⟨_⟩⟩ := c'
  cases h .bindAddress; cases h .topic; cases h .hubName; cases h .maxFragmentBytes
  cases h .encoding; cases h .offsetsPath
  cases h .workers; cases h .commitIntervalSecs; cases h .retryMaxAttempts
  cases h .retryInitialBackoffMillis; cases h .retryMaxBackoffMillis
  cases h .ttlSecs; cases h .sweepIntervalSecs; cases h .remembered
  cases h .apiEnabled; cases h .apiPort
  cases h .sinkPath
  rfl

/-! ### What the environment says -/

inductive Form where
  | text
  | natural (bound : Nat)
  | flag

def Form.read? : Form → String → Option Value
  | text, s => some (.text s)
  | natural bound, s => (Decimal.read? bound s.toList).map .natural
  | flag, s => some (.flag (s == "true" || s == "1"))

def Setting.variable? : Setting → Option (String × Form)
  | bindAddress => some ("HUBSTAT_TRANSPORT__BIND_ADDR", .text)
  | topic => some ("HUBSTAT_TRANSPORT__TOPIC", .text)
  | hubName => some ("HUBSTAT_TRANSPORT__HUB_NAME", .text)
  | maxFragmentBytes =>
      some ("HUBSTAT_TRANSPORT__MAX_FRAGMENT_BYTES", .natural Decimal.maxUInt64)
  | offsetsPath => some ("HUBSTAT_TRANSPORT__OFFSETS_PATH", .text)
  | workers => some ("HUBSTAT_CONFLATION__WORKERS", .natural Decimal.maxUInt64)
  | commitIntervalSecs =>
      some ("HUBSTAT_CONFLATION__COMMIT_INTERVAL_SECS", .natural Decimal.maxUInt64)
  | retryMaxAttempts =>
      some ("HUBSTAT_CONFLATION__RETRY_MAX_ATTEMPTS", .natural Decimal.maxUInt32)
  | ttlSecs => some ("HUBSTAT_ASSEMBLER__TTL_SECS", .natural Decimal.maxUInt64)
  | apiEnabled => some ("HUBSTAT_API__ENABLED", .flag)
  | apiPort => some ("HUBSTAT_API__PORT", .natural Decimal.maxUInt16)
  | sinkPath => some ("HUBSTAT_STORAGE__SINK_PATH", .text)
  | encoding | retryInitialBackoffMillis | retryMaxBackoffMillis | sweepIntervalSecs
  | remembered => none

/-- What the environment says instead of a setting, if it does so in the form asked for. -/
def override? (env : Environment) (s : Setting) : Option Value :=
  s.variable?.bind fun v => (env.get? v.1).bind v.2.read?

section

variable (env : Environment) (name : String)

theorem text_override (old : String) :
    Value.text (override env name old) =
      ((env.get? name).bind Form.text.read?).getD (.text old) := by
  rw [override]
  cases env.get? name <;> rfl

theorem natural_overrideNatural (bound old : Nat) :
    Value.natural (overrideNatural env name bound old) =
      ((env.get? name).bind (Form.natural bound).read?).getD (.natural old) := by
  rw [overrideNatural]
  cases env.get? name with
  | none => rfl
  | some s =>
      rw [Option.bind_some, Option.bind_some, Form.read?]
      cases Decimal.read? bound s.toList <;> rfl

theorem flag_overrideFlag (old : Bool) :
    Value.flag (overrideFlag env name old) =
      ((env.get? name).bind Form.flag.read?).getD (.flag old) := by
  rw [overrideFlag]
  cases env.get? name <;> rfl

end

/-- A setting is what the environment says, and what it was where the environment says nothing that
counts. -/
theorem get_withOverrides (env : Environment) (c : Config) (s : Setting) :
    (c.withOverrides env).get s = (override? env s).getD (c.get s) := by
  cases s with
  | bindAddress | topic | hubName | offsetsPath | sinkPath => exact text_override env _ _
  | maxFragmentBytes | workers | commitIntervalSecs | retryMaxAttempts | ttlSecs | apiPort =>
      exact natural_overrideNatural env _ _ _
  | apiEnabled => exact flag_overrideFlag env _ _
  | encoding | retryInitialBackoffMillis | retryMaxBackoffMillis | sweepIntervalSecs
  | remembered => rfl

/-! ### Settings that are overridden -/

/-- The settings differ only where the environment says what is meant. -/
def AgreeBeside (env : Environment) (c c' : Config) : Prop :=
  ∀ s, override? env s = none → c.get s = c'.get s

theorem AgreeBeside.withOverrides_eq {env : Environment} {c c' : Config}
    (h : AgreeBeside env c c') : c.withOverrides env = c'.withOverrides env := by
  refine eq_of_get fun s => ?_
  rw [get_withOverrides, get_withOverrides]
  cases hs : override? env s with
  | some v => rfl
  | none => exact h s hs

end Conflux.Config
