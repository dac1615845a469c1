import Conflux.SyncMode
import Conflux.Table
import Conflux.Text.Quoted

/-!
The table of the bundle types that an aggregator accepts. A type names its
dependency when it is registered, and the dependency has to be there already, so no
type can come to depend on itself. Beside the registrations the registry keeps, for
every type, the list of those that depend on it.
-/

namespace Conflux

structure Registration where
  bundleType : String
  /-- Of two tickets the one with the lower number is served first. -/
  priority : Nat
  dependsOn : Option String
  mode : SyncMode
deriving DecidableEq, Repr

namespace Registration

def complete (bundleType : String) (priority : Nat) (dependsOn : Option String) : Registration :=
  ⟨bundleType, priority, dependsOn, .complete⟩

def optionText : Option String → String
  | none => "None"
  | some s => "Some(" ++ Text.quoted s ++ ")"

def modeText : SyncMode → String
  | .complete => "Complete"
  | .delta key? => "Delta \x7b key_field: " ++ optionText key? ++ " \x7d"

/-- One line that shows everything there is to know about a registration. -/
def describe (r : Registration) : String :=
  "Registration \x7b bundle_type: " ++ Text.quoted r.bundleType ++
    ", priority: " ++ Decimal.write r.priority ++
    ", depends_on: " ++ optionText r.dependsOn ++
    ", sync_mode: " ++ modeText r.mode ++ ", .. \x7d"

end Registration

/-- Why a registration is refused. -/
inductive RegistrationError where
  | duplicate (bundleType : String)
  | unknownDependency (bundleType dependency : String)
  | selfDependency (bundleType : String)
deriving DecidableEq, Repr

def RegistrationError.message : RegistrationError → String
  | duplicate t => "bundle type " ++ Text.quoted t ++ " is already registered"
  | unknownDependency t d =>
      "bundle type " ++ Text.quoted t ++ " depends on unregistered " ++ Text.quoted d
  | selfDependency t => "bundle type " ++ Text.quoted t ++ " cannot depend on itself"

structure Registry where
  registrations : Table String Registration
  /-- For a dependency, the types that wait for it. -/
  waiters : Table String (List String)
deriving DecidableEq, Repr

namespace Registry

def empty : Registry := ⟨.empty, .empty⟩

instance : Inhabited Registry := ⟨empty⟩

def get? (r : Registry) (bundleType : String) : Option Registration :=
  r.registrations.get? bundleType

/-- The types that depend on `bundleType`, in the order of their registration. -/
def dependents (r : Registry) (bundleType : String) : List String :=
  (r.waiters.get? bundleType).getD []

def size (r : Registry) : Nat := r.registrations.size

def isEmpty (r : Registry) : Bool := r.size == 0

def types (r : Registry) : List String := r.registrations.keys

def all (r : Registry) : List Registration := r.registrations.values

/-- The registry with one more type that waits for `dependency`. -/
def addWaiter (r : Registry) (dependency bundleType : String) : Registry :=
  { r with waiters := r.waiters.put dependency (r.dependents dependency ++ [bundleType]) }

def register (r : Registry) (x : Registration) : Except RegistrationError Registry :=
  if r.registrations.contains x.bundleType then .error (.duplicate x.bundleType)
  else
    match x.dependsOn with
    | none => .ok { r with registrations := r.registrations.put x.bundleType x }
    | some d =>
        if d = x.bundleType then .error (.selfDependency x.bundleType)
        else if r.registrations.contains d then
          let r := r.addWaiter d x.bundleType
          .ok { r with registrations := r.registrations.put x.bundleType x }
        else .error (.unknownDependency x.bundleType d)

/-! ### The standard table -/

/-- The complete bundle types with their priorities and dependencies. -/
def standardComplete : List Registration :=
  [.complete "ControlInfo" 0 none,
    .complete "ManagedClusters" 1 none,
    .complete "Policies" 2 none,
    .complete "ClustersPerPolicy" 3 none,
    .complete "CompleteCompliance" 4 (some "ClustersPerPolicy"),
    .complete "MinimalCompliance" 6 none,
    .complete "Placements" 7 none,
    .complete "PlacementRules" 7 none,
    .complete "PlacementDecisions" 8 none,
    .complete "SubscriptionStatuses" 9 none,
    .complete "LocalPolicies" 10 none]

/-- Compliance changes of single clusters, applied on top of the last complete
bundle. -/
def standardDelta : Registration :=
  ⟨"DeltaCompliance", 5, some "CompleteCompliance", .delta (some "cluster")⟩

def standard : List Registration := standardComplete ++ [standardDelta]

/-- Registers one after the other up to the first that is refused. What came before
the refusal stays registered. -/
def registerAll (r : Registry) : List Registration → Registry × Option RegistrationError
  | [] => (r, none)
  | x :: xs =>
      match r.register x with
      | .ok r => r.registerAll xs
      | .error e => (r, some e)

end Registry

end Conflux
