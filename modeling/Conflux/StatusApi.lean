import Conflux.Pipeline

/-!
The state of a pipeline as it is read from outside: three documents that can be
asked for by path. A path is known without its query, and a known path is only for
reading.
-/

namespace Conflux.StatusApi

structure Response where
  status : Nat
  body : Option Json
deriving Repr

/-- What can be asked for. -/
inductive Topic where
  | status
  | metadata
  | registrations
deriving DecidableEq, Repr

def Topic.ofPath? (path : String) : Option Topic :=
  if path = "/api/status" then some .status
  else if path = "/api/metadata" then some .metadata
  else if path = "/api/registrations" then some .registrations
  else none

/-! ### Documents -/

def number (n : Nat) : Json := .int n

def status (p : Pipeline) : Json :=
  .object [("sources", number p.aggregator.sources),
    ("ready_queue", number p.aggregator.queue.size),
    ("open_assemblies", number p.assembler.inProgress),
    ("stats", .object (p.statistics.map fun c => (c.1, number c.2.toNat)))]

def checkpoint (c : Checkpoint) : Json :=
  .object [("source", .string c.source), ("bundle_type", .string c.bundleType),
    ("position", c.position.toJson), ("version", .string c.version.text),
    ("processed", .bool c.processed)]

/-- By source, then by type, then by position. -/
def inOrder (a b : Checkpoint) : Bool :=
  if a.source ≠ b.source then decide (a.source < b.source)
  else if a.bundleType ≠ b.bundleType then decide (a.bundleType < b.bundleType)
  else decide (a.position ≤ b.position)

/-- All checkpoints, and the positions that a commit would take now. -/
def metadata? (p : Pipeline) : Option Json :=
  let entries := p.checkpoints.mergeSort inOrder
  (Commit.positions? entries p.openPositions).map fun positions =>
    .object [("entries", .array (entries.map checkpoint)),
      ("commit", .array (positions.map (·.toJson)))]

def registration (x : Registration) : Json :=
  .object ([("bundle_type", .string x.bundleType), ("priority", number x.priority),
    ("depends_on", match x.dependsOn with
      | some d => .string d
      | none => .null)] ++
    match x.mode with
    | .complete => [("sync_mode", .string "complete")]
    | .delta none => [("sync_mode", .string "delta")]
    | .delta (some key) => [("sync_mode", .string "delta"), ("key_field", .string key)])

/-- By priority, then by name. -/
def servedBefore (a b : Registration) : Bool :=
  if a.priority ≠ b.priority then decide (a.priority < b.priority)
  else decide (a.bundleType ≤ b.bundleType)

def registrations (p : Pipeline) : Json :=
  .array ((p.aggregator.registry.all.mergeSort servedBefore).map registration)

/-! ### Requests -/

def document? (p : Pipeline) : Topic → Option Json
  | .status => some (status p)
  | .metadata => metadata? p
  | .registrations => some (registrations p)

/-- A path without its query. -/
def withoutQuery (path : String) : String :=
  String.ofList (path.toList.takeWhile fun c => c ≠ '?' ∧ c ≠ '#')

/-- Answers a request. There is no answer if the positions to commit are asked for and
cannot be told. -/
def respond? (p : Pipeline) (method path : String) : Option Response :=
  if method = "OPTIONS" then some ⟨200, none⟩
  else
    match Topic.ofPath? (withoutQuery path) with
    | none => some ⟨404, none⟩
    | some topic =>
        if method = "GET" then (document? p topic).map fun body => ⟨200, some body⟩
        else if method = "HEAD" then (document? p topic).map fun _ => ⟨200, none⟩
        else some ⟨405, none⟩

end Conflux.StatusApi
