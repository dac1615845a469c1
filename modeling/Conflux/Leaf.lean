import Conflux.ReadyQueue
import Conflux.Registry
import Conflux.Slot

/-!
A leaf is one source of bundles, seen from the aggregator: a slot for every bundle
type that has come from it. An operation on a leaf tells, beside its answer, which
tickets it writes for the ready queue. A slot gets a ticket when its bundle can run,
and that is looked at wherever it can change: when a bundle comes, when a run ends,
also for the types that depend on it, and when a rest is over.
-/

namespace Conflux

structure Leaf where
  source : String
  slots : Table String Slot
deriving Repr

/-- How a bundle was received. -/
inductive Admission where
  /-- A worker will see it: a ticket is on its way. -/
  | ready
  /-- It waits for a run to end, for a dependency or for a rest to be over. -/
  | buffered
  /-- It is no newer than what is there. -/
  | stale
  | unknownType
deriving DecidableEq, Repr

structure Insertion where
  admission : Admission
  /-- It joined a bundle that was waiting. -/
  conflated : Bool
deriving DecidableEq, Repr

/-- A bundle in the hands of a worker. -/
structure Claim where
  registration : Registration
  envelope : Envelope
  position : Position
  attempt : Nat
deriving Repr

/-- What is known about one bundle of a slot when work is resumed. -/
structure Checkpoint where
  source : String
  bundleType : String
  /-- The end of a bundle that has left its slot, the start of one that has not. -/
  position : Position
  version : Version
  processed : Bool
deriving DecidableEq, Repr

namespace Leaf

/-- What an operation does to a leaf, the tickets it writes, and its answer. -/
structure Effect (α : Type) where
  leaf : Leaf
  tickets : List Ticket
  answer : α
deriving Repr

def fresh (source : String) : Leaf := ⟨source, .empty⟩

def slot? (l : Leaf) (bundleType : String) : Option Slot := l.slots.get? bundleType

def putSlot (l : Leaf) (bundleType : String) (s : Slot) : Leaf :=
  { l with slots := l.slots.put bundleType s }

def lastProcessed (l : Leaf) (bundleType : String) : Option Version :=
  (l.slot? bundleType).bind (·.lastProcessed)

def isProcessing (l : Leaf) (bundleType : String) : Bool :=
  match l.slot? bundleType with
  | some s => s.running.isSome
  | none => false

/-- The dependency of `x`, if it has one, has been processed as far as `e` requires. -/
def satisfied (l : Leaf) (x : Registration) (e : Envelope) : Bool :=
  match x.dependsOn with
  | none => true
  | some d =>
      match l.lastProcessed d with
      | some v => decide (e.required ≤ v)
      | none => false

/-! ### Tickets -/

/-- The bundle of the slot waits, and nothing keeps it from running. -/
def runnable (l : Leaf) (x : Registration) (s : Slot) : Bool :=
  match s.buffered with
  | some b => s.idle && l.satisfied x b.envelope
  | none => false

def ticket (l : Leaf) (x : Registration) (bundleType : String) : Ticket :=
  ⟨l.source, bundleType, x.priority⟩

/-- Writes a ticket for a slot that can run and has none. -/
def wake (l : Leaf) (r : Registry) (bundleType : String) : Leaf × List Ticket :=
  match r.get? bundleType, l.slot? bundleType with
  | some x, some s =>
      if l.runnable x s then
        (l.putSlot bundleType { s with queued := true }, [l.ticket x bundleType])
      else (l, [])
  | _, _ => (l, [])

def wakeAll (l : Leaf) (r : Registry) : List String → Leaf × List Ticket
  | [] => (l, [])
  | t :: ts =>
      let (l, first) := l.wake r t
      let (l, rest) := l.wakeAll r ts
      (l, first ++ rest)

/-! ### Operations -/

/-- A bundle comes in whose content reaches from `position` to `lastOffset`. -/
def insert (l : Leaf) (r : Registry) (x : Registration) (e : Envelope) (position : Position)
    (lastOffset : UInt64) : Effect Insertion :=
  let s := (l.slot? x.bundleType).getD .empty
  if s.admits e.version then
    let buffered := l.putSlot x.bundleType (s.buffer x.mode e position lastOffset)
    let (woken, tickets) := buffered.wake r x.bundleType
    { leaf := woken
      tickets
      answer :=
        { admission := if s.queued || !tickets.isEmpty then .ready else .buffered
          conflated := s.buffered.isSome } }
  else ⟨l, [], ⟨.stale, false⟩⟩

/-- A ticket is redeemed. It may have gone bad: the bundle has to be there, and its
dependency has to be satisfied now. -/
def claim (l : Leaf) (r : Registry) (bundleType : String) : Leaf × Option Claim :=
  match r.get? bundleType, l.slot? bundleType with
  | some x, some s =>
      let satisfied := match s.buffered with
        | some b => l.satisfied x b.envelope
        | none => false
      let s := { s with queued := false }
      match (if satisfied then s.start? else none) with
      | some (run, s) =>
          (l.putSlot bundleType s, some ⟨x, run.envelope, run.position, run.attempt⟩)
      | none => (l.putSlot bundleType s, none)
  | _, _ => (l, none)

/-- A worker is done. -/
def complete (l : Leaf) (r : Registry) (bundleType : String) (verdict : Verdict) :
    Effect Completion :=
  match r.get? bundleType, l.slot? bundleType with
  | some x, some s =>
      let (s, completion) := s.finish x.mode verdict
      if completion = .notInFlight then ⟨l, [], .notInFlight⟩
      else
        let (woken, tickets) := (l.putSlot bundleType s).wakeAll r
          (bundleType :: if completion = .processed then r.dependents bundleType else [])
        ⟨woken, tickets, completion⟩
  | _, _ => ⟨l, [], .notInFlight⟩

/-- The rest after a failure is over. Tells whether the bundle goes to a worker. -/
def endRest (l : Leaf) (r : Registry) (bundleType : String) : Effect Bool :=
  match l.slot? bundleType with
  | some s =>
      let (woken, tickets) := (l.putSlot bundleType { s with resting := false }).wake r bundleType
      ⟨woken, tickets, !tickets.isEmpty⟩
  | none => ⟨l, [], false⟩

/-! ### Reports -/

/-- The bundle that left the slot last, then those that are in it. -/
def slotCheckpoints (source bundleType : String) (s : Slot) : List Checkpoint :=
  (s.settled.map fun p => ⟨source, bundleType, p.1, p.2, true⟩).toList ++
    (s.running.map fun r => ⟨source, bundleType, r.position, r.envelope.version, false⟩).toList ++
    (s.buffered.map fun b => ⟨source, bundleType, b.position, b.envelope.version, false⟩).toList

def checkpoints (l : Leaf) : List Checkpoint :=
  l.slots.entries.flatMap fun e => slotCheckpoints l.source e.1 e.2

def describe (l : Leaf) : String :=
  "ConflationUnit \x7b source: " ++ Text.quoted l.source ++
    ", slots: " ++ Decimal.write l.slots.size ++ " \x7d"

end Leaf

end Conflux
