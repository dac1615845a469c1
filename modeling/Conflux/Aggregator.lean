import Conflux.Leaf

/-!
The aggregator routes bundles to the leaves they come from and collects the tickets
of all leaves in one queue. A leaf comes to be with its first bundle of a registered
type.
-/

namespace Conflux

structure Aggregator where
  registry : Registry
  leaves : Table String Leaf
  queue : ReadyQueue
deriving Repr

namespace Aggregator

def fresh (registry : Registry) : Aggregator := ⟨registry, .empty, .empty⟩

def leaf? (a : Aggregator) (source : String) : Option Leaf := a.leaves.get? source

/-- How many sources there are. -/
def sources (a : Aggregator) : Nat := a.leaves.size

/-- Carries out what an operation does to the leaf of a source. -/
def apply {α : Type} (a : Aggregator) (source : String) (e : Leaf.Effect α) : Aggregator :=
  { a with leaves := a.leaves.put source e.leaf, queue := a.queue.pushAll e.tickets }

/-- A bundle comes in whose content reaches from `position` to `lastOffset`. -/
def insert (a : Aggregator) (e : Envelope) (position : Position) (lastOffset : UInt64) :
    Aggregator × Insertion :=
  match a.registry.get? e.bundleType with
  | none => (a, ⟨.unknownType, false⟩)
  | some x =>
      let l := (a.leaf? e.source).getD (.fresh e.source)
      let effect := l.insert a.registry x e position lastOffset
      (a.apply e.source effect, effect.answer)

def pop? (a : Aggregator) : Option (Ticket × Aggregator) :=
  a.queue.pop?.map fun p => (p.1, { a with queue := p.2 })

/-- Redeems a ticket. -/
def claim (a : Aggregator) (source bundleType : String) : Aggregator × Option Claim :=
  match a.leaf? source with
  | none => (a, none)
  | some l =>
      let (l, c) := l.claim a.registry bundleType
      ({ a with leaves := a.leaves.put source l }, c)

def complete (a : Aggregator) (source bundleType : String) (verdict : Verdict) :
    Aggregator × Completion :=
  match a.leaf? source with
  | none => (a, .notInFlight)
  | some l =>
      let effect := l.complete a.registry bundleType verdict
      (a.apply source effect, effect.answer)

def endRest (a : Aggregator) (source bundleType : String) : Aggregator × Bool :=
  match a.leaf? source with
  | none => (a, false)
  | some l =>
      let effect := l.endRest a.registry bundleType
      (a.apply source effect, effect.answer)

/-- What is known about the bundles of all sources. -/
def checkpoints (a : Aggregator) : List Checkpoint := a.leaves.values.flatMap (·.checkpoints)

end Aggregator

end Conflux
