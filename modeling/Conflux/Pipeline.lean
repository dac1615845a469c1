import Conflux.Aggregator
import Conflux.Assembler
import Conflux.Commit
import Conflux.Counters

/-!
The pipeline of one hub: datagrams go to the assembler, the messages that come out
are opened, and the bundles found in them go to the aggregator. A message that
leaves the assembler is in the aggregator, or nowhere, before anything else happens,
so at no time is content hidden from a commit.
-/

namespace Conflux

structure Pipeline where
  /-- The hub that the datagrams have to be addressed to, or any. -/
  hub : Digest
  assembler : Assembler
  aggregator : Aggregator
  counters : Counters
deriving Repr

namespace Pipeline

def fresh (hub : Digest) (assembler : Assembler) (registry : Registry) : Pipeline :=
  ⟨hub, assembler, .fresh registry, .zero⟩

def count (p : Pipeline) (f : Counters → Counters) : Pipeline :=
  { p with counters := f p.counters }

def statistics (p : Pipeline) : List (String × UInt64) := p.counters.toList p.assembler.expired

/-! ### On the way in -/

/-- A bundle comes in whose content reaches from `position` to `lastOffset`. -/
def insert (p : Pipeline) (e : Envelope) (position : Position) (lastOffset : UInt64) :
    Pipeline × Admission :=
  let (aggregator, insertion) := p.aggregator.insert e position lastOffset
  ({ p with aggregator, counters := p.counters.insert insertion }, insertion.admission)

/-- Without a name a hub takes what is addressed to any other one, too. -/
def takes (p : Pipeline) (h : Header) : Bool := p.hub == anyDestination || h.isFor p.hub

/-- The bundle in a message, if the message can be opened and its key names the
source of the bundle. -/
def bundle? (m : Message) : Option Envelope :=
  match m.open? with
  | .ok e => if m.source? = some e.source then some e else none
  | .error _ => none

/-- A whole message goes on to the leaf it is for. -/
def receive (p : Pipeline) (whole : Assembled) : Pipeline × Option Admission :=
  let p := p.count .assembleMessage
  match bundle? whole.message with
  | none => (p.count .refuseEnvelope, none)
  | some e =>
      let (p, admission) := p.insert e whole.position whole.lastOffset
      (p, some admission)

/-- Takes a datagram at the tick `now`. There is an answer if it brought a bundle. -/
def deliver [Compression] (p : Pipeline) (now : Nat) (datagram : Bytes) (position : Position) :
    Pipeline × Option Admission :=
  let p := p.count .receiveFragment
  match Fragment.ofBytes datagram with
  | .error _ => (p.count .dropFragment, none)
  | .ok f =>
      if p.takes f.header then
        let (assembler, result) := p.assembler.add now f position
        let p := { p with assembler }
        match result with
        | .ok none => (p, none)
        | .ok (some whole) => p.receive whole
        | .error e =>
            (p.count (if e.isBenign then .dropFragment else .failAssembly), none)
      else (p.count .dropFragment, none)

/-- Drops the messages that stayed incomplete for too long. -/
def evict (p : Pipeline) (now : Nat) : Pipeline := { p with assembler := p.assembler.evict now }

/-! ### At the workers -/

def pop? (p : Pipeline) : Option (Ticket × Pipeline) :=
  p.aggregator.pop?.map fun q => (q.1, { p with aggregator := q.2 })

def claim (p : Pipeline) (source bundleType : String) : Pipeline × Option Claim :=
  let (aggregator, c) := p.aggregator.claim source bundleType
  ({ p with aggregator }, c)

def complete (p : Pipeline) (source bundleType : String) (verdict : Verdict) :
    Pipeline × Completion :=
  let (aggregator, c) := p.aggregator.complete source bundleType verdict
  ({ p with aggregator }, c)

/-- Completes a run and counts it. -/
def finishRun (p : Pipeline) (source bundleType : String) (verdict : Verdict) :
    Pipeline × Completion :=
  let (p, c) := p.complete source bundleType verdict
  (p.count (·.complete verdict c), c)

def endRest (p : Pipeline) (source bundleType : String) : Pipeline × Bool :=
  let (aggregator, woken) := p.aggregator.endRest source bundleType
  ({ p with aggregator }, woken)

/-! ### Resumption -/

def checkpoints (p : Pipeline) : List Checkpoint := p.aggregator.checkpoints

def openPositions (p : Pipeline) : List Position := p.assembler.openPositions

/-- The positions to commit now. -/
def commit? (p : Pipeline) : Option (List Position) :=
  Commit.positions? p.checkpoints p.openPositions

end Pipeline

end Conflux
