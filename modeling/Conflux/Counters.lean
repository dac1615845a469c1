import Conflux.Leaf

/-!
What the pipeline counts: fragments and messages on the way in, bundles as the leaves
received them, and the runs of the workers. A count is how often a thing has happened;
what is told of it is a register of 64 bits, which starts again at zero after `2 ^ 64`
times and before that tells the count.
-/

namespace Conflux

structure Counters where
  fragmentsReceived : Nat
  fragmentsDropped : Nat
  messagesAssembled : Nat
  assembliesFailed : Nat
  envelopesInserted : Nat
  envelopesConflated : Nat
  envelopesStale : Nat
  envelopesMalformed : Nat
  unknownType : Nat
  bundlesProcessed : Nat
  handlerFailures : Nat
  /-- Bundles that had their last attempt. Each of them is lost. -/
  bundlesDropped : Nat
deriving DecidableEq, Repr, Inhabited

namespace Counters

def zero : Counters := ⟨0, 0, 0, 0, 0, 0, 0, 0, 0, 0, 0, 0⟩

def receiveFragment (c : Counters) : Counters :=
  { c with fragmentsReceived := c.fragmentsReceived + 1 }

def dropFragment (c : Counters) : Counters :=
  { c with fragmentsDropped := c.fragmentsDropped + 1 }

def assembleMessage (c : Counters) : Counters :=
  { c with messagesAssembled := c.messagesAssembled + 1 }

def failAssembly (c : Counters) : Counters :=
  { c with assembliesFailed := c.assembliesFailed + 1 }

def refuseEnvelope (c : Counters) : Counters :=
  { c with envelopesMalformed := c.envelopesMalformed + 1 }

/-- Counts a bundle by how it was received. -/
def insert (c : Counters) (i : Insertion) : Counters :=
  match i.admission with
  | .unknownType => { c with unknownType := c.unknownType + 1 }
  | .stale => { c with envelopesStale := c.envelopesStale + 1 }
  | _ =>
      { c with
        envelopesInserted := c.envelopesInserted + 1
        envelopesConflated := c.envelopesConflated + if i.conflated then 1 else 0 }

/-- Counts the run of a worker by how it ended and what became of the bundle. -/
def complete (c : Counters) (verdict : Verdict) (completion : Completion) : Counters :=
  { c with
    handlerFailures := c.handlerFailures + match verdict with
      | .succeeded => 0
      | .failed _ => 1
    bundlesProcessed := c.bundlesProcessed + match completion with
      | .processed => 1
      | _ => 0
    bundlesDropped := c.bundlesDropped + match completion with
      | .dropped _ _ => 1
      | _ => 0 }

/-- What a register shows of a count. -/
def register (n : Nat) : UInt64 := UInt64.ofNat n

theorem toNat_register {n : Nat} (h : n < UInt64.size) : (register n).toNat = n :=
  UInt64.toNat_ofNat_of_lt h

/-- All registers by name, with the number of messages that expired incomplete. -/
def toList (c : Counters) (expired : Nat) : List (String × UInt64) :=
  [("fragments_received", register c.fragmentsReceived),
    ("fragments_dropped", register c.fragmentsDropped),
    ("messages_assembled", register c.messagesAssembled),
    ("assemblies_failed", register c.assembliesFailed),
    ("assemblies_expired", register expired),
    ("envelopes_inserted", register c.envelopesInserted),
    ("envelopes_conflated", register c.envelopesConflated),
    ("envelopes_stale", register c.envelopesStale),
    ("envelopes_malformed", register c.envelopesMalformed),
    ("unknown_type", register c.unknownType),
    ("bundles_processed", register c.bundlesProcessed),
    ("handler_failures", register c.handlerFailures),
    ("bundles_dropped", register c.bundlesDropped)]

end Counters

end Conflux
