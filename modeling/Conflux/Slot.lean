import Conflux.Position
import Conflux.SyncMode

/-!
A slot holds the bundles of one type from one source: at most one that waits, behind
at most one that is being worked on. A newer bundle joins the one that waits, and a
failed one goes back beneath it.
-/

namespace Conflux

/-- A bundle that waits. -/
structure Buffered where
  envelope : Envelope
  /-- The earliest position whose content went into the bundle. -/
  position : Position
  /-- The last offset of that content. -/
  lastOffset : UInt64
  /-- How often a part of the content has failed. -/
  attempts : Nat
deriving Repr

/-- A bundle that a worker has. -/
structure Running where
  envelope : Envelope
  position : Position
  lastOffset : UInt64
  /-- One on the first try, one more on each further one. -/
  attempt : Nat
deriving Repr

namespace Running

/-- Where the content ends. -/
def finish (r : Running) : Position := { r.position with offset := r.lastOffset }

/-- The bundle as it waits for another try. -/
def again (r : Running) : Buffered := ⟨r.envelope, r.position, r.lastOffset, r.attempt⟩

end Running

namespace Buffered

def start (b : Buffered) : Running := ⟨b.envelope, b.position, b.lastOffset, b.attempts + 1⟩

/-- What waits after `e` has come from the given place. A delta keeps the place and
the failures of what it joins. -/
def join (mode : SyncMode) (b : Buffered) (e : Envelope) (position : Position)
    (lastOffset : UInt64) : Buffered :=
  { envelope := mode.merge b.envelope e
    position := if mode.isDelta then b.position.earlier position else position
    lastOffset := max b.lastOffset lastOffset
    attempts := if mode.isDelta then b.attempts else 0 }

/-- What waits after a failed delta has gone back beneath the newer `b`. -/
def beneath (mode : SyncMode) (b : Buffered) (failed : Running) : Buffered :=
  { envelope := mode.merge failed.envelope b.envelope
    position := failed.position.earlier b.position
    lastOffset := max failed.lastOffset b.lastOffset
    attempts := max failed.attempt b.attempts }

end Buffered

/-- How a worker's run ended. -/
inductive Verdict where
  | succeeded
  /-- The run failed, and a bundle has so many attempts in all. -/
  | failed (maxAttempts : Nat)
deriving DecidableEq, Repr

/-- What became of a finished bundle. -/
inductive Completion where
  | processed
  /-- It waits for another try, after a delay. -/
  | retry (attempt : Nat)
  /-- A newer complete bundle stands for it. -/
  | superseded
  /-- It had its last attempt. -/
  | dropped (version : Version) (attempts : Nat)
  | notInFlight
deriving DecidableEq, Repr

structure Slot where
  buffered : Option Buffered
  running : Option Running
  /-- A ticket for the slot is on its way to a worker. -/
  queued : Bool
  /-- The slot rests after a failure, until it is woken. -/
  resting : Bool
  lastProcessed : Option Version
  /-- The end and the version of the last bundle that left the slot. -/
  settled : Option (Position × Version)
deriving Repr

namespace Slot

def empty : Slot := ⟨none, none, false, false, none, none⟩

instance : Inhabited Slot := ⟨empty⟩

/-- The newest version that the slot has seen and not lost. -/
def newest (s : Slot) : Option Version :=
  Version.maxOption
    (Version.maxOption (s.buffered.map (·.envelope.version)) (s.running.map (·.envelope.version)))
    s.lastProcessed

/-- A slot takes only what is newer than all it has. -/
def admits (s : Slot) (v : Version) : Bool :=
  match s.newest with
  | some newest => v.newerThan newest
  | none => true

/-- Lets `e` wait, joined with what waits already. -/
def buffer (s : Slot) (mode : SyncMode) (e : Envelope) (position : Position)
    (lastOffset : UInt64) : Slot :=
  { s with
    buffered := some <| match s.buffered with
      | some b => b.join mode e position lastOffset
      | none => ⟨e, position, lastOffset, 0⟩ }

/-- Neither at work, nor on its way there, nor at rest. -/
def idle (s : Slot) : Bool := s.running.isNone && !s.queued && !s.resting

/-- Hands the waiting bundle to a worker. -/
def start? (s : Slot) : Option (Running × Slot) :=
  if s.running.isSome || s.resting then none
  else s.buffered.map fun b =>
    (b.start, { s with buffered := none, running := some b.start })

/-- The bundle leaves the slot for good. -/
def settle (s : Slot) (r : Running) : Slot :=
  { s with settled := some (r.finish, r.envelope.version) }

/-- Takes a failed bundle back that may be tried again. -/
def takeBack (s : Slot) (mode : SyncMode) (failed : Running) : Slot × Completion :=
  match s.buffered with
  | none => ({ s with buffered := some failed.again, resting := true }, .retry failed.attempt)
  | some newer =>
      if mode.isDelta then
        ({ s with buffered := some (newer.beneath mode failed), resting := true },
          .retry failed.attempt)
      else (s, .superseded)

/-- Ends the run of the bundle at work. -/
def finish (s : Slot) (mode : SyncMode) (verdict : Verdict) : Slot × Completion :=
  match s.running with
  | none => (s, .notInFlight)
  | some done =>
      let s := { s with running := none }
      match verdict with
      | .succeeded =>
          ({ s.settle done with
              lastProcessed := Version.maxOption s.lastProcessed (some done.envelope.version) },
            .processed)
      | .failed maxAttempts =>
          if maxAttempts ≤ done.attempt then
            (s.settle done, .dropped done.envelope.version done.attempt)
          else s.takeBack mode done

end Slot

end Conflux
