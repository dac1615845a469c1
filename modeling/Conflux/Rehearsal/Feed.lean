import Conflux.Position

/-!
The feed of a rehearsal: a log of one partition that datagrams are written to and
read from in order. It can be told to fail a number of times, when it is read or when
positions are committed to it.
-/

namespace Conflux.Rehearsal

structure Feed where
  topic : String
  nextOffset : UInt64
  waiting : List (Bytes × Position)
  closed : Bool
  /-- How many reads are still to fail. -/
  failingReads : Nat
  /-- How many commits are still to fail. -/
  failingCommits : Nat
  /-- What was committed last. -/
  committed : List Position
deriving Repr

namespace Feed

def fresh (topic : String) (failingReads failingCommits : Nat) : Feed :=
  ⟨topic, 0, [], false, failingReads, failingCommits, []⟩

/-- Writes a datagram behind all others, unless the feed is closed. -/
def send? (f : Feed) (datagram : Bytes) : Option (Position × Feed) :=
  if f.closed then none
  else
    let p : Position := ⟨f.topic, 0, f.nextOffset⟩
    some (p, { f with
      nextOffset := f.nextOffset + 1
      waiting := f.waiting ++ [(datagram, p)] })

def close (f : Feed) : Feed := { f with closed := true }

/-- Nothing comes any more. -/
def isDrained (f : Feed) : Bool := f.closed && f.waiting.isEmpty

/-- Commits positions; tells whether that succeeded. -/
def commit (f : Feed) (positions : List Position) : Feed × Bool :=
  if f.failingCommits = 0 then ({ f with committed := positions }, true)
  else ({ f with failingCommits := f.failingCommits - 1 }, false)

end Feed

end Conflux.Rehearsal
