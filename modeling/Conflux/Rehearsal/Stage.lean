import Conflux.Committer
import Conflux.Rehearsal.Event
import Conflux.Rehearsal.Feed
import Conflux.Retry

/-!
A rehearsal runs a hub with scripted handlers on a clock of its own, one task at a
time. Within a millisecond the receiver goes first and takes all datagrams that wait;
then come the committer, the sweeper, the handlers whose time is over, the slots whose
rest is over, and at last the workers. Tasks that are ready run in the order in which
they became so. A worker takes one ticket at a time and has it until its handler ends.
-/

namespace Conflux.Rehearsal

/-- A handler at work. -/
structure Job where
  source : String
  bundleType : String
  endsAt : Nat
deriving DecidableEq, Repr

/-- A slot at rest after a failure. -/
structure Rest where
  source : String
  bundleType : String
  endsAt : Nat
deriving DecidableEq, Repr

/-- Something that is ready to run. -/
inductive Task where
  /-- A worker looks for a ticket. -/
  | seek
  /-- A handler begins on what the ticket was redeemed for. -/
  | start (ticket : Ticket) (claim : Claim)
  /-- A worker hears how its handler ended. -/
  | report (source bundleType : String) (ending : Ending)
  /-- A rest is over. -/
  | wake (source bundleType : String)
deriving Repr

/-- Something that is done again and again. -/
structure Routine where
  everyMillis : Nat
  dueAt : Nat
deriving DecidableEq, Repr

namespace Routine

def fresh (everyMillis : Nat) : Routine := ⟨everyMillis, 0⟩

def isDue (r : Routine) (now : Nat) : Bool := decide (r.dueAt ≤ now)

def next (r : Routine) (now : Nat) : Routine := { r with dueAt := now + max r.everyMillis 1 }

end Routine

structure Stage where
  pipeline : Pipeline
  retry : RetryPolicy
  script : Table String Part
  feed : Feed
  /-- The millisecond on the clock. -/
  now : Nat
  /-- The tick for the assembler; no two of its operations share one. -/
  tick : Nat
  /-- When the receiver reads again after a failed read. -/
  receiverAwakeAt : Nat
  receiverDone : Bool
  commits : Option Routine
  /-- What the committer in the background remembers. -/
  committer : Committer
  sweeps : Option Routine
  /-- How many workers wait for a ticket. -/
  idle : Nat
  /-- The tasks that are ready, the first one first. -/
  agenda : List Task
  jobs : List Job
  rests : List Rest
  /-- Workers take no more tickets. -/
  closing : Bool
  log : List Entry
deriving Repr

namespace Stage

/-- A hub before anything has run; all workers, one at least, are about to look for a
ticket. -/
def fresh (pipeline : Pipeline) (retry : RetryPolicy) (script : Table String Part) (feed : Feed)
    (workers : Nat) (commitMillis sweepMillis : Option Nat) : Stage :=
  { pipeline, retry, script, feed
    now := 0
    tick := 0
    receiverAwakeAt := 0
    receiverDone := false
    commits := commitMillis.map .fresh
    committer := .fresh
    sweeps := sweepMillis.map .fresh
    idle := 0
    agenda := List.replicate (max workers 1) .seek
    jobs := []
    rests := []
    closing := false
    log := [] }

def record (s : Stage) (e : Event) : Stage := { s with log := s.log ++ [⟨s.now, e⟩] }

def add (s : Stage) (t : Task) : Stage := { s with agenda := s.agenda ++ [t] }

/-- The pipeline has moved on. Every new ticket calls a worker that waits for one. -/
def update (s : Stage) (p : Pipeline) : Stage :=
  let tickets := p.aggregator.queue.size - s.pipeline.aggregator.queue.size
  let called := min tickets s.idle
  { s with
    pipeline := p
    idle := s.idle - called
    agenda := s.agenda ++ List.replicate called .seek }

/-! ### Tasks -/

def part (s : Stage) (bundleType : String) : Part := (s.script.get? bundleType).getD .standard

/-- A handler comes to its scripted end. -/
def endRun (s : Stage) (source bundleType : String) : Stage :=
  let (ending, rest) := (s.part bundleType).next
  let s := { s with script := s.script.put bundleType rest }
  (s.record (.ended source bundleType ending)).add (.report source bundleType ending)

/-- A handler begins, and ends at once if it takes no time. -/
def startRun (s : Stage) (k : Ticket) (c : Claim) : Stage :=
  let s := s.record (.started c)
  let millis := (s.part k.bundleType).millis
  if millis = 0 then s.endRun k.source k.bundleType
  else { s with jobs := s.jobs ++ [⟨k.source, k.bundleType, s.now + millis⟩] }

/-- A slot rests before its next try. -/
def lieDown (s : Stage) (source bundleType : String) (attempt : Nat) : Stage :=
  let millis := s.retry.backoffMillis attempt
  if millis = 0 then s.add (.wake source bundleType)
  else { s with rests := s.rests ++ [⟨source, bundleType, s.now + millis⟩] }

def verdict (s : Stage) : Ending → Verdict
  | .ok => .succeeded
  | .fail => .failed s.retry.maxAttempts
  | .panic => .failed s.retry.maxAttempts

/-- A worker looks for a ticket before anything else is done. -/
def seekNext (s : Stage) : Stage := { s with agenda := .seek :: s.agenda }

def perform (s : Stage) : Task → Stage
  | .seek =>
      if s.closing then s
      else
        match s.pipeline.pop? with
        | none => { s with idle := s.idle + 1 }
        | some (k, p) =>
            let (p, claim) := p.claim k.source k.bundleType
            let s := { s with pipeline := p }
            match claim with
            | some c => s.add (.start k c)
            | none => s.seekNext
  | .start k c => s.startRun k c
  | .report source bundleType ending =>
      let (p, completion) := s.pipeline.finishRun source bundleType (s.verdict ending)
      let s := s.update p
      let s := match completion with
        | .retry attempt => s.lieDown source bundleType attempt
        | _ => s
      s.seekNext
  | .wake source bundleType =>
      let (p, _) := s.pipeline.endRest source bundleType
      s.update p

/-- Runs the tasks that are ready, and those that become so, `fuel` of them at most. -/
def settleWithin : (fuel : Nat) → Stage → Stage
  | 0, s => s
  | fuel + 1, s =>
      match s.agenda with
      | [] => s
      | t :: ts => settleWithin fuel ({ s with agenda := ts }.perform t)

/-- A bound on the tasks of one millisecond: each slot has its attempts, and each
attempt is a handful of tasks. -/
def taskBound (s : Stage) : Nat :=
  let slots := s.pipeline.aggregator.leaves.values.foldl (fun n l => n + l.slots.size) 0
  8 * (slots + s.agenda.length + s.pipeline.aggregator.queue.size + 1) * (s.retry.maxAttempts + 2)

def settle (s : Stage) : Stage := s.settleWithin s.taskBound

/-! ### Turns -/

variable [Compression]

/-- Takes all datagrams that wait. -/
def receiveAll (s : Stage) : Stage :=
  s.feed.waiting.foldl
    (fun s d =>
      let tick := s.tick + 1
      { s with tick }.update (s.pipeline.deliver tick d.1 d.2).1)
    { s with feed := { s.feed with waiting := [] } }

/-- How long the receiver waits after a failed read. -/
def receiverPause : Nat := 100

def receiverTurn (s : Stage) : Stage :=
  if s.receiverDone || s.closing || s.now < s.receiverAwakeAt then s
  else if 0 < s.feed.failingReads then
    { s with
      feed := { s.feed with failingReads := s.feed.failingReads - 1 }
      receiverAwakeAt := s.now + receiverPause }
  else
    let s := s.receiveAll
    if s.feed.isDrained then { s with receiverDone := true } else s

/-- A committer commits what is due. There is no answer if the positions cannot be
told. -/
def commit? (s : Stage) (c : Committer) : Option (Stage × Committer) :=
  s.pipeline.commit?.map fun positions =>
    if c.due positions then
      let (feed, succeeded) := s.feed.commit positions
      let s := { s with feed }
      if succeeded then (s.record (.committed positions), c.done positions)
      else (s.record (.commitFailed positions), c)
    else (s, c)

/-- The committer in the background commits. -/
def commitInBackground (s : Stage) : Stage :=
  match s.commit? s.committer with
  | some (s, committer) => { s with committer }
  | none => s

def commitTurn (s : Stage) : Stage :=
  match s.commits with
  | some r =>
      if r.isDue s.now then { s.commitInBackground with commits := some (r.next s.now) } else s
  | none => s

def sweepTurn (s : Stage) : Stage :=
  match s.sweeps with
  | some r =>
      if r.isDue s.now && !s.closing then
        let tick := s.tick + 1
        { s with tick, pipeline := s.pipeline.evict tick, sweeps := some (r.next s.now) }
      else s
  | none => s

def jobsTurn (s : Stage) : Stage :=
  (s.jobs.filter fun j => j.endsAt ≤ s.now).foldl (fun s j => s.endRun j.source j.bundleType)
    { s with jobs := s.jobs.filter fun j => s.now < j.endsAt }

def restsTurn (s : Stage) : Stage :=
  (s.rests.filter fun r => r.endsAt ≤ s.now).foldl (fun s r => s.add (.wake r.source r.bundleType))
    { s with rests := s.rests.filter fun r => s.now < r.endsAt }

/-- All that happens within this millisecond. -/
def moment (s : Stage) : Stage :=
  s.receiverTurn.commitTurn.sweepTurn.jobsTurn.restsTurn.settle

/-! ### Steps -/

def elapse (s : Stage) : Stage := { s with now := s.now + 1 }.moment

def passMillis : Nat → Stage → Stage
  | 0, s => s
  | n + 1, s => passMillis n s.elapse

/-- Lets time pass. -/
def run (s : Stage) (millis : Nat) : Stage := passMillis millis s.moment

/-- Lets time pass until no handler is at work. -/
def awaitJobs : Nat → Stage → Stage
  | 0, s => s
  | n + 1, s => if s.jobs.isEmpty then s else awaitJobs n s.elapse

/-- How long it takes until all handlers that are at work have ended. -/
def remaining (s : Stage) : Nat := s.jobs.foldl (fun n j => max n (j.endsAt - s.now)) 0

/-- Shuts the hub down: the handlers at work come to their end, and after that the
committer in the background has a last turn. -/
def finish (s : Stage) : Stage :=
  let s := { s with closing := true }.settle
  let s := awaitJobs s.remaining s
  if s.commits.isSome then s.commitInBackground else s

/-- A datagram is written to the feed, if the feed is open. -/
def send? (s : Stage) (datagram : Bytes) : Option (Position × Stage) :=
  s.feed.send? datagram |>.map fun p => (p.1, { s with feed := p.2 })

def close (s : Stage) : Stage := { s with feed := s.feed.close }

end Stage

end Conflux.Rehearsal
