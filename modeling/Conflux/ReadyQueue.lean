/-!
The queue between the slots and the workers. Tickets leave by ascending priority,
and tickets of one priority leave in the order they came. The waiting tickets are
kept in the order they will leave, so a push finds its place from the front and a
pop takes the head.
-/

namespace Conflux

/-- One bundle type of one source that is ready to be worked on. -/
structure Ticket where
  source : String
  bundleType : String
  priority : Nat
deriving DecidableEq, Repr

structure ReadyQueue where
  waiting : List Ticket
deriving DecidableEq, Repr

namespace ReadyQueue

def empty : ReadyQueue := ⟨[]⟩

def size (q : ReadyQueue) : Nat := q.waiting.length

def isEmpty (q : ReadyQueue) : Bool := q.waiting.isEmpty

/-- Puts `t` behind every ticket whose priority is no larger. -/
def place (t : Ticket) : List Ticket → List Ticket
  | [] => [t]
  | u :: us => if t.priority < u.priority then t :: u :: us else u :: place t us

def push (q : ReadyQueue) (t : Ticket) : ReadyQueue := ⟨place t q.waiting⟩

def pushAll (q : ReadyQueue) (ts : List Ticket) : ReadyQueue := ts.foldl push q

def pop? (q : ReadyQueue) : Option (Ticket × ReadyQueue) :=
  match q.waiting with
  | [] => none
  | t :: ts => some (t, ⟨ts⟩)

end ReadyQueue

end Conflux
