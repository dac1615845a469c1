import Conflux.Heap
import Conflux.ReadyQueue

/-!
The ready queue on a heap. Each ticket is numbered as it comes, from one counter for the whole
queue, so among tickets of one priority the number tells which came first. The heap takes its
greatest entry, so the order of its entries is turned round: the greatest is the one with the
smallest priority and, among those, the smallest number.
-/

namespace Conflux

structure NumberedTicket where
  priority : Nat
  number : UInt64
  ticket : Ticket
deriving Repr

namespace NumberedTicket

/-- By priority, then by number. The ticket itself takes no part. -/
def compare (x y : NumberedTicket) : Ordering :=
  (Ord.compare x.priority y.priority).then (Ord.compare x.number y.number)

/-- In the heap `x` is less than `y` when it comes after it. -/
def leavesAfter (x y : NumberedTicket) : Bool := y.compare x == .lt

end NumberedTicket

structure TicketHeap where
  heap : Heap NumberedTicket.leavesAfter
  next : UInt64

namespace TicketHeap

def empty : TicketHeap := ⟨.empty _, 0⟩

def size (q : TicketHeap) : Nat := q.heap.size

def isEmpty (q : TicketHeap) : Bool := q.size == 0

def push (q : TicketHeap) (t : Ticket) : TicketHeap :=
  ⟨q.heap.push ⟨t.priority, q.next, t⟩, q.next + 1⟩

def pop? (q : TicketHeap) : Option (Ticket × TicketHeap) :=
  q.heap.pop?.map fun (x, rest) => (x.ticket, ⟨rest, q.next⟩)

end TicketHeap

end Conflux
