import Conflux.Proofs.Heap
import Conflux.Proofs.ReadyQueue.Service
import Conflux.TicketHeap
import Mathlib.Data.Prod.Lex

/-!
The heap of numbered tickets serves as the line does. A heap in order knows nothing of who came
first; that is in the numbers, which ascend along the line as long as the counter has not come
round. So what the heap holds, put in the order of the numbers, is the line.
-/

namespace Conflux

namespace NumberedTicket

/-- By priority, then by number, turned round, since a heap takes its greatest entry. -/
def rank (x : NumberedTicket) : (ℕ ×ₗ ℕ)ᵒᵈ := .toDual (toLex (x.priority, x.number.toNat))

theorem leavesAfter_iff (x y : NumberedTicket) : leavesAfter x y = true ↔ x.rank < y.rank := by
  rw [leavesAfter, beq_iff_eq, compare, Ordering.then_eq_lt, Nat.compare_eq_lt,
    Nat.compare_eq_eq, Std.compare_eq_lt, UInt64.lt_iff_toNat_lt, rank, rank,
    OrderDual.toDual_lt_toDual, Prod.Lex.toLex_lt_toLex]

theorem rank_le_iff {x y : NumberedTicket} :
    x.rank ≤ y.rank ↔
      y.priority < x.priority ∨ y.priority = x.priority ∧ y.number ≤ x.number := by
  rw [rank, rank, OrderDual.toDual_le_toDual, Prod.Lex.toLex_le_toLex, UInt64.le_iff_toNat_le]

end NumberedTicket

namespace TicketHeap

variable {q : TicketHeap} {line : List Ticket} {left : Nat} {next : UInt64}
  {x : NumberedTicket} {earlier later waiting : List NumberedTicket}

def discipline : Discipline TicketHeap := ⟨empty, push, TicketHeap.pop?, TicketHeap.size⟩

/-- The numbers ascend along `waiting` and stay below `next`. -/
structure Numbered (waiting : List NumberedTicket) (next : UInt64) : Prop where
  ascend : waiting.Pairwise (·.number < ·.number)
  below : ∀ x ∈ waiting, x.number < next
  priority : ∀ x ∈ waiting, x.priority = x.ticket.priority

theorem Numbered.push (h : Numbered waiting next) (hroom : next < next + 1) (t : Ticket) :
    Numbered (waiting ++ [⟨t.priority, next, t⟩]) (next + 1) := by
  constructor
  case ascend =>
    rw [List.pairwise_append]
    refine ⟨h.ascend, List.pairwise_singleton _ _, fun x hx y hy => ?_⟩
    rw [List.mem_singleton.mp hy]
    exact h.below x hx
  case below =>
    intro x hx
    obtain hx | hx := List.mem_append.mp hx
    · exact UInt64.lt_trans (h.below x hx) hroom
    · rw [List.mem_singleton.mp hx]
      exact hroom
  case priority =>
    intro x hx
    obtain hx | hx := List.mem_append.mp hx
    · exact h.priority x hx
    · rw [List.mem_singleton.mp hx]

theorem Numbered.take (h : Numbered (earlier ++ x :: later) next) :
    Numbered (earlier ++ later) next := by
  have hsub : (earlier ++ later).Sublist (earlier ++ x :: later) :=
    (List.sublist_cons_self x later).append_left earlier
  exact ⟨h.ascend.sublist hsub, fun y hy => h.below y (hsub.subset hy),
    fun y hy => h.priority y (hsub.subset hy)⟩

/-- Of those that came before the entry of greatest rank none has its priority: the number would
have put it first. -/
theorem Numbered.leads (h : Numbered (earlier ++ x :: later) next)
    (hgreatest : ∀ y ∈ earlier ++ x :: later, y.rank ≤ x.rank) :
    Leads x.ticket (earlier.map (·.ticket)) (later.map (·.ticket)) := by
  have hx := h.priority x (by simp)
  constructor
  case earlier =>
    intro u hu
    obtain ⟨y, hy, rfl⟩ := List.mem_map.mp hu
    have hmem : y ∈ earlier ++ x :: later := by simp [hy]
    have hnumber : y.number < x.number :=
      (List.pairwise_append.mp h.ascend).2.2 y hy x (by simp)
    rw [← hx, ← h.priority y hmem]
    obtain hlt | ⟨-, hle⟩ := NumberedTicket.rank_le_iff.mp (hgreatest y hmem)
    · exact hlt
    · exact absurd hnumber (UInt64.not_lt.mpr hle)
  case later =>
    intro u hu
    obtain ⟨y, hy, rfl⟩ := List.mem_map.mp hu
    have hmem : y ∈ earlier ++ x :: later := by simp [hy]
    rw [← hx, ← h.priority y hmem]
    obtain hlt | ⟨heq, -⟩ := NumberedTicket.rank_le_iff.mp (hgreatest y hmem)
    · exact hlt.le
    · exact heq.le

/-- The heap is in order, and what it holds makes up the line in the order of the numbers; there are
numbers for `left` more. -/
structure Holds (left : Nat) (q : TicketHeap) (line : List Ticket) : Prop where
  ordered : Heap.Ordered NumberedTicket.rank q.heap.entries
  numbered : ∃ waiting : List NumberedTicket, waiting.map (·.ticket) = line ∧
    q.heap.entries.toList.Perm waiting ∧ Numbered waiting q.next
  room : q.next.toNat + left < UInt64.size

theorem holds_empty (hleft : left < UInt64.size) : Holds left empty [] where
  ordered _ _ hj := absurd hj (Nat.not_lt_zero _)
  numbered := ⟨[], rfl, .refl _, .nil, nofun, nofun⟩
  room := by
    change 0 + left < UInt64.size
    omega

theorem Holds.push (h : Holds (left + 1) q line) (t : Ticket) :
    Holds left (q.push t) (line ++ [t]) := by
  obtain ⟨waiting, hline, hperm, hnumbered⟩ := h.numbered
  have hroom := h.room
  have hnext : (q.next + 1).toNat = q.next.toNat + 1 := by
    have hbelow : q.next.toNat + 1 < UInt64.size := by omega
    rw [UInt64.toNat_add]
    exact Nat.mod_eq_of_lt hbelow
  have hlt : q.next < q.next + 1 := by
    rw [UInt64.lt_iff_toNat_lt, hnext]
    omega
  refine ⟨Heap.ordered_push NumberedTicket.leavesAfter_iff h.ordered _, ?_, ?_⟩
  · refine ⟨waiting ++ [⟨t.priority, q.next, t⟩], by simp [hline], ?_, hnumbered.push hlt t⟩
    refine (Heap.push_perm q.heap _).trans ((hperm.cons _).trans ?_)
    exact (List.perm_append_singleton _ waiting).symm
  · change (q.next + 1).toNat + left < UInt64.size
    omega

theorem Holds.size_eq (h : Holds left q line) : q.size = line.length := by
  obtain ⟨waiting, rfl, hperm, -⟩ := h.numbered
  rw [List.length_map, ← hperm.length_eq, Vector.length_toList]
  rfl

theorem Holds.pop {t : Ticket} {rest : TicketHeap} (h : Holds left q line)
    (hpop : q.pop? = some (t, rest)) :
    ∃ earlier later, line = earlier ++ t :: later ∧ Leads t earlier later ∧
      Holds left rest (earlier ++ later) := by
  obtain ⟨⟨x, heap⟩, htaken, hx⟩ := Option.map_eq_some_iff.mp hpop
  cases hx
  obtain ⟨waiting, rfl, hperm, hnumbered⟩ := h.numbered
  have htakenPerm := (Heap.pop?_perm htaken).trans hperm
  obtain ⟨earlier, later, rfl⟩ :=
    List.append_of_mem (htakenPerm.mem_iff.mp (List.mem_cons_self ..))
  have hgreatest : ∀ y ∈ earlier ++ x :: later, y.rank ≤ x.rank := fun y hy =>
    Heap.greatest_of_pop? h.ordered htaken (hperm.mem_iff.mpr hy)
  refine ⟨earlier.map (·.ticket), later.map (·.ticket), by simp, hnumbered.leads hgreatest, ?_⟩
  refine ⟨Heap.ordered_of_pop? NumberedTicket.leavesAfter_iff h.ordered htaken, ?_, h.room⟩
  refine ⟨earlier ++ later, by simp, ?_, hnumbered.take⟩
  exact (htakenPerm.trans List.perm_middle).cons_inv

theorem keepsStep : discipline.KeepsStep Holds where
  size hq := hq.size_eq
  push t hq := hq.push t
  pop_none {_ q line} hq hpop := by
    have hsize : q.size = 0 := Heap.pop?_eq_none.mp (Option.map_eq_none_iff.mp hpop)
    rw [hq.size_eq] at hsize
    exact List.eq_nil_of_length_eq_zero hsize
  pop_some hq hpop := hq.pop hpop

/-- However pushes and pops interleave, the heap of numbered tickets is a stable priority queue as
long as its counter does not come round, and so is the list that is kept in the order of leaving. -/
theorem serves_stably (requests : List Request) (hfew : (pushed requests).length < UInt64.size) :
    discipline.ServesStably requests ∧ ReadyQueue.discipline.ServesStably requests :=
  ⟨keepsStep.servesStably (holds_empty hfew),
    ReadyQueue.keepsStep.servesStably ReadyQueue.sorts_nil⟩

/-- Of two hubs with tickets of one priority the one that was pushed first is served first, also
when a more urgent ticket comes in between. -/
theorem serves_stably_two_hubs :
    let events (hub : String) : Ticket := ⟨hub, "Events", 9⟩
    let clusters : Ticket := ⟨"hub2", "ManagedClusters", 1⟩
    let requests : List Request := [.push (events "hub1"), .push (events "hub2"), .push clusters,
      .pop, .push (events "hub1"), .pop, .pop, .pop, .pop]
    (pushed requests).length < UInt64.size ∧
      discipline.answers empty requests = [none, none, none, some clusters, none,
        some (events "hub1"), some (events "hub2"), some (events "hub1"), none] :=
  ⟨by decide, (serves_stably _ (by decide)).1.answers.trans (by decide)⟩

end TicketHeap

end Conflux
