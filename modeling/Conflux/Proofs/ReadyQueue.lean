import Conflux.ReadyQueue
import Mathlib.Data.List.Basic

/-!
A push adds its ticket and loses none, wherever the ticket finds its place.
-/

namespace Conflux.ReadyQueue

theorem place_perm (t : Ticket) (us : List Ticket) : (place t us).Perm (t :: us) := by
  induction us with
  | nil => exact .refl _
  | cons u us ih =>
      rw [place]
      split
      · exact .refl _
      · exact (ih.cons u).trans (.swap t u us)

theorem pushAll_perm (q : ReadyQueue) (ts : List Ticket) :
    (q.pushAll ts).waiting.Perm (ts ++ q.waiting) := by
  induction ts generalizing q with
  | nil => exact .refl _
  | cons t ts ih =>
      refine (ih (q.push t)).trans ?_
      exact ((place_perm t q.waiting).append_left ts).trans List.perm_middle

theorem countP_pushAll (q : ReadyQueue) (ts : List Ticket) (p : Ticket → Bool) :
    (q.pushAll ts).waiting.countP p = q.waiting.countP p + ts.countP p := by
  rw [(q.pushAll_perm ts).countP_eq, List.countP_append, Nat.add_comm]

end Conflux.ReadyQueue
