import Conflux.Proofs.Aggregator.Alert
import Conflux.Proofs.Crew

/-!
Nothing sleeps for ever. That the aggregator is alert says that a slot which can run has
its flag up; the books of the crew say that for the flag there is a ticket, in the queue or
in a hand, and for a rest somebody who will end it. When all of these are gone, what still
waits can only wait for its dependency.
-/

namespace Conflux.Crew

variable {c : Crew}

theorem registry_step (c : Crew) (m : Move) :
    (c.step m).aggregator.registry = c.aggregator.registry := by
  rcases c.aggregator_step m with hsame | ⟨o, ho⟩
  · rw [hsame]
  · rw [ho, Aggregator.registry_step]

theorem registry_run (c : Crew) (moves : List Move) :
    (c.run moves).aggregator.registry = c.aggregator.registry := by
  induction moves generalizing c with
  | nil => rfl
  | cons m moves ih => exact (ih (c.step m)).trans (c.registry_step m)

end Conflux.Crew
