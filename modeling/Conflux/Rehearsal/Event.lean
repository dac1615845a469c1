import Conflux.Pipeline

/-!
What is seen of a rehearsal: the runs of the scripted handlers and the commits, with
the millisecond at which they happened.
-/

namespace Conflux.Rehearsal

/-- How the run of a handler ends. To panic is to fail in another way. -/
inductive Ending where
  | ok
  | fail
  | panic
deriving DecidableEq, Repr

/-- What the handlers of one bundle type do. -/
structure Part where
  /-- How long each run takes. -/
  millis : Nat
  /-- How the runs end, one after the other; all later ones are fine. -/
  endings : List Ending
deriving Repr

namespace Part

def standard : Part := ⟨0, []⟩

/-- How the next run ends, and what is left. -/
def next (p : Part) : Ending × Part :=
  match p.endings with
  | [] => (.ok, p)
  | e :: es => (e, { p with endings := es })

end Part

inductive Event where
  | started (claim : Claim)
  | ended (source bundleType : String) (ending : Ending)
  | committed (positions : List Position)
  | commitFailed (positions : List Position)
deriving Repr

structure Entry where
  millisecond : Nat
  event : Event
deriving Repr

end Conflux.Rehearsal
