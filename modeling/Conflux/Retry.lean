/-!
How often a bundle is tried and how long each retry waits.
-/

namespace Conflux

structure RetryPolicy where
  /-- Attempts for one bundle, the first included. -/
  maxAttempts : Nat
  initialMillis : Nat
  maxMillis : Nat
deriving DecidableEq, Repr

namespace RetryPolicy

/-- The wait after the given failed attempt: the initial wait, doubled for every
attempt after the first (thirty-one times at most) and cut at the ceiling. -/
def backoffMillis (p : RetryPolicy) (failedAttempt : Nat) : Nat :=
  min (p.initialMillis * Nat.pow 2 (min (failedAttempt - 1) 31)) p.maxMillis

end RetryPolicy

end Conflux
