import Conflux.Pipeline

/-!
A committer remembers what it committed last and commits again only when there is
something to commit and it has changed. What fails to be committed is not
remembered, so the next turn tries it again.
-/

namespace Conflux

structure Committer where
  last : List Position
deriving DecidableEq, Repr

namespace Committer

def fresh : Committer := ⟨[]⟩

/-- These positions have to be committed if they are the current ones. -/
def due (c : Committer) (current : List Position) : Bool := !current.isEmpty && current != c.last

/-- The positions were committed. -/
def done (_ : Committer) (current : List Position) : Committer := ⟨current⟩

end Committer

end Conflux
