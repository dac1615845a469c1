/-!
A window of the most recently recorded keys. A key that is inside the window is
not recorded again, and recording one more than fit forgets the oldest.
-/

namespace Conflux

structure RecentKeys (κ : Type) where
  capacity : Nat
  /-- The remembered keys, the oldest first. -/
  keys : List κ
deriving Repr

namespace RecentKeys

variable {κ : Type} [DecidableEq κ]

def empty (capacity : Nat) : RecentKeys κ := ⟨capacity, []⟩

def contains (w : RecentKeys κ) (k : κ) : Bool := decide (k ∈ w.keys)

def size (w : RecentKeys κ) : Nat := w.keys.length

/-- Records `k` and tells whether it was unknown. Without room for a single key
nothing is remembered, so every key is unknown. -/
def insert (w : RecentKeys κ) (k : κ) : RecentKeys κ × Bool :=
  if w.capacity = 0 then (w, true)
  else if w.contains k then (w, false)
  else if w.keys.length = w.capacity then ({ w with keys := w.keys.drop 1 ++ [k] }, true)
  else ({ w with keys := w.keys ++ [k] }, true)

@[simp] theorem contains_eq_true {w : RecentKeys κ} {k : κ} :
    w.contains k = true ↔ k ∈ w.keys := by
  simp [contains]

end RecentKeys

end Conflux
