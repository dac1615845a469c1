/-!
Binary heaps. The entries stand in a row that is read as a tree: below the entry at place `i` are
those at `2 * i + 1` and `2 * i + 2`, and none of them is greater. So the greatest entry is the
first. A new entry rises from the end of the row to where it belongs; when the first is taken, the
last comes into its place and sinks.
-/

namespace Conflux

/-- A heap whose entries are compared by `lt`. -/
structure Heap {α : Type} (lt : α → α → Bool) where
  size : Nat
  entries : Vector α size

namespace Heap

variable {α : Type} {n : Nat}

def empty (lt : α → α → Bool) : Heap lt := ⟨0, #v[]⟩

/-- The place above `i`. -/
def parent (i : Nat) : Nat := (i - 1) / 2

theorem parent_lt {i : Nat} (hi : i ≠ 0) : parent i < i := by
  rw [parent]
  omega

/-- Moves the entry at `i` up past all that are less. -/
def rise (lt : α → α → Bool) (v : Vector α n) (i : Nat) (hi : i < n) : Vector α n :=
  if h : i = 0 then v
  else
    have hparent : parent i < i := parent_lt h
    if lt v[parent i] v[i] then rise lt (v.swap i (parent i)) (parent i) (by omega) else v
termination_by i

/-- Of the places below `i` the one with the greater entry. -/
def below? (lt : α → α → Bool) (v : Vector α n) (i : Nat) : Option (Fin n) :=
  if hleft : 2 * i + 1 < n then
    if hright : 2 * i + 2 < n then
      if lt v[2 * i + 1] v[2 * i + 2] then some ⟨2 * i + 2, hright⟩ else some ⟨2 * i + 1, hleft⟩
    else some ⟨2 * i + 1, hleft⟩
  else none

theorem lt_of_below? {lt : α → α → Bool} {v : Vector α n} {i : Nat} {c : Fin n}
    (h : below? lt v i = some c) : i < c := by
  unfold below? at h
  split at h
  · split at h
    · split at h <;> cases h <;> simp only <;> omega
    · cases h
      simp only
      omega
  · cases h

/-- Moves the entry at `i` down past all that are greater, always on the greater side. -/
def sink (lt : α → α → Bool) (v : Vector α n) (i : Nat) (hi : i < n) : Vector α n :=
  match h : below? lt v i with
  | none => v
  | some c =>
      have hbelow : i < c := lt_of_below? h
      if lt v[i] v[c] then sink lt (v.swap i c) c c.isLt else v
termination_by n - i

theorem sink_eq (lt : α → α → Bool) (v : Vector α n) (i : Nat) (hi : i < n) :
    sink lt v i hi =
      match below? lt v i with
      | none => v
      | some c => if lt v[i] v[c] then sink lt (v.swap i c hi c.isLt) c c.isLt else v := by
  rw [sink]
  split
  · rename_i hnone
    rw [hnone]
  · rename_i c hc
    simp only [hc]

/-- Moves the first entry down to where it belongs. -/
def settle (lt : α → α → Bool) (v : Vector α n) : Vector α n :=
  if hn : 0 < n then sink lt v 0 hn else v

def first (v : Vector α (n + 1)) : α := v[0]

/-- The last entry comes into the place of the first. -/
def replaceFirst (v : Vector α (n + 1)) : Vector α n := (v.swap 0 n).pop

def push {lt : α → α → Bool} (h : Heap lt) (x : α) : Heap lt :=
  ⟨h.size + 1, rise lt (h.entries.push x) h.size (Nat.lt_succ_self _)⟩

/-- Takes the greatest entry. -/
def pop? {lt : α → α → Bool} : Heap lt → Option (α × Heap lt)
  | ⟨0, _⟩ => none
  | ⟨n + 1, v⟩ => some (first v, ⟨n, settle lt (replaceFirst v)⟩)

end Heap

end Conflux
