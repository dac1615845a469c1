import Conflux.Files.Replace
import Conflux.Json.Printer
import Conflux.Partition

/-!
The offsets that have been committed, for each partition, kept in a file. They only
move forward, and the file is written when one of them has moved. Its path should have
no two points in it, and lead over no link.
-/

namespace Conflux

/-- Why a store cannot be opened. -/
inductive StoreError where
  | parse
  | read
deriving DecidableEq, Repr

def StoreError.message : StoreError → String
  | parse => "failed to parse offsets"
  | read => "failed to read offsets"

structure OffsetStore where
  path : Files.Path
  offsets : ByPartition UInt64
deriving Repr

namespace OffsetStore

/-! ### The file -/

/-- The offsets in a list; of two for one partition the last counts. -/
def ofPositions (ps : List Position) : ByPartition UInt64 :=
  ps.foldl (fun t p => t.update p.partitionKey fun _ => p.offset) .empty

def positions (s : OffsetStore) : List Position := s.offsets.entries.map fun e => e.1.at e.2

def encode (s : OffsetStore) : Bytes := (Json.array (s.positions.map (·.toJson))).pretty

def decode? (b : Bytes) : Option (List Position) := Json.whole? (Json.list? Position.read?) b

/-- The store at a path, with what the file there holds, if there is one. -/
def open? (t : Files.Tree) (path : Files.Path) : Except StoreError OffsetStore :=
  match t.read? path with
  | .ok b =>
      match decode? b with
      | some ps => .ok ⟨path, ofPositions ps⟩
      | none => .error .parse
  | .error .notFound => .ok ⟨path, .empty⟩
  | .error _ => .error .read

/-! ### Offsets -/

def get? (s : OffsetStore) (p : Partition) : Option UInt64 := s.offsets.get? p

/-- Takes one position; tells whether it moved the offset of its partition. A partition
starts at zero. -/
def advanceOne (offsets : ByPartition UInt64) (p : Position) : ByPartition UInt64 × Bool :=
  let current := (offsets.get? p.partitionKey).getD 0
  (offsets.update p.partitionKey fun _ => max current p.offset, decide (current < p.offset))

def advanceAll (offsets : ByPartition UInt64) : List Position → ByPartition UInt64 × Nat
  | [] => (offsets, 0)
  | p :: ps =>
      let (offsets, moved) := advanceOne offsets p
      let (offsets, n) := advanceAll offsets ps
      (offsets, n + if moved then 1 else 0)

/-- Moves offsets forward and tells how many moved. If the file cannot be written, the
store has moved all the same. -/
def advance (t : Files.Tree) (s : OffsetStore) (ps : List Position)
    (fault : Option Files.Tree.Fault) :
    Files.Tree × OffsetStore × Except Files.WriteError Nat :=
  let (offsets, moved) := advanceAll s.offsets ps
  let s := { s with offsets }
  if moved = 0 then (t, s, .ok 0)
  else
    let (t, result) := t.replaceWith s.path s.encode fault
    (t, s, result.map fun _ => moved)

end OffsetStore

end Conflux
