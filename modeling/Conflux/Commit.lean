import Conflux.Leaf
import Conflux.Partition

/-!
From which offsets work has to be resumed. In a partition with content that is not
yet processed that is the lowest offset of such content; in any other one it is the
offset behind the highest processed one. What is known about a partition is a mark,
and marks are joined in any order.
-/

namespace Conflux.Commit

inductive Mark where
  /-- All content that is known is processed, up to this offset. -/
  | processed (highest : UInt64)
  /-- The content from this offset on is not. -/
  | outstanding (lowest : UInt64)
deriving DecidableEq, Repr

namespace Mark

/-- Outstanding content outweighs all that is processed. -/
def join : Mark → Mark → Mark
  | processed a, processed b => processed (max a b)
  | processed _, outstanding b => outstanding b
  | outstanding a, processed _ => outstanding a
  | outstanding a, outstanding b => outstanding (min a b)

/-- No offset comes after the highest word. -/
def successor? (offset : UInt64) : Option UInt64 :=
  if offset.toNat + 1 < UInt64.size then some (offset + 1) else none

def resumeAt? : Mark → Option UInt64
  | processed highest => successor? highest
  | outstanding lowest => some lowest

end Mark

def addMark (marks : ByPartition Mark) (m : Partition × Mark) : ByPartition Mark :=
  marks.update m.1 fun
    | some known => known.join m.2
    | none => m.2

def checkpointMark (c : Checkpoint) : Partition × Mark :=
  (c.position.partitionKey,
    if c.processed then .processed c.position.offset else .outstanding c.position.offset)

def openMark (p : Position) : Partition × Mark := (p.partitionKey, .outstanding p.offset)

def marks (checkpoints : List Checkpoint) (unfinished : List Position) : ByPartition Mark :=
  (checkpoints.map checkpointMark ++ unfinished.map openMark).foldl addMark .empty

/-- The positions to commit, one for each partition in ascending order. There are none
if the highest processed offset of some partition has no successor. -/
def positions? (checkpoints : List Checkpoint) (unfinished : List Position) :
    Option (List Position) :=
  (marks checkpoints unfinished).entries.mapM fun e => e.2.resumeAt?.map e.1.at

end Conflux.Commit
