import Conflux.Zstd.Fse

/-!
Prefix codes given by weights: a symbol of weight `w` owns `2 ^ (w - 1)` of the
`2 ^ width` bit patterns. The last symbol's weight is what completes the patterns.
-/

namespace Conflux.Zstd.Huffman

/-- A pattern's symbol and the length of its code. -/
structure Entry where
  symbol : UInt8
  bits : Nat
deriving Inhabited, Repr

structure Table where
  width : Nat
  entries : Array Entry
deriving Inhabited

def maxWidth : Nat := 12

/-! ### Weights -/

/-- Weights of four bits each, the high half of a byte first. -/
def plainWeights (count : Nat) (b : Bytes) : List Nat :=
  (b.flatMap fun x => [x.toNat / 16, x.toNat % 16]).take count

/-- Weights from two states that take turns; the one that overdraws the stream leaves
the last word to the other. -/
def alternate? (t : Fse.Table) :
    (fuel : Nat) → (now other : Nat) → Backward → List Nat → Option (List Nat)
  | 0, _, _, _, _ => none
  | fuel + 1, now, other, s, acc =>
      let e := t.entry now
      let (next, s) := e.next s
      if s.overdrawn then some ((t.entry other).symbol :: e.symbol :: acc).reverse
      else alternate? t fuel other next s (e.symbol :: acc)

def packedWeights? (b : Bytes) : Option (List Nat) := do
  let (d, rest) ← Fse.Distribution.read? 6 255 b
  let s ← Backward.ofBytes? rest
  let t := d.table
  let (one, s) := t.start s
  let (two, s) := t.start s
  if s.overdrawn then none else alternate? t 254 one two s []

/-- The weights at the front of the bytes, the last one missing, and what follows. -/
def readWeights? : Bytes → Option (List Nat × Bytes)
  | [] => none
  | h :: rest =>
      let n := h.toNat
      if n < 128 then
        if rest.length < n ∨ n = 0 then none
        else (packedWeights? (rest.take n)).map fun w => (w, rest.drop n)
      else
        let count := n - 127
        let size := (count + 1) / 2
        if rest.length < size then none
        else some (plainWeights count (rest.take size), rest.drop size)

/-! ### Tables -/

def patterns (w : Nat) : Nat := if w = 0 then 0 else Nat.pow 2 (w - 1)

/-- The weights completed by the last one, and the width of the table. -/
def complete? (weights : List Nat) : Option (List Nat × Nat) :=
  let total := weights.foldl (fun n w => n + patterns w) 0
  if total = 0 ∨ weights.any (maxWidth < ·) then none
  else
    let width := total.log2 + 1
    let rest := Nat.pow 2 width - total
    if maxWidth < width ∨ rest ≠ Nat.pow 2 rest.log2 then none
    else
      let all := weights ++ [rest.log2 + 1]
      let lightest := all.count 1
      if lightest < 2 ∨ lightest % 2 = 1 then none else some (all, width)

/-- Patterns in ascending order: by weight, then by symbol. -/
def table (weights : List Nat) (width : Nat) : Table :=
  let symbols := weights.zipIdx
  let entries := (List.range width).flatMap fun i =>
    (symbols.filter fun p => p.1 == i + 1).flatMap fun p =>
      List.replicate (Nat.pow 2 i) (⟨UInt8.ofNat p.2, width - i⟩ : Entry)
  ⟨width, entries.toArray⟩

def Table.read? (b : Bytes) : Option (Table × Bytes) := do
  let (weights, rest) ← readWeights? b
  let (all, width) ← complete? weights
  some (table all width, rest)

/-! ### Decoding -/

/-- So many symbols off the stream, onto those already there. -/
def decodeSymbols (t : Table) : (count : Nat) → Backward → Array UInt8 → Array UInt8 × Backward
  | 0, s, out => (out, s)
  | n + 1, s, out =>
      let e := t.entries.getD (s.peek t.width) default
      decodeSymbols t n (s.skip e.bits) (out.push e.symbol)

/-- A stream that holds exactly so many symbols. -/
def decodeStream? (t : Table) (count : Nat) (b : Bytes) (out : Array UInt8) :
    Option (Array UInt8) :=
  match Backward.ofBytes? b with
  | none => none
  | some s =>
      let (out, s) := decodeSymbols t count s out
      if s.finished then some out else none

end Conflux.Zstd.Huffman
