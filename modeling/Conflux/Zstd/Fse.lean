import Conflux.Zstd.Bits

/-!
Finite-state entropy tables. A distribution gives every symbol a share of the states;
a table says for each state which symbol it stands for, and how many bits, added to
which base, give the next state.
-/

namespace Conflux.Zstd.Fse

/-- A state's symbol and the way to the next state. -/
structure Entry where
  symbol : Nat
  bits : Nat
  base : Nat
deriving Inhabited, Repr

structure Table where
  accuracy : Nat
  entries : Array Entry
deriving Inhabited

/-- A share of -1 stands for less than one: a single state from the far end. -/
structure Distribution where
  accuracy : Nat
  shares : List Int

/-! ### Reading a distribution -/

/-- Symbols left out in a row: two bits at a time, three meaning that more follow. -/
def zeroRun : (fuel : Nat) → (data : Array UInt8) → (pos count : Nat) → Nat × Nat
  | 0, _, pos, count => (pos, count)
  | fuel + 1, data, pos, count =>
      let n := bitsAt data pos 2
      if n = 3 then zeroRun fuel data (pos + 2) (count + 3) else (pos + 2, count + n)

/-- How many bits the numbers below `n` need. -/
def widthOf (n : Nat) : Nat := if n = 0 then 0 else n.log2 + 1

/-- The shares of the symbols up to `maxSymbol`; `remaining` states and one more are
still to be given away. -/
def readShares? (data : Array UInt8) (maxSymbol : Nat) :
    (fuel pos remaining : Nat) → (shares : Array Int) → Option (Array Int × Nat)
  | 0, _, _, _ => none
  | fuel + 1, pos, remaining, shares =>
      if remaining ≤ 1 then
        if remaining = 1 ∧ shares.size ≤ maxSymbol + 1 then some (shares, pos) else none
      else if maxSymbol < shares.size then none
      else
        let width := widthOf remaining
        let threshold := Nat.pow 2 (width - 1)
        let short := 2 * threshold - 1 - remaining
        let low := bitsAt data pos (width - 1)
        let value := if low < short then low
          else
            let v := bitsAt data pos width
            if threshold ≤ v then v - short else v
        let used := if low < short then width - 1 else width
        let share : Int := (value : Int) - 1
        if remaining ≤ share.natAbs then none
        else
          let shares := shares.push share
          if share = 0 then
            let (pos, zeros) := zeroRun (maxSymbol + 2) data (pos + used) 0
            readShares? data maxSymbol fuel pos remaining (shares ++ (List.replicate zeros 0).toArray)
          else readShares? data maxSymbol fuel (pos + used) (remaining - share.natAbs) shares

/-- A distribution at the front of the bytes, and what follows it. -/
def Distribution.read? (maxAccuracy maxSymbol : Nat) (b : Bytes) : Option (Distribution × Bytes) :=
  let data := b.toArray
  let accuracy := bitsAt data 0 4 + 5
  if maxAccuracy < accuracy then none
  else
    match readShares? data maxSymbol (maxSymbol + 3) 4 (Nat.pow 2 accuracy + 1) #[] with
    | none => none
    | some (shares, pos) =>
        let used := (pos + 7) / 8
        if b.length < used then none else some (⟨accuracy, shares.toList⟩, b.drop used)

/-! ### Building a table -/

/-- The symbols with a share of less than one, as they lie at the far end: the first of
them in the last state. -/
def rareSymbols (shares : List Int) : List Nat :=
  (shares.zipIdx.filter fun p => p.1 == -1).map (·.2)

/-- Each symbol as often as its share says. -/
def commonSymbols (shares : List Int) : List Nat :=
  shares.zipIdx.flatMap fun p => List.replicate p.1.toNat p.2

/-- The next place in the spreading walk that lies below `limit`. -/
def nextPlace (size step limit : Nat) : (fuel place : Nat) → Nat
  | 0, place => place
  | fuel + 1, place =>
      let place := (place + step) % size
      if place < limit then place else nextPlace size step limit fuel place

/-- Lays the symbols out along the walk. -/
def spread (size step limit : Nat) : List Nat → (place : Nat) → Array Nat → Array Nat
  | [], _, states => states
  | s :: rest, place, states =>
      spread size step limit rest (nextPlace size step limit size place) (states.setIfInBounds place s)

/-- Numbers the states of each symbol from its share on; the number tells the bits. -/
def number (accuracy : Nat) : List Nat → (next : Array Nat) → Array Entry → Array Entry
  | [], _, entries => entries
  | s :: rest, next, entries =>
      let n := next.getD s 1
      let bits := accuracy - n.log2
      number accuracy rest (next.setIfInBounds s (n + 1))
        (entries.push ⟨s, bits, n * Nat.pow 2 bits - Nat.pow 2 accuracy⟩)

def Distribution.table (d : Distribution) : Table :=
  let size := Nat.pow 2 d.accuracy
  let rare := rareSymbols d.shares
  let limit := size - rare.length
  let start := (Array.replicate limit 0) ++ rare.reverse.toArray
  let states := spread size (size / 2 + size / 8 + 3) limit (commonSymbols d.shares) 0 start
  let next := (d.shares.map fun s => if s = -1 then 1 else s.toNat).toArray
  ⟨d.accuracy, number d.accuracy states.toList next #[]⟩

/-- A table of one state that never moves. -/
def single (symbol : Nat) : Table := ⟨0, #[⟨symbol, 0, 0⟩]⟩

/-! ### Walking a table -/

def Table.start (t : Table) (s : Backward) : Nat × Backward := s.read t.accuracy

def Table.entry (t : Table) (state : Nat) : Entry := t.entries.getD state default

def Entry.next (e : Entry) (s : Backward) : Nat × Backward :=
  let (n, s) := s.read e.bits
  (e.base + n, s)

end Conflux.Zstd.Fse
