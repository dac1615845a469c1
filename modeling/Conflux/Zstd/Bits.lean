import Conflux.Bytes

/-!
Bit streams. Bit `i` of a stream is bit `i % 8` of byte `i / 8`. A table is described
by a stream read forwards; symbols are read backwards, from below the highest bit of
the last byte down to the first bit.
-/

namespace Conflux.Zstd

/-- The `n` bits from position `pos` on, as a number; zeros follow the last byte. -/
def bitsAt (data : Array UInt8) (pos n : Nat) : Nat :=
  let first := pos / 8
  let count := (pos % 8 + n + 7) / 8
  let raw := (List.range count).foldr (fun i v => v * 256 + (data.getD (first + i) 0).toNat) 0
  raw / Nat.pow 2 (pos % 8) % Nat.pow 2 n

/-- A stream that is read backwards, with the number of bits not yet read. Once the
stream is overdrawn the number is negative and every bit is zero. -/
structure Backward where
  data : Array UInt8
  left : Int

namespace Backward

/-- Bits below the highest set bit of the last byte. There is none in an empty stream
or when the last byte is zero. -/
def ofBytes? (b : Bytes) : Option Backward :=
  let data := b.toArray
  match data.back? with
  | none => none
  | some last =>
      if last = 0 then none else some ⟨data, ((data.size - 1) * 8 + last.toNat.log2 : Nat)⟩

/-- The next `n` bits, filled up with zeros below the first bit of the stream. -/
def peek (s : Backward) (n : Nat) : Nat :=
  if s.left < 0 then 0
  else
    let left := s.left.toNat
    if n ≤ left then bitsAt s.data (left - n) n
    else bitsAt s.data 0 left * Nat.pow 2 (n - left)

def skip (s : Backward) (n : Nat) : Backward := { s with left := s.left - n }

def read (s : Backward) (n : Nat) : Nat × Backward := (s.peek n, s.skip n)

def overdrawn (s : Backward) : Bool := s.left < 0

def finished (s : Backward) : Bool := s.left == 0

end Backward

end Conflux.Zstd
