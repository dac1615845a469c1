import Conflux.Zstd.Literals

/-!
The 64-bit xxHash with seed zero, whose low half ends a frame that carries a checksum.
-/

namespace Conflux.Zstd.Checksum

def prime1 : UInt64 := 0x9E3779B185EBCA87
def prime2 : UInt64 := 0xC2B2AE3D27D4EB4F
def prime3 : UInt64 := 0x165667B19E3779F9
def prime4 : UInt64 := 0x85EBCA77C2B2AE63
def prime5 : UInt64 := 0x27D4EB2F165667C5

def rotateLeft (x : UInt64) (n : UInt64) : UInt64 := (x <<< n) ||| (x >>> (64 - n))

def round (acc lane : UInt64) : UInt64 := rotateLeft (acc + lane * prime2) 31 * prime1

def merge (acc v : UInt64) : UInt64 := (acc ^^^ round 0 v) * prime1 + prime4

def lane (b : Bytes) : UInt64 := UInt64.ofNat (littleEndian b)

/-- Four accumulators, one for each eight bytes of a stripe of 32. -/
structure Lanes where
  a : UInt64
  b : UInt64
  c : UInt64
  d : UInt64

def Lanes.initial : Lanes := ⟨prime1 + prime2, prime2, 0, 0 - prime1⟩

def Lanes.absorb (l : Lanes) (stripe : Bytes) : Lanes :=
  ⟨round l.a (lane (stripe.take 8)), round l.b (lane ((stripe.drop 8).take 8)),
    round l.c (lane ((stripe.drop 16).take 8)), round l.d (lane ((stripe.drop 24).take 8))⟩

/-- Absorbs the full stripes of a row; also what is left of the row. -/
def Lanes.absorbAll (l : Lanes) : List Bytes → Lanes × Bytes
  | [] => (l, [])
  | p :: ps => if p.length < 32 then (l, p) else (l.absorb p).absorbAll ps

/-- The accumulators as one. -/
def Lanes.join (l : Lanes) : UInt64 :=
  let h := rotateLeft l.a 1 + rotateLeft l.b 7 + rotateLeft l.c 12 + rotateLeft l.d 18
  merge (merge (merge (merge h l.a) l.b) l.c) l.d

/-- Takes in the last bytes: by eight, then four, then one. -/
def tail : UInt64 → Bytes → UInt64
  | h, a :: b :: c :: d :: e :: f :: g :: i :: rest =>
      tail (rotateLeft (h ^^^ round 0 (lane [a, b, c, d, e, f, g, i])) 27 * prime1 + prime4) rest
  | h, a :: b :: c :: d :: rest =>
      tail (rotateLeft (h ^^^ lane [a, b, c, d] * prime1) 23 * prime2 + prime3) rest
  | h, a :: rest => tail (rotateLeft (h ^^^ a.toUInt64 * prime5) 11 * prime1) rest
  | h, [] => h

def avalanche (h : UInt64) : UInt64 :=
  let h := (h ^^^ (h >>> 33)) * prime2
  let h := (h ^^^ (h >>> 29)) * prime3
  h ^^^ (h >>> 32)

def xxh64 (s : Bytes) : UInt64 :=
  let (lanes, rest) := Lanes.initial.absorbAll (Bytes.pieces 32 s)
  let h := if s.length < 32 then prime5 else lanes.join
  avalanche (tail (h + UInt64.ofNat s.length) rest)

/-- The four bytes at the end of a frame. -/
def trailer (s : Bytes) : Nat := (xxh64 s).toNat % 0x100000000

end Conflux.Zstd.Checksum
