import Conflux.Zstd.Huffman

/-!
The literals section of a block: bytes as they are, one byte repeated, or bytes coded
in one or four streams with a table of their own or the table of an earlier block.
-/

namespace Conflux.Zstd

/-- A number whose first byte is the least significant. -/
def littleEndian (b : Bytes) : Nat := b.foldr (fun x v => v * 256 + x.toNat) 0

/-- The first `n` bytes and the rest. -/
def cut? (n : Nat) (b : Bytes) : Option (Bytes × Bytes) :=
  let front := b.take n
  if front.length < n then none else some (front, b.drop n)

/-- Nothing in a block is larger than this. -/
def maxBlockSize : Nat := 128 * 1024

inductive LiteralsKind where
  | raw
  | repeated
  | coded
  | codedAgain
deriving DecidableEq, Repr

structure LiteralsHeader where
  kind : LiteralsKind
  size : Nat
  codedSize : Nat
  fourStreams : Bool

/-- The header of the section and what follows it. -/
def LiteralsHeader.read? (b : Bytes) : Option (LiteralsHeader × Bytes) := do
  let first ← b.head?
  let kind := first.toNat % 4
  let format := first.toNat / 4 % 4
  if kind < 2 then
    let kind : LiteralsKind := if kind = 0 then .raw else .repeated
    if format % 2 = 0 then some (⟨kind, first.toNat / 8, 0, false⟩, b.drop 1)
    else
      let (head, rest) ← cut? (if format = 1 then 2 else 3) b
      some (⟨kind, littleEndian head / 16, 0, false⟩, rest)
  else
    let kind : LiteralsKind := if kind = 2 then .coded else .codedAgain
    let width := if format < 2 then 10 else if format = 2 then 14 else 18
    let (head, rest) ← cut? (if format < 2 then 3 else if format = 2 then 4 else 5) b
    let n := littleEndian head / 16
    let bound := Nat.pow 2 width
    some (⟨kind, n % bound, n / bound % bound, format ≠ 0⟩, rest)

/-- Four streams behind a table of the lengths of the first three; each decodes to a
quarter of the bytes, rounded up, and the last one to what is left. -/
def fourStreams? (t : Huffman.Table) (size : Nat) (b : Bytes) : Option (Array UInt8) := do
  if size < 6 ∨ b.length < 10 then none
  else
    let (lengths, rest) ← cut? 6 b
    let (one, rest) ← cut? (littleEndian (lengths.take 2)) rest
    let (two, rest) ← cut? (littleEndian ((lengths.drop 2).take 2)) rest
    let (three, four) ← cut? (littleEndian (lengths.drop 4)) rest
    let quarter := (size + 3) / 4
    let out ← Huffman.decodeStream? t quarter one #[]
    let out ← Huffman.decodeStream? t quarter two out
    let out ← Huffman.decodeStream? t quarter three out
    Huffman.decodeStream? t (size - 3 * quarter) four out

/-- Coded bytes of a section. -/
def codedLiterals? (h : LiteralsHeader) (t : Huffman.Table) (b : Bytes) : Option (Array UInt8) :=
  if h.fourStreams then fourStreams? t h.size b
  else if h.size = 0 then none
  else Huffman.decodeStream? t h.size b #[]

/-- The literals of a block, what follows the section, and the table then known. -/
def literals? (known : Option Huffman.Table) (b : Bytes) :
    Option (Array UInt8 × Bytes × Option Huffman.Table) := do
  let (h, rest) ← LiteralsHeader.read? b
  if maxBlockSize < h.size then none
  else
    match h.kind with
    | .raw =>
        let (bytes, rest) ← cut? h.size rest
        some (bytes.toArray, rest, known)
    | .repeated =>
        let x ← rest.head?
        some (Array.replicate h.size x, rest.drop 1, known)
    | .coded =>
        let (body, rest) ← cut? h.codedSize rest
        let (t, streams) ← Huffman.Table.read? body
        let out ← codedLiterals? h t streams
        some (out, rest, some t)
    | .codedAgain =>
        let (body, rest) ← cut? h.codedSize rest
        let t ← known
        let out ← codedLiterals? h t body
        some (out, rest, some t)

end Conflux.Zstd
