import Conflux.Zstd.Sequences
import Conflux.Zstd.Checksum

/-!
Frames. A compressed text is a row of frames; frames marked to be skipped hold
nothing. `decode?` reads any frames that need no dictionary.
-/

namespace Conflux.Zstd

def magic : Nat := 0xFD2FB528

/-- The sixteen marks of frames that are passed over begin here. -/
def skippableMagic : Nat := 0x184D2A50

def maxWindow : Nat := 0x8000001

structure FrameHeader where
  window : Nat
  contentSize : Option Nat
  checksum : Bool

/-- The window for its descriptor byte. -/
def windowSize (b : UInt8) : Nat :=
  let base := Nat.pow 2 (10 + b.toNat / 8)
  base + base / 8 * (b.toNat % 8)

/-- The header that follows the magic number, and what follows it. -/
def FrameHeader.read? : Bytes → Option (FrameHeader × Bytes)
  | [] => none
  | d :: b => do
      let n := d.toNat
      let single := n / 32 % 2 = 1
      if n / 8 % 2 = 1 then none
      else
        let (window, b) ← if single then some ([], b) else cut? 1 b
        let (dictionary, b) ← cut? ([0, 1, 2, 4].getD (n % 4) 0) b
        if littleEndian dictionary ≠ 0 then none
        else
          let width := [if single then 1 else 0, 2, 4, 8].getD (n / 64) 0
          let (size, b) ← cut? width b
          let contentSize :=
            if width = 0 then none
            else some (littleEndian size + if width = 2 then 256 else 0)
          let window := match window with
            | w :: _ => windowSize w
            | [] => contentSize.getD 0
          if maxWindow < window then none
          else some (⟨window, contentSize, n / 4 % 2 = 1⟩, b)

/-- One block onto the output. -/
def block? (limit kind size : Nat) (c : Carry) (b : Bytes) : Option (Carry × Bytes) := do
  match kind with
  | 0 =>
      if limit < size then none
      else
        let (bytes, b) ← cut? size b
        some ({ c with out := c.out ++ bytes.toArray }, b)
  | 1 =>
      if limit < size then none
      else
        match b with
        | x :: b => some ({ c with out := c.out ++ Array.replicate size x }, b)
        | [] => none
  | 2 =>
      if limit < size then none
      else
        let (body, b) ← cut? size b
        let c' ← compressedBlock? c body
        if limit < c'.out.size - c.out.size then none else some (c', b)
  | _ => none

/-- Blocks up to the last one. Every block takes three bytes at least, so the input
itself is fuel enough. -/
def blocks? (limit : Nat) : (fuel : Bytes) → Carry → Bytes → Option (Array UInt8 × Bytes)
  | [], _, _ => none
  | _ :: fuel, c, b => do
      let (head, b) ← cut? 3 b
      let n := littleEndian head
      let (c, b) ← block? limit (n / 2 % 4) (n / 8) c b
      if n % 2 = 1 then some (c.out, b) else blocks? limit fuel c b

/-- One frame: what it holds, and what follows it. -/
def frame? (b : Bytes) : Option (Bytes × Bytes) := do
  let (mark, rest) ← cut? 4 b
  let mark := littleEndian mark
  if skippableMagic ≤ mark ∧ mark < skippableMagic + 16 then
    let (size, rest) ← cut? 4 rest
    let (_, rest) ← cut? (littleEndian size) rest
    some ([], rest)
  else if mark = magic then
    let (h, rest) ← FrameHeader.read? rest
    let (out, rest) ← blocks? (min h.window maxBlockSize) rest Carry.initial rest
    let out := out.toList
    if (h.contentSize.getD out.length) ≠ out.length then none
    else if h.checksum then
      let (sum, rest) ← cut? 4 rest
      if littleEndian sum = Checksum.trailer out then some (out, rest) else none
    else some (out, rest)
  else none

/-- Frames until the input ends. -/
def frames? : (fuel : Bytes) → Bytes → Option Bytes
  | [], _ => none
  | _ :: fuel, b => do
      let (out, rest) ← frame? b
      if rest = [] then some out
      else
        let more ← frames? fuel rest
        some (out ++ more)

/-- The text compressed in the bytes: one frame at least, and nothing after the last. -/
def decode? (b : Bytes) : Option Bytes := frames? b b

end Conflux.Zstd
