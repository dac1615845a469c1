import Conflux.Bytes

/-!
The BLAKE3 hash with 32 bytes of output. The input is cut into chunks of 1024 bytes
and each chunk into blocks of 64; the chunks are the leaves of a binary tree whose
left branch holds the largest power of two of them that leaves the right branch
something. Every node is a last call of the compression function that has not been
made yet, since the root makes it with a flag of its own.
-/

namespace Conflux

/-- A hash value. -/
structure Digest where
  bytes : Bytes
  length_eq : bytes.length = 32
deriving DecidableEq

namespace Digest

instance : Hashable Digest := ⟨fun d => hash d.bytes⟩

instance : Repr Digest := ⟨fun d _ => Std.Format.text (Bytes.toHex d.bytes)⟩

/-- Thirty-two zero bytes. -/
def zero : Digest := ⟨List.replicate 32 0, List.length_replicate⟩

instance : Inhabited Digest := ⟨zero⟩

/-- The first 32 bytes of a text that has so many. -/
def ofBytes (b : Bytes) (h : 32 ≤ b.length) : Digest :=
  ⟨b.take 32, by rw [List.length_take]; omega⟩

def toHex (d : Digest) : String := Bytes.toHex d.bytes

end Digest

namespace Hash

abbrev Words8 := Vector UInt32 8
abbrev Words16 := Vector UInt32 16

def initial : Words8 :=
  #v[0x6a09e667, 0xbb67ae85, 0x3c6ef372, 0xa54ff53a, 0x510e527f, 0x9b05688c, 0x1f83d9ab, 0x5be0cd19]

/-! ### Compression -/

def rotateRight (x : UInt32) (n : UInt32) : UInt32 := (x >>> n) ||| (x <<< (32 - n))

/-- One quarter of a round: four words of the state take in two words of the block. -/
def mix (v : Words16) (a b c d : Fin 16) (x y : UInt32) : Words16 :=
  let va := v[a] + v[b] + x
  let vd := rotateRight (v[d] ^^^ va) 16
  let vc := v[c] + vd
  let vb := rotateRight (v[b] ^^^ vc) 12
  let va := va + vb + y
  let vd := rotateRight (vd ^^^ va) 8
  let vc := vc + vd
  let vb := rotateRight (vb ^^^ vc) 7
  (((v.set a va).set b vb).set c vc).set d vd

/-- Columns, then diagonals. -/
def round (v : Words16) (m : Words16) : Words16 :=
  let v := mix v 0 4 8 12 m[0] m[1]
  let v := mix v 1 5 9 13 m[2] m[3]
  let v := mix v 2 6 10 14 m[4] m[5]
  let v := mix v 3 7 11 15 m[6] m[7]
  let v := mix v 0 5 10 15 m[8] m[9]
  let v := mix v 1 6 11 12 m[10] m[11]
  let v := mix v 2 7 8 13 m[12] m[13]
  mix v 3 4 9 14 m[14] m[15]

/-- The order in which the next round takes the words of the block. -/
def permute (m : Words16) : Words16 :=
  #v[m[2], m[6], m[3], m[10], m[7], m[0], m[4], m[13],
    m[1], m[11], m[12], m[5], m[9], m[14], m[15], m[8]]

def rounds : Nat → Words16 → Words16 → Words16
  | 0, v, _ => v
  | n + 1, v, m => rounds n (round v m) (permute m)

/-- A call of the compression function. -/
structure Node where
  chain : Words8
  block : Words16
  counter : UInt64
  blockLength : UInt32
  flags : UInt32

def Node.compress (n : Node) : Words8 :=
  let h := n.chain
  let v := rounds 7
    #v[h[0], h[1], h[2], h[3], h[4], h[5], h[6], h[7],
      initial[0], initial[1], initial[2], initial[3],
      n.counter.toUInt32, (n.counter >>> 32).toUInt32, n.blockLength, n.flags] n.block
  #v[v[0] ^^^ v[8], v[1] ^^^ v[9], v[2] ^^^ v[10], v[3] ^^^ v[11],
    v[4] ^^^ v[12], v[5] ^^^ v[13], v[6] ^^^ v[14], v[7] ^^^ v[15]]

def chunkStart : UInt32 := 1
def chunkEnd : UInt32 := 2
def parentFlag : UInt32 := 4
def rootFlag : UInt32 := 8

def Node.root (n : Node) : Words8 := { n with flags := n.flags ||| rootFlag }.compress

/-! ### Chunks -/

/-- Four bytes, the least significant first. -/
def word (b : Bytes) (i : Nat) : UInt32 :=
  (b.getD (4 * i) 0).toUInt32 ||| (b.getD (4 * i + 1) 0).toUInt32 <<< 8 |||
    (b.getD (4 * i + 2) 0).toUInt32 <<< 16 ||| (b.getD (4 * i + 3) 0).toUInt32 <<< 24

/-- The sixteen words of a block, zeros where it is short. -/
def blockWords (b : Bytes) : Words16 := Vector.ofFn fun i => word b i.val

/-- The node of a chunk, block by block; `first` says that no block came before. -/
def chunkBlocks (counter : UInt64) (chain : Words8) (first : Bool) : List Bytes → Node
  | [] => ⟨chain, blockWords [], counter, 0, chunkStart ||| chunkEnd⟩
  | [b] => ⟨chain, blockWords b, counter, UInt32.ofNat b.length,
      (if first then chunkStart else 0) ||| chunkEnd⟩
  | b :: c :: rest =>
      let n : Node := ⟨chain, blockWords b, counter, UInt32.ofNat b.length,
        if first then chunkStart else 0⟩
      chunkBlocks counter n.compress false (c :: rest)

def chunk (counter : Nat) (b : Bytes) : Node :=
  chunkBlocks (UInt64.ofNat counter) initial true (Bytes.pieces 64 b)

/-! ### The tree -/

def parent (l r : Words8) : Node :=
  ⟨initial, #v[l[0], l[1], l[2], l[3], l[4], l[5], l[6], l[7],
    r[0], r[1], r[2], r[3], r[4], r[5], r[6], r[7]], 0, 64, parentFlag⟩

/-- How many of `n` leaves, two at least, go into the left branch. -/
def leftCount (n : Nat) : Nat := Nat.pow 2 (n - 1).log2

theorem leftCount_pos (n : Nat) : 0 < leftCount n := Nat.two_pow_pos _

theorem leftCount_lt {n : Nat} (h : 2 ≤ n) : leftCount n < n := by
  have : leftCount n ≤ n - 1 := Nat.log2_self_le (by omega)
  omega

theorem length_left_lt {l : List Node} (h : 2 ≤ l.length) :
    (l.take (leftCount l.length)).length < l.length := by
  have := leftCount_lt h
  rw [List.length_take]
  omega

theorem length_right_lt {l : List Node} (h : 2 ≤ l.length) :
    (l.drop (leftCount l.length)).length < l.length := by
  have := leftCount_pos l.length
  rw [List.length_drop]
  omega

/-- The root over a row of leaves; a row without leaves has none. -/
def tree? (leaves : List Node) : Option Node :=
  match leaves with
  | [] => none
  | [n] => some n
  | a :: b :: rest =>
      let l := a :: b :: rest
      match tree? (l.take (leftCount l.length)), tree? (l.drop (leftCount l.length)) with
      | some l, some r => some (parent l.compress r.compress)
      | _, _ => none
termination_by leaves.length
decreasing_by
  · exact length_left_lt (Nat.le_add_left 2 rest.length)
  · exact length_right_lt (Nat.le_add_left 2 rest.length)

def leaves (b : Bytes) : List Node := (Bytes.pieces 1024 b).mapIdx chunk

def wordBytes (w : UInt32) : Bytes :=
  [w.toUInt8, (w >>> 8).toUInt8, (w >>> 16).toUInt8, (w >>> 24).toUInt8]

def wordsBytes (v : Words8) : Bytes := v.toList.flatMap wordBytes

theorem length_wordsBytes (v : Words8) : (wordsBytes v).length = 32 := by
  have h (l : List UInt32) : (l.flatMap wordBytes).length = 4 * l.length := by
    induction l with
    | nil => rfl
    | cons w l ih => simp [wordBytes, ih]; omega
  simp [wordsBytes, h]

/-- There is always a chunk, so the other case of `tree?` does not occur. -/
def digest (b : Bytes) : Digest :=
  ⟨wordsBytes (((tree? (leaves b)).getD (chunk 0 [])).root), length_wordsBytes _⟩

def digestText (s : String) : Digest := digest (Bytes.ofText s)

end Hash

end Conflux
