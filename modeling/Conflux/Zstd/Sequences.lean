import Conflux.Zstd.Literals

/-!
The sequences section of a block. A sequence copies so many literals and then so many
bytes from so far back in the output. Lengths and distances are codes with extra bits;
three entropy tables drive the codes, and three recent distances have codes of their
own.
-/

namespace Conflux.Zstd

/-! ### Codes -/

/-- The base values and the numbers of extra bits, code by code. -/
def literalLengthCodes : Array (Nat × Nat) :=
  #[(0, 0), (1, 0), (2, 0), (3, 0), (4, 0), (5, 0), (6, 0), (7, 0), (8, 0), (9, 0), (10, 0),
    (11, 0), (12, 0), (13, 0), (14, 0), (15, 0), (16, 1), (18, 1), (20, 1), (22, 1), (24, 2),
    (28, 2), (32, 3), (40, 3), (48, 4), (64, 6), (128, 7), (256, 8), (512, 9), (1024, 10),
    (2048, 11), (4096, 12), (8192, 13), (16384, 14), (32768, 15), (65536, 16)]

def matchLengthCodes : Array (Nat × Nat) :=
  #[(3, 0), (4, 0), (5, 0), (6, 0), (7, 0), (8, 0), (9, 0), (10, 0), (11, 0), (12, 0), (13, 0),
    (14, 0), (15, 0), (16, 0), (17, 0), (18, 0), (19, 0), (20, 0), (21, 0), (22, 0), (23, 0),
    (24, 0), (25, 0), (26, 0), (27, 0), (28, 0), (29, 0), (30, 0), (31, 0), (32, 0), (33, 0),
    (34, 0), (35, 1), (37, 1), (39, 1), (41, 1), (43, 2), (47, 2), (51, 3), (59, 3), (67, 4),
    (83, 4), (99, 5), (131, 7), (259, 8), (515, 9), (1027, 10), (2051, 11), (4099, 12),
    (8195, 13), (16387, 14), (32771, 15), (65539, 16)]

def maxOffsetCode : Nat := 31

/-- The tables used when a block brings none. -/
def defaultLiteralLengths : Fse.Table :=
  Fse.Distribution.table
    ⟨6, [4, 3, 2, 2, 2, 2, 2, 2, 2, 2, 2, 2, 2, 1, 1, 1, 2, 2, 2, 2, 2, 2, 2, 2, 2, 3, 2, 1, 1, 1,
      1, 1, -1, -1, -1, -1]⟩

def defaultMatchLengths : Fse.Table :=
  Fse.Distribution.table
    ⟨6, [1, 4, 3, 2, 2, 2, 2, 2, 2, 1, 1, 1, 1, 1, 1, 1, 1, 1, 1, 1, 1, 1, 1, 1, 1, 1, 1, 1, 1, 1,
      1, 1, 1, 1, 1, 1, 1, 1, 1, 1, 1, 1, 1, 1, 1, 1, -1, -1, -1, -1, -1, -1, -1]⟩

def defaultOffsets : Fse.Table :=
  Fse.Distribution.table
    ⟨5, [1, 1, 1, 1, 1, 1, 2, 2, 2, 1, 1, 1, 1, 1, 1, 1, 1, 1, 1, 1, 1, 1, 1, 1, -1, -1, -1, -1,
      -1]⟩

/-! ### Tables of a block -/

/-- The tables that a later block may use again. -/
structure SequenceTables where
  literalLengths : Fse.Table
  offsets : Fse.Table
  matchLengths : Fse.Table

/-- The table that a mode asks for, and what follows it. -/
def sequenceTable? (mode : Nat) (preset : Fse.Table) (known : Option Fse.Table)
    (maxAccuracy maxSymbol : Nat) (b : Bytes) : Option (Fse.Table × Bytes) :=
  match mode with
  | 0 => some (preset, b)
  | 1 =>
      match b with
      | x :: rest => if x.toNat ≤ maxSymbol then some (Fse.single x.toNat, rest) else none
      | [] => none
  | 2 => (Fse.Distribution.read? maxAccuracy maxSymbol b).map fun p => (p.1.table, p.2)
  | _ => known.map fun t => (t, b)

def SequenceTables.read? (known : Option SequenceTables) :
    Bytes → Option (SequenceTables × Bytes)
  | [] => none
  | modes :: b => do
      let m := modes.toNat
      if m % 4 ≠ 0 then none
      else
        let (ll, b) ← sequenceTable? (m / 64) defaultLiteralLengths (known.map (·.literalLengths)) 9 35 b
        let (off, b) ← sequenceTable? (m / 16 % 4) defaultOffsets (known.map (·.offsets)) 8 maxOffsetCode b
        let (ml, b) ← sequenceTable? (m / 4 % 4) defaultMatchLengths (known.map (·.matchLengths)) 9 52 b
        some (⟨ll, off, ml⟩, b)

/-- How many sequences a section has, and what follows the count. -/
def sequenceCount? : Bytes → Option (Nat × Bytes)
  | [] => none
  | a :: rest =>
      if a < 128 then some (a.toNat, rest)
      else
        match rest with
        | [] => none
        | b :: rest =>
            if a < 255 then some ((a.toNat - 128) * 256 + b.toNat, rest)
            else
              match rest with
              | [] => none
              | c :: rest => some (b.toNat + c.toNat * 256 + 0x7f00, rest)

/-! ### Running the sequences -/

/-- The three most recent distances, the latest first. -/
structure Recent where
  one : Nat
  two : Nat
  three : Nat
deriving DecidableEq, Repr

def Recent.initial : Recent := ⟨1, 4, 8⟩

/-- The distance for an offset value, and the distances then recent. A value up to
three names a recent one; without literals in front the names shift by one. -/
def Recent.resolve? (r : Recent) (value literals : Nat) : Option (Nat × Recent) :=
  if 3 < value then some (value - 3, ⟨value - 3, r.one, r.two⟩)
  else
    match value - 1 + (if literals = 0 then 1 else 0) with
    | 0 => some (r.one, r)
    | 1 => some (r.two, ⟨r.two, r.one, r.three⟩)
    | 2 => some (r.three, ⟨r.three, r.one, r.two⟩)
    | _ => if r.one ≤ 1 then none else some (r.one - 1, ⟨r.one - 1, r.one, r.two⟩)

/-- Appends bytes from `distance` back, one by one, so that they may overlap. -/
def copyBack (distance : Nat) : (count : Nat) → Array UInt8 → Array UInt8
  | 0, out => out
  | n + 1, out => copyBack distance n (out.push (out.getD (out.size - distance) 0))

/-- Appends `count` literals from `start` on. -/
def copyLiterals (literals : Array UInt8) : (start count : Nat) → Array UInt8 → Array UInt8
  | _, 0, out => out
  | start, n + 1, out => copyLiterals literals (start + 1) n (out.push (literals.getD start 0))

/-- The state of a run: the three table states, the stream, the recent distances, the
literals used so far and the output. -/
structure Run where
  literalLength : Nat
  offset : Nat
  matchLength : Nat
  stream : Backward
  recent : Recent
  used : Nat
  out : Array UInt8

def runSequence? (t : SequenceTables) (literals : Array UInt8) (last : Bool) (r : Run) :
    Option Run := do
  let lle := t.literalLengths.entry r.literalLength
  let ofe := t.offsets.entry r.offset
  let mle := t.matchLengths.entry r.matchLength
  let (offBits, s) := r.stream.read ofe.symbol
  let (mlBase, mlExtra) := matchLengthCodes.getD mle.symbol (0, 0)
  let (mlBits, s) := s.read mlExtra
  let (llBase, llExtra) := literalLengthCodes.getD lle.symbol (0, 0)
  let (llBits, s) := s.read llExtra
  let count := llBase + llBits
  let (distance, recent) ← r.recent.resolve? (Nat.pow 2 ofe.symbol + offBits) count
  if s.overdrawn ∨ literals.size < r.used + count then none
  else
    let out := copyLiterals literals r.used count r.out
    if out.size < distance then none
    else
      let out := copyBack distance (mlBase + mlBits) out
      if last then some { r with stream := s, recent, used := r.used + count, out }
      else
        let (ll, s) := lle.next s
        let (ml, s) := mle.next s
        let (off, s) := ofe.next s
        some ⟨ll, off, ml, s, recent, r.used + count, out⟩

def runSequences? (t : SequenceTables) (literals : Array UInt8) : (count : Nat) → Run → Option Run
  | 0, r => some r
  | n + 1, r => (runSequence? t literals (n == 0) r).bind (runSequences? t literals n)

/-! ### Compressed blocks -/

/-- What blocks of one frame hand on. -/
structure Carry where
  huffman : Option Huffman.Table
  sequences : Option SequenceTables
  recent : Recent
  out : Array UInt8

def Carry.initial : Carry := ⟨none, none, .initial, #[]⟩

/-- The output after a compressed block. -/
def compressedBlock? (c : Carry) (b : Bytes) : Option Carry := do
  let (literals, b, huffman) ← literals? c.huffman b
  let (count, b) ← sequenceCount? b
  if count = 0 then
    if b = [] then
      some { c with huffman, out := copyLiterals literals 0 literals.size c.out }
    else none
  else
    let (t, b) ← SequenceTables.read? c.sequences b
    let s ← Backward.ofBytes? b
    let (ll, s) := t.literalLengths.start s
    let (off, s) := t.offsets.start s
    let (ml, s) := t.matchLengths.start s
    let r ← runSequences? t literals count ⟨ll, off, ml, s, c.recent, 0, c.out⟩
    if r.stream.finished then
      some ⟨huffman, some t, r.recent, copyLiterals literals r.used (literals.size - r.used) r.out⟩
    else none

end Conflux.Zstd
