import Conflux.Compression
import Conflux.Zstd.Frame

/-!
Frames of plain blocks. A compressor may leave a content as it is, in blocks that are marked as
plain, and that is what it does with bytes that have no pattern. Always to do so is the
simplest way to write what every reader of frames takes, and with it a compressor that never
gives up.
-/

namespace Conflux.Zstd

def littleEndianBytes (width n : Nat) : Bytes := (Bytes.ofNat width n).reverse

/-- A plain block for each piece, the last one marked. -/
def plainBlocks : List Bytes → Bytes
  | [] => []
  | [p] => littleEndianBytes 3 (p.length * 8 + 1) ++ p
  | p :: ps => littleEndianBytes 3 (p.length * 8) ++ p ++ plainBlocks ps

/-- The header names a window of 2 MiB. -/
def plainFrame (b : Bytes) : Bytes :=
  littleEndianBytes 4 magic ++ [0x00, 0x58] ++ plainBlocks (Bytes.pieces maxBlockSize b)

/-! ### Reading them back -/

theorem littleEndian_bytes (width n : Nat) :
    littleEndian (littleEndianBytes width n) = n % Nat.pow 256 width := by
  rw [littleEndian, littleEndianBytes, List.foldr_reverse]
  exact Bytes.toNat_ofNat width n

theorem cut?_append {front : Bytes} {n : Nat} (h : front.length = n) (rest : Bytes) :
    cut? n (front ++ rest) = some (front, rest) := by
  rw [cut?, List.take_left' h, List.drop_left' h]
  exact if_neg (by omega)

theorem cut?_littleEndianBytes (width n : Nat) (rest : Bytes) :
    cut? width (littleEndianBytes width n ++ rest) = some (littleEndianBytes width n, rest) :=
  cut?_append (by simp [littleEndianBytes]) rest

theorem block?_plain {limit : Nat} {p : Bytes} (hp : p.length ≤ limit) (c : Carry)
    (rest : Bytes) :
    block? limit 0 p.length c (p ++ rest) = some ({ c with out := c.out ++ p.toArray }, rest) := by
  simp only [block?, if_neg (Nat.not_lt.2 hp), cut?_append rfl, Option.bind_eq_bind,
    Option.bind_some]

/-- A plain block is taken off, and reading goes on behind it unless it is the last. -/
theorem blocks?_plain {limit last : Nat} (hlimit : limit ≤ maxBlockSize) (hlast : last < 2)
    {p : Bytes} (hp : p.length ≤ limit) (x : UInt8) (fuel : Bytes) (c : Carry) (rest : Bytes) :
    blocks? limit (x :: fuel) c (littleEndianBytes 3 (p.length * 8 + last) ++ p ++ rest) =
      if last = 1 then some (c.out ++ p.toArray, rest)
      else blocks? limit fuel { c with out := c.out ++ p.toArray } rest := by
  have hsize : p.length * 8 + last < Nat.pow 256 3 := by
    have hmax : maxBlockSize = 131072 := rfl
    have hpow : Nat.pow 256 3 = 16777216 := rfl
    omega
  have hkind : (p.length * 8 + last) / 2 % 4 = 0 := by omega
  have hlength : (p.length * 8 + last) / 8 = p.length := by omega
  have hflag : (p.length * 8 + last) % 2 = last := by omega
  simp only [blocks?, List.append_assoc, cut?_littleEndianBytes, Option.bind_eq_bind,
    Option.bind_some, littleEndian_bytes, Nat.mod_eq_of_lt hsize, hkind, hlength, hflag,
    block?_plain hp]

/-- Plain blocks are taken off one by one. -/
theorem blocks?_plainBlocks {limit : Nat} (hlimit : limit ≤ maxBlockSize) {ps : List Bytes}
    (hne : ps ≠ []) (hps : ∀ p ∈ ps, p.length ≤ limit) {fuel : Bytes}
    (hfuel : ps.length ≤ fuel.length) (c : Carry) :
    blocks? limit fuel c (plainBlocks ps) = some (c.out ++ ps.flatten.toArray, []) := by
  induction ps generalizing fuel c with
  | nil => exact absurd rfl hne
  | cons p ps ih =>
      cases fuel with
      | nil => exact absurd hfuel (Nat.not_succ_le_zero _)
      | cons x fuel =>
          have hp : p.length ≤ limit := hps p List.mem_cons_self
          cases ps with
          | nil =>
              have hone := blocks?_plain hlimit (by decide : 1 < 2) hp x fuel c []
              rw [List.append_nil] at hone
              rw [plainBlocks, hone, if_pos rfl, List.flatten_singleton]
          | cons q ps =>
              have hmore := blocks?_plain hlimit (by decide : 0 < 2) hp x fuel c
                (plainBlocks (q :: ps))
              rw [Nat.add_zero] at hmore
              rw [plainBlocks.eq_3 _ _ (List.cons_ne_nil q ps), hmore, if_neg Nat.zero_ne_one,
                ih (List.cons_ne_nil q ps) (fun r hr => hps r (List.mem_cons_of_mem p hr))
                  (Nat.le_of_succ_le_succ hfuel)]
              simp

theorem length_le_plainBlocks (ps : List Bytes) : ps.length ≤ (plainBlocks ps).length := by
  induction ps using plainBlocks.induct with
  | case1 => exact Nat.le_refl 0
  | case2 p =>
      rw [plainBlocks, List.length_append, littleEndianBytes, List.length_reverse,
        Bytes.length_ofNat, List.length_singleton]
      omega
  | case3 p ps hne ih =>
      rw [plainBlocks.eq_3 _ _ hne, List.length_append, List.length_append, List.length_cons]
      simp only [littleEndianBytes, List.length_reverse, Bytes.length_ofNat]
      omega

theorem read?_plain (rest : Bytes) :
    FrameHeader.read? (0x00 :: 0x58 :: rest) = some (⟨0x200000, none, false⟩, rest) := by
  rfl

theorem frame?_plainFrame (b : Bytes) : frame? (plainFrame b) = some (b, []) := by
  have hmax : maxBlockSize ≠ 0 := by decide
  have hmagic : magic % Nat.pow 256 4 = magic := rfl
  have hwindow : min 0x200000 maxBlockSize = maxBlockSize := rfl
  have hskippable : ¬ (skippableMagic ≤ magic ∧ magic < skippableMagic + 16) := by decide
  have hblocks (fuel : Bytes) (hfuel : (Bytes.pieces maxBlockSize b).length ≤ fuel.length) :=
    blocks?_plainBlocks (Nat.le_refl maxBlockSize) (Bytes.pieces_ne_nil maxBlockSize b)
      (Bytes.length_le_of_mem_pieces hmax b) hfuel Carry.initial
  rw [plainFrame, frame?, List.append_assoc, cut?_littleEndianBytes]
  simp only [Option.bind_eq_bind, Option.bind_some, littleEndian_bytes, hmagic, if_neg hskippable,
    if_true, List.cons_append, List.nil_append, read?_plain, hwindow,
    hblocks _ (length_le_plainBlocks _), Bytes.flatten_pieces hmax]
  simp [Carry.initial]

theorem decode?_plainFrame (b : Bytes) : decode? (plainFrame b) = some b := by
  have hframe := frame?_plainFrame b
  rw [decode?]
  cases hb : plainFrame b with
  | nil =>
      rw [hb] at hframe
      cases hframe
  | cons x bs =>
      rw [hb] at hframe
      simp only [frames?, hframe, Option.bind_eq_bind, Option.bind_some, if_true]

theorem plainFrame_ne_nil (b : Bytes) : plainFrame b ≠ [] := by
  intro hnil
  have hframe := frame?_plainFrame b
  rw [hnil] at hframe
  cases hframe

/-- Plain frames are written, and all frames are read. -/
scoped instance plain : Compression where
  compress? b := some (plainFrame b)
  decompress? := decode?
  ne_nil_of_compress? {b c} h := by
    obtain rfl := Option.some.inj h
    exact plainFrame_ne_nil b
  decompress?_of_compress? {b c} h := by
    obtain rfl := Option.some.inj h
    exact decode?_plainFrame b

end Conflux.Zstd
