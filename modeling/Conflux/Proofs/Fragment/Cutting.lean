import Conflux.Proofs.Fragment
import Conflux.Zstd.Plain
import Mathlib.Algebra.Order.Floor.Div

/-!
How a message is cut. Whatever the compressor makes of it is not empty, so its pieces can be
counted: as many as the ceiling goes into the length, rounded up, each of them full but the last,
which is not empty.
The cutting can as well be told as a loop that goes on from the place where the last piece ended,
and comes to the same pieces; every place is one that the header of a fragment can hold.
-/

namespace Conflux

theorem Message.encode_ne_nil (m : Message) : m.encode ≠ [] := by
  rw [encode, toJson, Json.compact]
  exact List.cons_ne_nil _ _

/-! ### Pieces by their number -/

namespace Bytes

variable {n : Nat}

theorem lt_ceilDiv_iff (hn : n ≠ 0) {i length : Nat} : i < length ⌈/⌉ n ↔ i * n < length := by
  rw [← not_le, ceilDiv_le_iff_le_mul (Nat.pos_of_ne_zero hn), not_le, Nat.mul_comm]

theorem ceilDiv_of_le {length : Nat} (hpos : 0 < length) (hle : length ≤ n) :
    length ⌈/⌉ n = 1 := by
  have hn : n ≠ 0 := by omega
  apply Nat.le_antisymm
  · rw [ceilDiv_le_iff_le_mul (Nat.pos_of_ne_zero hn), Nat.mul_one]
    exact hle
  · rw [Nat.succ_le_iff, lt_ceilDiv_iff hn, Nat.zero_mul]
    exact hpos

theorem ceilDiv_of_lt (hn : n ≠ 0) {length : Nat} (hlt : n < length) :
    length ⌈/⌉ n = (length - n) ⌈/⌉ n + 1 := by
  rw [Nat.ceilDiv_eq_add_pred_div, Nat.ceilDiv_eq_add_pred_div,
    ← Nat.add_div_right _ (Nat.pos_of_ne_zero hn)]
  congr 1
  omega

/-- The pieces begin at the multiples of `n`, as many as lie within. -/
theorem pieces_eq_map (hn : n ≠ 0) {b : Bytes} (hb : b ≠ []) :
    pieces n b = (List.range (b.length ⌈/⌉ n)).map fun i => (b.drop (i * n)).take n := by
  induction b using cutting hn with
  | last b hle =>
      rw [pieces_of_le hle, ceilDiv_of_le (List.length_pos_of_ne_nil hb) hle, List.range_one,
        List.map_singleton, Nat.zero_mul, List.drop_zero, List.take_of_length_le hle]
  | more b hlt ih =>
      have hrest : b.drop n ≠ [] := by
        apply List.ne_nil_of_length_pos
        rw [List.length_drop]
        omega
      rw [pieces_of_lt hn hlt, ceilDiv_of_lt hn hlt, List.range_succ_eq_map, List.map_cons,
        List.map_map, ih hrest, List.length_drop, Nat.zero_mul, List.drop_zero]
      refine congrArg _ (List.map_congr_left fun i _ => ?_)
      rw [Function.comp_apply, List.drop_drop, Nat.succ_mul, Nat.add_comm n]

theorem length_pieces (hn : n ≠ 0) {b : Bytes} (hb : b ≠ []) :
    (pieces n b).length = b.length ⌈/⌉ n := by
  rw [pieces_eq_map hn hb, List.length_map, List.length_range]

/-! ### Cutting as a loop -/

/-- The pieces from the place `offset` on, each with its place: a piece ends `ceiling` bytes
further on or where `b` ends, and after the latter there is no other. -/
def cutFrom (ceiling : Nat) (hceiling : ceiling ≠ 0) (b : Bytes) (offset : Nat) :
    List (Nat × Bytes) :=
  let stop := min (offset + ceiling) b.length
  let piece := (b.drop offset).take (stop - offset)
  if b.length ≤ stop then [(offset, piece)]
  else (offset, piece) :: cutFrom ceiling hceiling b stop
termination_by b.length - offset

theorem cutFrom_eq_mapIdx (hn : n ≠ 0) (b : Bytes) (offset : Nat) :
    cutFrom n hn b offset = (pieces n (b.drop offset)).mapIdx fun i p => (offset + i * n, p) := by
  induction offset using cutFrom.induct n hn b with
  | case1 offset stop hstop =>
      have hle : (b.drop offset).length ≤ n := by
        rw [List.length_drop]
        omega
      have hpiece : (b.drop offset).take (stop - offset) = b.drop offset := by
        apply List.take_of_length_le
        rw [List.length_drop]
        omega
      rw [cutFrom, if_pos hstop, hpiece, pieces_of_le hle, List.mapIdx_singleton, Nat.zero_mul,
        Nat.add_zero]
  | case2 offset stop hstop ih =>
      have heq : stop = offset + n := by omega
      have hlt : n < (b.drop offset).length := by
        rw [List.length_drop]
        omega
      have hpiece : (b.drop offset).take (stop - offset) = (b.drop offset).take n := by
        rw [heq, Nat.add_sub_cancel_left]
      rw [cutFrom, if_neg hstop, ih, hpiece, pieces_of_lt hn hlt, List.mapIdx_cons, Nat.zero_mul,
        Nat.add_zero, heq, List.drop_drop]
      refine congrArg _ (congrArg (List.mapIdx · _) ?_)
      funext i p
      rw [Nat.succ_mul, Nat.add_assoc, Nat.add_comm n]

end Bytes

/-! ### The fragments of a message -/

section

variable [Compression]

namespace Fragment

variable {m : Message} {encoding : Encoding} {encoded : Bytes} {ceiling : Nat}
  {timestamp : UInt64} {fs : List Fragment}

theorem ofMessage_of_bad_ceiling (h : ceiling = 0 ∨ maxPayload < ceiling) :
    ofMessage m encoding ceiling timestamp = .error (.tooLarge ceiling) :=
  if_pos h

theorem ofMessage_of_not_encoded (h : ¬ (ceiling = 0 ∨ maxPayload < ceiling))
    (hencoded : encoding.encode? m.encode = none) :
    ofMessage m encoding ceiling timestamp = .error .compression := by
  rw [ofMessage, if_neg h, hencoded]

theorem ofMessage_of_long (h : ¬ (ceiling = 0 ∨ maxPayload < ceiling))
    (hencoded : encoding.encode? m.encode = some encoded)
    (hlength : UInt32.size ≤ encoded.length) :
    ofMessage m encoding ceiling timestamp = .error (.tooLarge encoded.length) := by
  rw [ofMessage, if_neg h, hencoded]
  exact if_pos hlength

theorem exists_ofMessage (timestamp : UInt64) (h : ¬ (ceiling = 0 ∨ maxPayload < ceiling))
    (hencoded : encoding.encode? m.encode = some encoded)
    (hlength : encoded.length < UInt32.size) :
    ∃ fs, ofMessage m encoding ceiling timestamp = .ok fs := by
  rw [ofMessage, if_neg h, hencoded]
  exact ⟨_, if_neg (Nat.not_le.2 hlength)⟩

/-- The ceiling is the only thing that is ever complained about with its own number. -/
theorem ofMessage_eq_error_iff :
    ofMessage m encoding ceiling timestamp = .error (.tooLarge ceiling) ↔
      ceiling = 0 ∨ maxPayload < ceiling := by
  refine ⟨fun h => ?_, ofMessage_of_bad_ceiling⟩
  by_contra hceiling
  cases hencoded : encoding.encode? m.encode with
  | none =>
      rw [ofMessage_of_not_encoded hceiling hencoded] at h
      cases h
  | some encoded =>
      by_cases hlength : UInt32.size ≤ encoded.length
      · rw [ofMessage_of_long hceiling hencoded hlength] at h
        have hsame : encoded.length = ceiling := by injections
        have hsize : UInt32.size = 4294967296 := rfl
        rw [maxPayload] at hceiling
        omega
      · obtain ⟨fs, hfs⟩ :=
          exists_ofMessage timestamp hceiling hencoded (Nat.lt_of_not_le hlength)
        cases hfs.symm.trans h

end Fragment

namespace Sending

variable {s : Sending} {f : Fragment} {i : Nat}

theorem encoded_ne_nil (s : Sending) : s.encoded ≠ [] :=
  Encoding.ne_nil_of_encode? s.message.encode_ne_nil s.encode?_eq

theorem ceiling_ne_zero (s : Sending) : s.ceiling ≠ 0 := s.fragments_eq.1

theorem length_fragments (s : Sending) :
    s.fragments.length = s.encoded.length ⌈/⌉ s.ceiling := by
  obtain ⟨hceiling, _, hfragments⟩ := s.fragments_eq
  rw [hfragments, List.length_mapIdx, Bytes.length_pieces hceiling s.encoded_ne_nil]

/-- The fragment with the number `i`. -/
theorem getElem?_fragments (h : s.fragments[i]? = some f) :
    f = ⟨s.header (UInt32.ofNat (i * s.ceiling)),
      (s.encoded.drop (i * s.ceiling)).take s.ceiling⟩ := by
  obtain ⟨hceiling, _, hfragments⟩ := s.fragments_eq
  rw [hfragments, Bytes.pieces_eq_map hceiling s.encoded_ne_nil, List.getElem?_mapIdx,
    List.getElem?_map] at h
  obtain ⟨p, hp, rfl⟩ := Option.map_eq_some_iff.1 h
  obtain ⟨j, hj, rfl⟩ := Option.map_eq_some_iff.1 hp
  obtain ⟨_, rfl⟩ := List.getElem?_eq_some_iff.1 hj
  rw [List.getElem_range]

theorem mul_lt_of_getElem? (h : s.fragments[i]? = some f) :
    i * s.ceiling < s.encoded.length := by
  obtain ⟨hi, _⟩ := List.getElem?_eq_some_iff.1 h
  rw [length_fragments, Bytes.lt_ceilDiv_iff s.ceiling_ne_zero] at hi
  exact hi

theorem toNat_offset (h : s.fragments[i]? = some f) :
    f.header.offset.toNat = i * s.ceiling := by
  have hlt := mul_lt_of_getElem? h
  rw [getElem?_fragments h]
  exact UInt32.toNat_ofNat_of_lt (hlt.trans s.length_lt)

theorem length_payload (h : s.fragments[i]? = some f) :
    f.payload.length = min s.ceiling (s.encoded.length - i * s.ceiling) := by
  rw [getElem?_fragments h, List.length_take, List.length_drop]

theorem map_payload (s : Sending) :
    s.fragments.map (·.payload) = Bytes.pieces s.ceiling s.encoded := by
  rw [s.fragments_eq.2.2, List.mapIdx_eq_zipIdx_map, List.map_map]
  exact List.zipIdx_map_fst 0 _

/-- The loop comes to the places and payloads of the fragments. -/
theorem map_place_payload (s : Sending) :
    s.fragments.map (fun f => (f.header.offset.toNat, f.payload)) =
      Bytes.cutFrom s.ceiling s.ceiling_ne_zero s.encoded 0 := by
  rw [Bytes.cutFrom_eq_mapIdx, List.drop_zero, ← map_payload]
  refine List.ext_getElem? fun i => ?_
  rw [List.getElem?_map, List.getElem?_mapIdx, List.getElem?_map]
  cases h : s.fragments[i]? with
  | none => rfl
  | some f =>
      rw [Option.map_some, Option.map_some, Option.map_some, toNat_offset h, Nat.zero_add]

end Sending

namespace Fragment

/-- The fragments `fs` tile what the message was encoded to, under one header but for the place
of each. -/
structure Tile (m : Message) (encoding : Encoding) (encoded : Bytes) (ceiling : Nat)
    (timestamp : UInt64) (fs : List Fragment) : Prop where
  count : fs.length = encoded.length ⌈/⌉ ceiling
  place : ∀ i f, fs[i]? = some f → f.header.offset.toNat = i * ceiling
  full : ∀ i f, fs[i]? = some f → i + 1 < fs.length → f.payload.length = ceiling
  last : ∀ i f, fs[i]? = some f → i + 1 = fs.length →
    1 ≤ f.payload.length ∧ f.payload.length ≤ ceiling
  joined : (fs.map (·.payload)).flatten = encoded
  stream : ∀ f ∈ fs, f.header.stream = streamId m.key
  destination : ∀ f ∈ fs, f.header.destination = hubHash m.destination
  total : ∀ f ∈ fs, f.header.total.toNat = encoded.length
  fits : ∀ f ∈ fs, f.header.offset.toNat + f.payload.length ≤ f.header.total.toNat
  timestamp : ∀ f ∈ fs, f.header.timestamp = timestamp
  encoding : ∀ f ∈ fs, f.header.encoding = encoding.code
  version : ∀ f ∈ fs, f.header.version = Header.wireVersion ∧ f.header.reserved = (0, 0)

end Fragment

theorem Sending.tile (s : Sending) :
    Fragment.Tile s.message s.encoding s.encoded s.ceiling s.timestamp s.fragments where
  count := s.length_fragments
  place := fun i f h => s.toNat_offset h
  full := fun i f h hi => by
    rw [length_fragments, Bytes.lt_ceilDiv_iff s.ceiling_ne_zero, Nat.succ_mul] at hi
    rw [length_payload h]
    omega
  last := fun i f h hi => by
    have hpos := Nat.pos_of_ne_zero s.ceiling_ne_zero
    have hlt := mul_lt_of_getElem? h
    rw [length_payload h]
    omega
  joined := by
    rw [map_payload, Bytes.flatten_pieces s.ceiling_ne_zero]
  stream := fun f hf => by rw [header_of_mem hf, header]
  destination := fun f hf => by rw [header_of_mem hf, header]
  total := fun f hf => by
    rw [total_of_mem hf, s.toNat_total]
  fits := fun f hf => by
    rw [total_of_mem hf, s.toNat_total]
    exact s.fits hf
  timestamp := fun f hf => by rw [header_of_mem hf, header]
  encoding := fun f hf => by rw [header_of_mem hf, header]
  version := fun f hf => by
    rw [header_of_mem hf]
    exact ⟨rfl, rfl⟩

/-- A ceiling of nothing or of more than a datagram can carry is refused, and no other. With one
that is allowed the message is cut, unless the compressor gives up or makes more bytes of it than a
header can say: into as many fragments as the ceiling goes into the length, rounded up. They begin
at the multiples of the ceiling, they are full up to the last, which is not empty, and their
payloads one after the other are what the message was encoded to; their headers agree in everything
but the place, and no fragment reaches over the end. The loop that goes on from where the last
piece ended comes to its end, and to the same places and payloads. -/
theorem Fragment.cut_tiles (m : Message) (encoding : Encoding) (ceiling : Nat)
    (timestamp : UInt64) :
    (ofMessage m encoding ceiling timestamp = .error (.tooLarge ceiling) ↔
        ceiling = 0 ∨ 65000 < ceiling) ∧
      ∀ hceiling : ceiling ≠ 0, ceiling ≤ 65000 →
        (encoding.encode? m.encode = none →
          ofMessage m encoding ceiling timestamp = .error .compression) ∧
        ∀ encoded, encoding.encode? m.encode = some encoded →
          (encoded.length < 2 ^ 32 →
            ∃ fs, ofMessage m encoding ceiling timestamp = .ok fs ∧
              Tile m encoding encoded ceiling timestamp fs ∧
              fs.map (fun f => (f.header.offset.toNat, f.payload)) =
                Bytes.cutFrom ceiling hceiling encoded 0) ∧
          (2 ^ 32 ≤ encoded.length →
            ofMessage m encoding ceiling timestamp = .error (.tooLarge encoded.length)) := by
  refine ⟨ofMessage_eq_error_iff, fun hpos hmax => ?_⟩
  have hceiling : ¬ (ceiling = 0 ∨ maxPayload < ceiling) :=
    not_or.2 ⟨hpos, Nat.not_lt.2 hmax⟩
  refine ⟨ofMessage_of_not_encoded hceiling, fun encoded hencoded => ?_⟩
  refine ⟨fun hlength => ?_, ofMessage_of_long hceiling hencoded⟩
  obtain ⟨fs, hfs⟩ := exists_ofMessage timestamp hceiling hencoded hlength
  let s : Sending := ⟨m, encoding, ceiling, timestamp, fs, hfs⟩
  obtain rfl : s.encoded = encoded := Option.some.inj (s.encode?_eq.symm.trans hencoded)
  exact ⟨fs, hfs, s.tile, s.map_place_payload⟩

end

open scoped Zstd

/-- What comes out of the compressor goes into three fragments. -/
theorem Fragment.cut_tiles_compressed :
    let m : Message := ⟨"hub.A", "A", "StatusBundle", "0.2", "大阪", [6, 7, 8]⟩
    ∃ encoded fs, Encoding.zstd.encode? m.encode = some encoded ∧
      ofMessage m .zstd 40 8 = .ok fs ∧ Tile m .zstd encoded 40 8 fs ∧ fs.length = 3 := by
  intro m
  have hencoded : Encoding.zstd.encode? m.encode = some (Zstd.plainFrame m.encode) := rfl
  have hlength : (Zstd.plainFrame m.encode).length = 114 := by decide +kernel
  obtain ⟨fs, hfs, htile, -⟩ := ((cut_tiles m .zstd 40 8).2 (by decide) (by decide)).2 _ hencoded
    |>.1 (by rw [hlength]; decide)
  refine ⟨_, fs, hencoded, hfs, htile, ?_⟩
  rw [htile.count, hlength]
  rfl

end Conflux
