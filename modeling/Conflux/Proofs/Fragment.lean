import Conflux.Assembler
import Conflux.Proofs.Content
import Mathlib.Algebra.GroupWithZero.Nat
import Mathlib.Data.List.Basic

/-!
From a message to its datagrams and back to its bytes. A datagram that was written reads
back as the fragment that it was written from. The fragments of a message share all of
their header but the offset, and their payloads tile the encoded message: one begins where
the other ends, so the offsets ascend, and read one after the other they are all of it.
-/

namespace Conflux

/-! ### Datagrams -/

namespace Header

/-- The fields before it are passed over. -/
theorem numberAt_skip {front : Bytes} {length : Nat} (h : front.length = length) (b : Bytes)
    (start width : Nat) :
    numberAt (front ++ b) (length + start) width = numberAt b start width := by
  rw [numberAt, numberAt, ← List.drop_drop, List.drop_left' h]

theorem numberAt_ofNat (width n : Nat) (rest : Bytes) :
    numberAt (Bytes.ofNat width n ++ rest) 0 width = n % Nat.pow 256 width := by
  rw [numberAt, List.drop_zero, List.take_left' (Bytes.length_ofNat width n), Bytes.toNat_ofNat]

/-- What is written as a header reads back, whatever follows it. -/
theorem ofBytes_toBytes (h : Header) (rest : Bytes) (hlength : 84 ≤ (h.toBytes ++ rest).length) :
    ofBytes (h.toBytes ++ rest) hlength = h := by
  obtain ⟨⟨stream, hstream⟩, ⟨destination, hdestination⟩, timestamp, total, offset, encoding,
    version, reserved⟩ := h
  -- The numbers, each found behind the fields before it.
  have htimestamp (b : Bytes) : UInt64.ofNat (numberAt (stream ++ (destination ++
      (Bytes.ofNat 8 timestamp.toNat ++ b))) 64 8) = timestamp := by
    rw [show 64 = 32 + (32 + 0) from rfl, numberAt_skip hstream, numberAt_skip hdestination,
      numberAt_ofNat, Nat.mod_eq_of_lt timestamp.toNat_lt, UInt64.ofNat_toNat]
  have htotal (b : Bytes) : UInt32.ofNat (numberAt (stream ++ (destination ++
      (Bytes.ofNat 8 timestamp.toNat ++ (Bytes.ofNat 4 total.toNat ++ b)))) 72 4) = total := by
    rw [show 72 = 32 + (32 + (8 + 0)) from rfl, numberAt_skip hstream, numberAt_skip hdestination,
      numberAt_skip (Bytes.length_ofNat 8 _), numberAt_ofNat, Nat.mod_eq_of_lt total.toNat_lt,
      UInt32.ofNat_toNat]
  have hoffset (b : Bytes) : UInt32.ofNat (numberAt (stream ++ (destination ++
      (Bytes.ofNat 8 timestamp.toNat ++ (Bytes.ofNat 4 total.toNat ++
        (Bytes.ofNat 4 offset.toNat ++ b))))) 76 4) = offset := by
    rw [show 76 = 32 + (32 + (8 + (4 + 0))) from rfl, numberAt_skip hstream,
      numberAt_skip hdestination, numberAt_skip (Bytes.length_ofNat 8 _),
      numberAt_skip (Bytes.length_ofNat 4 _), numberAt_ofNat, Nat.mod_eq_of_lt offset.toNat_lt,
      UInt32.ofNat_toNat]
  simp only [ofBytes, toBytes, Digest.ofBytes, List.append_assoc, htimestamp, htotal, hoffset]
  simp [byteAt, hstream, hdestination, List.getD_eq_getElem?_getD, List.getElem?_append]

end Header

/-- A datagram reads back as the fragment that it was written from. -/
theorem Fragment.ofBytes_toBytes {f : Fragment} (h : f.header.version = Header.wireVersion) :
    ofBytes f.toBytes = .ok f := by
  have hlength : 84 ≤ (f.header.toBytes ++ f.payload).length := by
    rw [List.length_append, Header.length_toBytes]
    omega
  have hpayload : (f.header.toBytes ++ f.payload).drop 84 = f.payload :=
    List.drop_left' (Header.length_toBytes f.header)
  rw [ofBytes, toBytes, dif_pos hlength]
  simp only [Header.ofBytes_toBytes, h, if_true, hpayload]

/-! ### Tiling -/

theorem Assembly.sum_length_of_joinFrom {start : Nat} {b : Bytes} {ts : List (UInt32 × Bytes)}
    (h : joinFrom start ts = .ok b) : (ts.map (·.2.length)).sum = b.length := by
  induction ts generalizing start b with
  | nil =>
      obtain rfl := Except.ok.inj h
      rfl
  | cons t ts ih =>
      rw [joinFrom] at h
      split at h
      · cases hrest : joinFrom (start + t.2.length) ts with
        | error gap =>
            rw [hrest] at h
            cases h
        | ok rest =>
            rw [hrest] at h
            obtain rfl := Except.ok.inj h
            rw [List.map_cons, List.sum_cons, ih hrest, List.length_append]
      · cases h

/-- The pieces lie one after the other from `start` on and make up `b`. -/
structure Tiles (start : Nat) (b : Bytes) (ts : List (UInt32 × Bytes)) : Prop where
  joined : Assembly.joinFrom start ts = .ok b
  ascending : ts.Pairwise fun s t => s.1 < t.1
  bounds : ∀ t ∈ ts, start ≤ t.1.toNat ∧ t.1.toNat + t.2.length ≤ start + b.length

namespace Tiles

variable {start : Nat} {b : Bytes} {ts : List (UInt32 × Bytes)}

theorem single (h : start + b.length < UInt32.size) :
    Tiles start b [(UInt32.ofNat start, b)] := by
  have hstart : (UInt32.ofNat start).toNat = start := UInt32.toNat_ofNat_of_lt (by omega)
  refine ⟨?_, List.pairwise_singleton _ _, ?_⟩
  · rw [Assembly.joinFrom, if_pos hstart, Assembly.joinFrom]
    simp [Except.map]
  · intro t ht
    obtain rfl := List.mem_singleton.1 ht
    rw [hstart]
    exact ⟨Nat.le_refl _, Nat.le_refl _⟩

theorem cons {p : Bytes} {next : Nat} (hp : p ≠ []) (hnext : next = start + p.length)
    (h : start + (p ++ b).length < UInt32.size) (hts : Tiles next b ts) :
    Tiles start (p ++ b) ((UInt32.ofNat start, p) :: ts) := by
  subst hnext
  have hstart : (UInt32.ofNat start).toNat = start := UInt32.toNat_ofNat_of_lt (by omega)
  have hpos : 0 < p.length := List.length_pos_of_ne_nil hp
  rw [List.length_append] at h
  refine ⟨?_, ?_, ?_⟩
  · rw [Assembly.joinFrom, if_pos hstart, hts.joined]
    rfl
  · refine List.pairwise_cons.2 ⟨fun t ht => ?_, hts.ascending⟩
    have hle := (hts.bounds t ht).1
    rw [UInt32.lt_iff_toNat_lt, hstart]
    omega
  · intro t ht
    rw [List.length_append]
    rcases List.mem_cons.1 ht with rfl | ht
    · dsimp only
      omega
    · have hbounds := hts.bounds t ht
      omega

/-- The payloads have as many bytes as they make up. -/
theorem sum_length (h : Tiles start b ts) : (ts.map (·.2.length)).sum = b.length :=
  Assembly.sum_length_of_joinFrom h.joined

end Tiles

/-- The pieces that bytes are cut into tile them. -/
theorem tiles_pieces {n : Nat} (hn : n ≠ 0) {b : Bytes} {start : Nat}
    (h : start + b.length < UInt32.size) :
    Tiles start b ((Bytes.pieces n b).mapIdx fun i p => (UInt32.ofNat (start + i * n), p)) := by
  induction b using Bytes.cutting hn generalizing start with
  | last b hle =>
      rw [Bytes.pieces_of_le hle]
      simpa using Tiles.single h
  | more b hlt ih =>
      have htake : (b.take n).length = n := List.length_take_of_le (Nat.le_of_lt hlt)
      have hsplit : b.take n ++ b.drop n = b := List.take_append_drop n b
      have htail := @ih (start + n) (by rw [List.length_drop]; omega)
      have htiles : Tiles start (b.take n ++ b.drop n) _ :=
        .cons (List.ne_nil_of_length_pos (by omega)) (by rw [htake]) (by rw [hsplit]; exact h) htail
      -- The piece after this one is the first of the rest.
      have hshift : (fun i p => (UInt32.ofNat (start + (i + 1) * n), p) :
          Nat → Bytes → UInt32 × Bytes) = fun i p => (UInt32.ofNat (start + n + i * n), p) := by
        funext i p
        rw [Nat.add_mul, Nat.one_mul, Nat.add_assoc, Nat.add_comm n]
      rw [Bytes.pieces_of_lt hn hlt, List.mapIdx_cons, hshift]
      rw [hsplit] at htiles
      simpa using htiles

/-! ### Messages as they are sent -/

def Fragment.piece (f : Fragment) : UInt32 × Bytes := (f.header.offset, f.payload)

variable [Compression]

/-- A message and the fragments that it was cut into. -/
structure Sending where
  message : Message
  encoding : Encoding
  ceiling : Nat
  timestamp : UInt64
  fragments : List Fragment
  cut : Fragment.ofMessage message encoding ceiling timestamp = .ok fragments

namespace Sending

def encoded (s : Sending) : Bytes := (s.encoding.encode? s.message.encode).getD []

/-- What all fragments carry, and those of no other message should. -/
def key (s : Sending) : MessageKey := ⟨streamId s.message.key, s.timestamp⟩

def header (s : Sending) (offset : UInt32) : Header :=
  { stream := streamId s.message.key
    destination := hubHash s.message.destination
    timestamp := s.timestamp
    total := UInt32.ofNat s.encoded.length
    offset
    encoding := s.encoding.code
    version := Header.wireVersion
    reserved := (0, 0) }

variable {s : Sending} {f : Fragment}

/-- A message that was cut has been encoded. -/
theorem encode?_eq (s : Sending) : s.encoding.encode? s.message.encode = some s.encoded := by
  have hcut := s.cut
  rw [Fragment.ofMessage] at hcut
  rw [encoded]
  cases hencoded : s.encoding.encode? s.message.encode with
  | none =>
      rw [hencoded] at hcut
      split at hcut <;> cases hcut
  | some b => rfl

theorem decode?_encoded (s : Sending) : s.encoding.decode? s.encoded = some s.message.encode :=
  Encoding.decode?_of_encode? s.encode?_eq

theorem fragments_eq (s : Sending) :
    s.ceiling ≠ 0 ∧ s.encoded.length < UInt32.size ∧
      s.fragments = (Bytes.pieces s.ceiling s.encoded).mapIdx fun i p =>
        ⟨s.header (UInt32.ofNat (i * s.ceiling)), p⟩ := by
  have hcut := s.cut
  rw [Fragment.ofMessage, s.encode?_eq] at hcut
  split at hcut
  · cases hcut
  · next hceiling =>
      rw [not_or] at hceiling
      dsimp only at hcut
      split at hcut
      · cases hcut
      · next hlength => exact ⟨hceiling.1, Nat.lt_of_not_le hlength, (Except.ok.inj hcut).symm⟩

theorem length_lt (s : Sending) : s.encoded.length < UInt32.size := s.fragments_eq.2.1

/-- The fragments of a message have the same header but for the offset. -/
theorem header_of_mem (hf : f ∈ s.fragments) : f.header = s.header f.header.offset := by
  obtain ⟨_, _, hfragments⟩ := s.fragments_eq
  rw [hfragments, List.mem_mapIdx] at hf
  obtain ⟨i, _, rfl⟩ := hf
  rfl

theorem key_of_mem (hf : f ∈ s.fragments) : f.header.messageKey = s.key := by
  rw [header_of_mem hf]
  rfl

theorem encoding_of_mem (hf : f ∈ s.fragments) :
    Encoding.ofCode? f.header.encoding = some s.encoding := by
  rw [header_of_mem hf]
  exact Encoding.ofCode?_code s.encoding

theorem total_of_mem (hf : f ∈ s.fragments) :
    f.header.total = UInt32.ofNat s.encoded.length := by
  rw [header_of_mem hf]
  rfl

theorem toNat_total (s : Sending) :
    (UInt32.ofNat s.encoded.length).toNat = s.encoded.length :=
  UInt32.toNat_ofNat_of_lt s.length_lt

theorem ofBytes_of_mem (hf : f ∈ s.fragments) : Fragment.ofBytes f.toBytes = .ok f := by
  refine Fragment.ofBytes_toBytes ?_
  rw [header_of_mem hf]
  rfl

theorem tiles (s : Sending) : Tiles 0 s.encoded (s.fragments.map Fragment.piece) := by
  obtain ⟨hceiling, hlength, hfragments⟩ := s.fragments_eq
  have htiles : Tiles 0 s.encoded _ := tiles_pieces hceiling (by rwa [Nat.zero_add])
  have hpieces : s.fragments.map Fragment.piece = (Bytes.pieces s.ceiling s.encoded).mapIdx
      fun i p => (UInt32.ofNat (0 + i * s.ceiling), p) := by
    rw [hfragments, List.mapIdx_eq_zipIdx_map, List.mapIdx_eq_zipIdx_map, List.map_map]
    simp only [Nat.zero_add]
    rfl
  rw [hpieces]
  exact htiles

theorem sum_length (s : Sending) :
    (s.fragments.map (·.payload.length)).sum = s.encoded.length := by
  rw [← s.tiles.sum_length, List.map_map]
  rfl

theorem ascending (s : Sending) :
    s.fragments.Pairwise fun f g => f.header.offset < g.header.offset := by
  have hpieces := s.tiles.ascending
  rwa [List.pairwise_map] at hpieces

theorem fits (hf : f ∈ s.fragments) :
    f.header.offset.toNat + f.payload.length ≤ s.encoded.length := by
  have hbounds := (s.tiles.bounds f.piece (List.mem_map_of_mem hf)).2
  rwa [Nat.zero_add] at hbounds

/-- A message is one fragment, or else none of its fragments is empty. -/
theorem single_or_nonempty (s : Sending) :
    (∃ f, s.fragments = [f]) ∨ ∀ f ∈ s.fragments, 0 < f.payload.length := by
  obtain ⟨hceiling, _, hfragments⟩ := s.fragments_eq
  by_cases hle : s.encoded.length ≤ s.ceiling
  · rw [Bytes.pieces_of_le hle] at hfragments
    exact .inl ⟨_, hfragments⟩
  · have hne : s.encoded ≠ [] := by
      apply List.ne_nil_of_length_pos
      omega
    refine .inr fun f hf => ?_
    rw [hfragments, List.mem_mapIdx] at hf
    obtain ⟨i, hi, rfl⟩ := hf
    exact List.length_pos_of_ne_nil
      (Bytes.ne_nil_of_mem_pieces hceiling hne _ (List.getElem_mem hi))

theorem fragments_ne_nil (s : Sending) : s.fragments ≠ [] := by
  obtain ⟨hceiling, _, hfragments⟩ := s.fragments_eq
  intro hnil
  have hlength := congrArg List.length (hfragments.symm.trans hnil)
  rw [List.length_mapIdx] at hlength
  by_cases hle : s.encoded.length ≤ s.ceiling
  · rw [Bytes.pieces_of_le hle] at hlength
    cases hlength
  · rw [Bytes.pieces_of_lt hceiling (by omega)] at hlength
    cases hlength

end Sending

end Conflux
