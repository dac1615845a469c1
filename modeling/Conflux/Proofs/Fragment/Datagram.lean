import Conflux.Proofs.Fragment
import Mathlib.Data.List.Induction
import Mathlib.Data.Nat.Digits.Defs

/-!
Datagrams and fragments stand for one another. The header is seven fields, one behind the other,
and what is read from the place of a field is what is written for it; so a datagram that is read
is the one that is written of its fragment, byte for byte, and the other way round. What cannot be
read is too short, or it is long enough and names another version of the format.
-/

namespace Conflux

/-! ### Numbers in network order -/

namespace Bytes

/-- The bytes are the digits of `n` to the base 256, the most significant one first. -/
def BigEndian (b : Bytes) (n : Nat) : Prop :=
  Nat.ofDigits 256 (b.reverse.map UInt8.toNat) = n

theorem bigEndian_toNat (b : Bytes) : BigEndian b (toNat b) := by
  rw [BigEndian]
  induction b using List.reverseRecOn with
  | nil => rfl
  | append_singleton b x ih =>
      rw [List.reverse_concat, List.map_cons, Nat.ofDigits_cons, ih, toNat_append_singleton]
      omega

theorem toNat_lt (b : Bytes) : toNat b < Nat.pow 256 b.length := by
  induction b using List.reverseRecOn with
  | nil => exact Nat.one_pos
  | append_singleton b x ih =>
      have hx : x.toNat < 256 := x.toNat_lt
      have hpow : Nat.pow 256 (b.length + 1) = Nat.pow 256 b.length * 256 := rfl
      rw [toNat_append_singleton, List.length_append, List.length_singleton, hpow]
      omega

/-- The bytes of a number are written again as they were read. -/
theorem ofNat_toNat (b : Bytes) : ofNat b.length (toNat b) = b := by
  induction b using List.reverseRecOn with
  | nil => rfl
  | append_singleton b x ih =>
      have hx : x.toNat < 256 := x.toNat_lt
      have hfront : (toNat b * 256 + x.toNat) / 256 = toNat b := by omega
      have hlast : UInt8.ofNat (toNat b * 256 + x.toNat) = x := by
        rw [← UInt8.toNat_inj, UInt8.toNat_ofNat']
        omega
      rw [List.length_append, List.length_singleton, toNat_append_singleton, ofNat, hfront, ih,
        hlast]

end Bytes

/-! ### Headers -/

namespace Header

variable {b : Bytes}

/-- A field of a header that is long enough for it. -/
theorem length_field {start width : Nat} (h : start + width ≤ b.length) :
    ((b.drop start).take width).length = width := by
  rw [List.length_take, List.length_drop]
  omega

theorem numberAt_lt {start width : Nat} (h : start + width ≤ b.length) :
    numberAt b start width < Nat.pow 256 width := by
  have hlt := Bytes.toNat_lt ((b.drop start).take width)
  rwa [length_field h] at hlt

theorem ofNat_numberAt {start width : Nat} (h : start + width ≤ b.length) :
    Bytes.ofNat width (numberAt b start width) = (b.drop start).take width := by
  have hagain := Bytes.ofNat_toNat ((b.drop start).take width)
  rwa [length_field h] at hagain

theorem byteAt_eq_iff {i : Nat} (h : i < b.length) (x : UInt8) :
    byteAt b i = x ↔ b[i]? = some x := by
  rw [byteAt, List.getD_eq_getElem?_getD, List.getElem?_eq_getElem h, Option.getD_some,
    Option.some.injEq]

/-- The first byte of a field, and those behind it. -/
theorem take_field_succ {start : Nat} (h : start < b.length) (width : Nat) :
    (b.drop start).take (width + 1) = byteAt b start :: (b.drop (start + 1)).take width := by
  rw [List.drop_eq_getElem_cons h, List.take_succ_cons, (byteAt_eq_iff h _).2
    (List.getElem?_eq_getElem h)]

theorem toNat_timestamp (h : 84 ≤ b.length) :
    (ofBytes b h).timestamp.toNat = numberAt b 64 8 :=
  UInt64.toNat_ofNat_of_lt (numberAt_lt (by omega))

theorem toNat_total (h : 84 ≤ b.length) : (ofBytes b h).total.toNat = numberAt b 72 4 :=
  UInt32.toNat_ofNat_of_lt (numberAt_lt (by omega))

theorem toNat_offset (h : 84 ≤ b.length) : (ofBytes b h).offset.toNat = numberAt b 76 4 :=
  UInt32.toNat_ofNat_of_lt (numberAt_lt (by omega))

/-- A header is written as it was read. -/
theorem toBytes_ofBytes (h : 84 ≤ b.length) : (ofBytes b h).toBytes = b.take 84 := by
  have hlast : [byteAt b 80, byteAt b 81, byteAt b 82, byteAt b 83] = (b.drop 80).take 4 := by
    rw [take_field_succ (by omega), take_field_succ (by omega), take_field_succ (by omega),
      take_field_succ (by omega), List.take_zero]
  have hfields : b.take 84 = b.take 32 ++ (b.drop 32).take 32 ++ (b.drop 64).take 8 ++
      (b.drop 72).take 4 ++ (b.drop 76).take 4 ++ (b.drop 80).take 4 := by
    simp only [← List.take_add]
  rw [hfields, ← hlast, toBytes, toNat_timestamp, toNat_total, toNat_offset,
    ofNat_numberAt (by omega), ofNat_numberAt (by omega), ofNat_numberAt (by omega)]
  rfl

end Header

/-! ### Datagrams -/

namespace Fragment

/-- Every field of the fragment stands at its place in the datagram, the numbers in network
order. -/
structure LaidOut (d : Bytes) (f : Fragment) : Prop where
  stream : d.take 32 = f.header.stream.bytes
  destination : (d.drop 32).take 32 = f.header.destination.bytes
  timestamp : Bytes.BigEndian ((d.drop 64).take 8) f.header.timestamp.toNat
  total : Bytes.BigEndian ((d.drop 72).take 4) f.header.total.toNat
  offset : Bytes.BigEndian ((d.drop 76).take 4) f.header.offset.toNat
  encoding : d[80]? = some f.header.encoding
  version : d[81]? = some f.header.version
  reserved : d[82]? = some f.header.reserved.1 ∧ d[83]? = some f.header.reserved.2
  payload : d.drop 84 = f.payload

variable {d : Bytes} {f : Fragment}

theorem laidOut_ofBytes (h : 84 ≤ d.length) : LaidOut d ⟨Header.ofBytes d h, d.drop 84⟩ where
  stream := rfl
  destination := rfl
  timestamp := by
    rw [Header.toNat_timestamp]
    exact Bytes.bigEndian_toNat _
  total := by
    rw [Header.toNat_total]
    exact Bytes.bigEndian_toNat _
  offset := by
    rw [Header.toNat_offset]
    exact Bytes.bigEndian_toNat _
  encoding := (Header.byteAt_eq_iff (by omega) _).1 rfl
  version := (Header.byteAt_eq_iff (by omega) _).1 rfl
  reserved := ⟨(Header.byteAt_eq_iff (by omega) _).1 rfl, (Header.byteAt_eq_iff (by omega) _).1 rfl⟩
  payload := rfl

/-- Whatever its version is, a fragment is written field by field. -/
theorem laidOut_toBytes (f : Fragment) : LaidOut f.toBytes f := by
  have hlength : 84 ≤ f.toBytes.length := by
    rw [toBytes, List.length_append, Header.length_toBytes]
    omega
  have hheader : Header.ofBytes f.toBytes hlength = f.header :=
    Header.ofBytes_toBytes f.header f.payload hlength
  have hpayload : f.toBytes.drop 84 = f.payload :=
    List.drop_left' (Header.length_toBytes f.header)
  have hlaid := laidOut_ofBytes hlength
  rwa [hheader, hpayload] at hlaid

theorem ofBytes_of_short (h : d.length < 84) : ofBytes d = .error (.truncated d.length) := by
  rw [ofBytes, dif_neg (by omega)]

theorem ofBytes_of_foreign {v : UInt8} (h : 84 ≤ d.length) (hd : d[81]? = some v) (hv : v ≠ 1) :
    ofBytes d = .error (.unsupportedVersion v) := by
  have hversion : (Header.ofBytes d h).version = v := (Header.byteAt_eq_iff (by omega) v).2 hd
  rw [ofBytes, dif_pos h]
  simp only [hversion]
  exact if_neg hv

/-- What is long enough and of this version is read, and written as it was. -/
theorem ofBytes_of_version (h : 84 ≤ d.length) (hd : d[81]? = some 1) :
    ∃ f, ofBytes d = .ok f ∧ f.header.version = 1 ∧ f.toBytes = d := by
  have hversion : (Header.ofBytes d h).version = 1 := (Header.byteAt_eq_iff (by omega) 1).2 hd
  refine ⟨⟨Header.ofBytes d h, d.drop 84⟩, ?_, hversion, ?_⟩
  · rw [ofBytes, dif_pos h]
    simp only [hversion]
    rfl
  · rw [toBytes, Header.toBytes_ofBytes h, List.take_append_drop]

/-- The three things that a datagram can be. -/
theorem ofBytes_cases (d : Bytes) :
    (d.length < 84 ∧ ofBytes d = .error (.truncated d.length)) ∨
      (∃ v, 84 ≤ d.length ∧ d[81]? = some v ∧ v ≠ 1 ∧
        ofBytes d = .error (.unsupportedVersion v)) ∨
      ∃ f, 84 ≤ d.length ∧ d[81]? = some 1 ∧ ofBytes d = .ok f ∧ f.header.version = 1 ∧
        f.toBytes = d := by
  by_cases hshort : d.length < 84
  · exact .inl ⟨hshort, ofBytes_of_short hshort⟩
  · have hlong : 84 ≤ d.length := Nat.le_of_not_lt hshort
    obtain ⟨v, hv⟩ : ∃ v, d[81]? = some v := ⟨_, List.getElem?_eq_getElem (by omega)⟩
    by_cases hone : v = 1
    · subst hone
      obtain ⟨f, hf, hversion, hbytes⟩ := ofBytes_of_version hlong hv
      exact .inr (.inr ⟨f, hlong, hv, hf, hversion, hbytes⟩)
    · exact .inr (.inl ⟨v, hlong, hv, hone, ofBytes_of_foreign hlong hv hone⟩)

theorem ofBytes_eq_truncated_iff {n : Nat} :
    ofBytes d = .error (.truncated n) ↔ d.length < 84 ∧ n = d.length := by
  constructor
  · intro h
    obtain ⟨hshort, hd⟩ | ⟨v, -, -, -, hd⟩ | ⟨f, -, -, hd, -⟩ := ofBytes_cases d
    · cases hd.symm.trans h
      exact ⟨hshort, rfl⟩
    · cases hd.symm.trans h
    · cases hd.symm.trans h
  · rintro ⟨hshort, rfl⟩
    exact ofBytes_of_short hshort

theorem ofBytes_eq_unsupportedVersion_iff {v : UInt8} :
    ofBytes d = .error (.unsupportedVersion v) ↔ 84 ≤ d.length ∧ d[81]? = some v ∧ v ≠ 1 := by
  constructor
  · intro h
    obtain ⟨-, hd⟩ | ⟨w, hlong, hw, hone, hd⟩ | ⟨f, -, -, hd, -⟩ := ofBytes_cases d
    · cases hd.symm.trans h
    · cases hd.symm.trans h
      exact ⟨hlong, hw, hone⟩
    · cases hd.symm.trans h
  · rintro ⟨hlong, hv, hone⟩
    exact ofBytes_of_foreign hlong hv hone

theorem ofBytes_eq_ok_iff : ofBytes d = .ok f ↔ f.header.version = 1 ∧ f.toBytes = d := by
  constructor
  · intro h
    obtain ⟨-, hd⟩ | ⟨v, -, -, -, hd⟩ | ⟨g, -, -, hd, hversion, hbytes⟩ := ofBytes_cases d
    · cases hd.symm.trans h
    · cases hd.symm.trans h
    · cases hd.symm.trans h
      exact ⟨hversion, hbytes⟩
  · rintro ⟨hversion, rfl⟩
    exact ofBytes_toBytes hversion

/-- Reading and writing are inverse to one another between the fragments of this version and the
datagrams that are long enough and name it. Every other datagram is refused: a short one for its
length, and only then one for its version. Each field stands at its place in the datagram of its
fragment, and a number is the one that its bytes are in network order. -/
theorem datagrams_correspond :
    (∀ d n, ofBytes d = .error (.truncated n) ↔ d.length < 84 ∧ n = d.length) ∧
      (∀ d v, ofBytes d = .error (.unsupportedVersion v) ↔
        84 ≤ d.length ∧ d[81]? = some v ∧ v ≠ 1) ∧
      (∀ d, (∃ f, ofBytes d = .ok f) ↔ 84 ≤ d.length ∧ d[81]? = some 1) ∧
      (∀ d f, ofBytes d = .ok f ↔ f.header.version = 1 ∧ f.toBytes = d) ∧
      ∀ f : Fragment, LaidOut f.toBytes f := by
  refine ⟨fun d n => ofBytes_eq_truncated_iff, fun d v => ofBytes_eq_unsupportedVersion_iff,
    fun d => ⟨?_, ?_⟩, fun d f => ofBytes_eq_ok_iff, laidOut_toBytes⟩
  · rintro ⟨f, hf⟩
    obtain ⟨hversion, rfl⟩ := ofBytes_eq_ok_iff.1 hf
    have hd := (laidOut_toBytes f).version
    rw [hversion] at hd
    refine ⟨?_, hd⟩
    rw [toBytes, List.length_append, Header.length_toBytes]
    omega
  · rintro ⟨hlong, hd⟩
    obtain ⟨f, hf, -⟩ := ofBytes_of_version hlong hd
    exact ⟨f, hf⟩

end Fragment

end Conflux
