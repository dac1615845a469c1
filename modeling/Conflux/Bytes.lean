/-!
Octet strings as lists. A list of bytes can be cut, joined and compared by the
lemmas every list has, which is what datagrams, digests and fragment payloads
need; numbers are written most significant byte first.
-/

namespace Conflux

abbrev Bytes := List UInt8

namespace Bytes

/-- The UTF-8 encoding of a text. -/
def ofText (s : String) : Bytes := s.toByteArray.data.toList

/-- The text a byte string encodes, if it is well-formed UTF-8. -/
def toText? (b : Bytes) : Option String := String.fromUTF8? ⟨b.toArray⟩

@[simp] theorem toText?_ofText (s : String) : toText? (ofText s) = some s := by
  have h : (⟨(ofText s).toArray⟩ : ByteArray) = s.toByteArray := by simp [ofText]
  simp only [toText?, h, String.fromUTF8?]
  rw [dif_pos s.isValidUTF8]
  rfl

theorem ofText_append (s t : String) : ofText (s ++ t) = ofText s ++ ofText t := by
  simp [ofText]

/-! ### Numbers, most significant byte first -/

/-- The last `width` base-256 digits of `n`. -/
def ofNat : (width : Nat) → (n : Nat) → Bytes
  | 0, _ => []
  | w + 1, n => ofNat w (n / 256) ++ [UInt8.ofNat n]

def toNat (b : Bytes) : Nat := b.foldl (fun n x => n * 256 + x.toNat) 0

@[simp] theorem length_ofNat (w n : Nat) : (ofNat w n).length = w := by
  induction w generalizing n with
  | zero => rfl
  | succ w ih => simp [ofNat, ih]

@[simp] theorem toNat_append_singleton (b : Bytes) (x : UInt8) :
    toNat (b ++ [x]) = toNat b * 256 + x.toNat := by
  simp [toNat]

theorem toNat_ofNat (w n : Nat) : toNat (ofNat w n) = n % Nat.pow 256 w := by
  induction w generalizing n with
  | zero => exact (Nat.mod_one n).symm
  | succ w ih =>
      have h : Nat.pow 256 (w + 1) = 256 * Nat.pow 256 w := Nat.mul_comm ..
      rw [ofNat, toNat_append_singleton, ih, h, Nat.mod_mul, UInt8.toNat_ofNat']
      omega

/-! ### Pieces -/

theorem length_rest_lt {n : Nat} {b rest : Bytes} {x : UInt8} (hn : n ≠ 0)
    (h : b.drop n = x :: rest) : (x :: rest).length < b.length := by
  have hl := congrArg List.length h
  rw [List.length_drop, List.length_cons] at hl
  rw [List.length_cons]
  omega

/-- Cuts into pieces of `n` bytes; the last one is the rest, and there is always one. -/
def pieces (n : Nat) (b : Bytes) : List Bytes :=
  match h : b.drop n with
  | [] => [b]
  | x :: rest =>
      if hn : n = 0 then [b]
      else
        have : (x :: rest).length < b.length := length_rest_lt hn h
        b.take n :: pieces n (x :: rest)
termination_by b.length

theorem pieces_of_le {n : Nat} {b : Bytes} (h : b.length ≤ n) : pieces n b = [b] := by
  rw [pieces]
  split
  · rfl
  · next x rest hrest =>
      rw [List.drop_of_length_le h] at hrest
      cases hrest

theorem pieces_of_lt {n : Nat} {b : Bytes} (hn : n ≠ 0) (h : n < b.length) :
    pieces n b = b.take n :: pieces n (b.drop n) := by
  rw [pieces]
  split
  · next hnil =>
      have hlength := congrArg List.length hnil
      rw [List.length_drop, List.length_nil] at hlength
      omega
  · next x rest hrest =>
      rw [dif_neg hn]
      exact congrArg (fun rest => b.take n :: pieces n rest) hrest.symm

/-- Cutting as an induction: a last piece, or a piece and what is behind it. -/
theorem cutting {n : Nat} (hn : n ≠ 0) {P : Bytes → Prop} (last : ∀ b, b.length ≤ n → P b)
    (more : ∀ b, n < b.length → P (b.drop n) → P b) (b : Bytes) : P b := by
  induction hlength : b.length using Nat.strongRecOn generalizing b with
  | ind length ih =>
      by_cases hle : b.length ≤ n
      · exact last b hle
      · have hlt : n < b.length := by omega
        refine more b hlt (ih (b.drop n).length ?_ (b.drop n) rfl)
        rw [List.length_drop]
        omega

theorem ne_nil_of_mem_pieces {n : Nat} (hn : n ≠ 0) {b : Bytes} (hb : b ≠ []) :
    ∀ p ∈ pieces n b, p ≠ [] := by
  induction b using cutting hn with
  | last b hle =>
      intro p hp
      rw [pieces_of_le hle, List.mem_singleton] at hp
      rw [hp]
      exact hb
  | more b hlt ih =>
      intro p hp
      rw [pieces_of_lt hn hlt] at hp
      rcases List.mem_cons.1 hp with rfl | hp
      · apply List.ne_nil_of_length_pos
        rw [List.length_take]
        omega
      · refine ih ?_ p hp
        apply List.ne_nil_of_length_pos
        rw [List.length_drop]
        omega

theorem pieces_ne_nil (n : Nat) (b : Bytes) : pieces n b ≠ [] := by
  rw [pieces]
  split
  · exact List.cons_ne_nil _ _
  · split <;> exact List.cons_ne_nil _ _

theorem length_le_of_mem_pieces {n : Nat} (hn : n ≠ 0) (b : Bytes) :
    ∀ p ∈ pieces n b, p.length ≤ n := by
  induction b using cutting hn with
  | last b hle =>
      intro p hp
      rw [pieces_of_le hle, List.mem_singleton] at hp
      rwa [hp]
  | more b hlt ih =>
      intro p hp
      rw [pieces_of_lt hn hlt] at hp
      rcases List.mem_cons.1 hp with rfl | hp
      · exact List.length_take_le n b
      · exact ih p hp

theorem flatten_pieces {n : Nat} (hn : n ≠ 0) (b : Bytes) : (pieces n b).flatten = b := by
  induction b using cutting hn with
  | last b hle => rw [pieces_of_le hle, List.flatten_singleton]
  | more b hlt ih => rw [pieces_of_lt hn hlt, List.flatten_cons, ih, List.take_append_drop]

/-! ### Hexadecimal text -/

def hexDigit (n : Nat) : Char := if n < 10 then Char.ofNat (48 + n) else Char.ofNat (87 + n)

def hexValue? (c : Char) : Option Nat :=
  if '0' ≤ c ∧ c ≤ '9' then some (c.toNat - 48)
  else if 'a' ≤ c ∧ c ≤ 'f' then some (c.toNat - 87)
  else if 'A' ≤ c ∧ c ≤ 'F' then some (c.toNat - 55)
  else none

/-- Two lower-case digits for each byte. -/
def toHex (b : Bytes) : String :=
  String.ofList (b.flatMap fun x => [hexDigit (x.toNat / 16), hexDigit (x.toNat % 16)])

def ofHexChars? : List Char → Option Bytes
  | [] => some []
  | a :: b :: rest => do
      let hi ← hexValue? a
      let lo ← hexValue? b
      let tail ← ofHexChars? rest
      some (UInt8.ofNat (hi * 16 + lo) :: tail)
  | [_] => none

def ofHex? (s : String) : Option Bytes := ofHexChars? s.toList

end Bytes

end Conflux
