import Conflux.Json.Numeral

/-!
Reading JSON text. A reader takes what it needs from the front of the bytes and
returns the rest. Containers may be nested only so deep (`room`), which is also what
the reader of values recurs on. Values that nobody asks for can be skipped: they only
have to follow the grammar, whatever their depth, range and encoding.
-/

namespace Conflux.Json

def skipBlank : Bytes → Bytes
  | [] => []
  | b :: r => if b = 0x20 ∨ b = 0x0a ∨ b = 0x0d ∨ b = 0x09 then skipBlank r else b :: r

/-- The rest after a given word. -/
def word? : (expected : Bytes) → Bytes → Option Bytes
  | [], s => some s
  | e :: es, b :: r => if e = b then word? es r else none
  | _ :: _, [] => none

/-! ### Strings -/

def hexValue? (b : UInt8) : Option Nat := Bytes.hexValue? (Char.ofNat b.toNat)

def hex4? (a b c d : UInt8) : Option Nat := do
  let a ← hexValue? a
  let b ← hexValue? b
  let c ← hexValue? c
  let d ← hexValue? d
  some (((a * 16 + b) * 16 + c) * 16 + d)

/-- The byte that a one-letter escape stands for. -/
def shortEscape? (b : UInt8) : Option UInt8 :=
  if b = 0x22 then some 0x22
  else if b = 0x5c then some 0x5c
  else if b = 0x2f then some 0x2f
  else if b = 0x62 then some 0x08
  else if b = 0x66 then some 0x0c
  else if b = 0x6e then some 0x0a
  else if b = 0x72 then some 0x0d
  else if b = 0x74 then some 0x09
  else none

def isHighSurrogate (n : Nat) : Bool := 0xd800 ≤ n && n < 0xdc00
def isLowSurrogate (n : Nat) : Bool := 0xdc00 ≤ n && n < 0xe000

def encodeChar (n : Nat) : Bytes := String.utf8EncodeChar (Char.ofNat n)

/-- The bytes of a string and what follows its closing quote. Surrogates must come in
pairs. -/
def stringBytes? : Scan Bytes
  | [] => none
  | 0x22 :: r => some ([], r)
  | 0x5c :: 0x75 :: a :: b :: c :: d :: r =>
      match hex4? a b c d with
      | none => none
      | some n =>
          if isLowSurrogate n then none
          else if isHighSurrogate n then
            match r with
            | 0x5c :: 0x75 :: e :: f :: g :: h :: r' =>
                match hex4? e f g h with
                | none => none
                | some m =>
                    if isLowSurrogate m then
                      (stringBytes? r').map fun p =>
                        (encodeChar (0x10000 + (n - 0xd800) * 0x400 + (m - 0xdc00)) ++ p.1, p.2)
                    else none
            | _ => none
          else (stringBytes? r).map fun p => (encodeChar n ++ p.1, p.2)
  | 0x5c :: e :: r =>
      match shortEscape? e with
      | none => none
      | some b => (stringBytes? r).map fun p => (b :: p.1, p.2)
  | b :: r => if b < 0x20 ∨ b = 0x5c then none else (stringBytes? r).map fun p => (b :: p.1, p.2)

/-- The text of a string whose opening quote is already read. -/
def stringBody? : Scan String := fun s => do
  let (bytes, r) ← stringBytes? s
  let text ← Bytes.toText? bytes
  some (text, r)

def string? : Scan String := fun s =>
  match skipBlank s with
  | 0x22 :: r => stringBody? r
  | _ => none

/-- Passes over the rest of a string; what it encodes does not matter. -/
def skipString? : Bytes → Option Bytes
  | [] => none
  | 0x22 :: r => some r
  | 0x5c :: 0x75 :: a :: b :: c :: d :: r =>
      if (hex4? a b c d).isSome then skipString? r else none
  | 0x5c :: e :: r => if (shortEscape? e).isSome then skipString? r else none
  | b :: r => if b < 0x20 ∨ b = 0x5c then none else skipString? r

/-! ### Sequences -/

/-- Items parted by commas up to a closing byte. The fuel is a text no shorter than the
input, since every item takes a byte at least. -/
def itemsFrom? {α : Type} (close : UInt8) (item : Nat → Scan α) :
    (fuel : Bytes) → (index : Nat) → Scan (List α)
  | [], _, _ => none
  | _ :: fuel, i, s => do
      let (x, r) ← item i s
      match skipBlank r with
      | b :: r =>
          if b = close then some ([x], r)
          else if b = 0x2c then
            let (xs, r) ← itemsFrom? close item fuel (i + 1) r
            some (x :: xs, r)
          else none
      | [] => none

/-- What stands between an opening byte, already read, and the closing one. The
reader of an item is told its index. -/
def sequence? {α : Type} (close : UInt8) (item : Nat → Scan α) : Scan (List α) := fun s =>
  match skipBlank s with
  | [] => none
  | b :: r => if b = close then some ([], r) else itemsFrom? close item s 0 (b :: r)

/-- A key, a colon and a value read by what the key calls for. -/
def member? {α : Type} (value : String → Scan α) : Scan (String × α) := fun s => do
  let (k, r) ← string? s
  match skipBlank r with
  | 0x3a :: r =>
      let (x, r) ← value k r
      some ((k, x), r)
  | _ => none

/-! ### Values -/

def scalar? : Scan Json := fun s =>
  match skipBlank s with
  | 0x6e :: r => (word? [0x75, 0x6c, 0x6c] r).map fun r => (null, r)
  | 0x74 :: r => (word? [0x72, 0x75, 0x65] r).map fun r => (bool true, r)
  | 0x66 :: r => (word? [0x61, 0x6c, 0x73, 0x65] r).map fun r => (bool false, r)
  | 0x22 :: r => (stringBody? r).map fun p => (string p.1, p.2)
  | r => do
      let (n, r) ← numeral? r
      let v ← n.value?
      some (v, r)

/-- A value in which containers are nested at most `room` deep. -/
def value? : (room : Nat) → Scan Json
  | 0 => scalar?
  | room + 1 => fun s =>
      match skipBlank s with
      | 0x5b :: r => (sequence? 0x5d (fun _ => value? room) r).map fun p => (array p.1, p.2)
      | 0x7b :: r =>
          (sequence? 0x7d (fun _ => member? fun _ => value? room) r).map fun p =>
            (ofMembers p.1, p.2)
      | r => scalar? r

/-- Passes over a value of any depth. The fuel is a text no shorter than the input. -/
def skipValueFrom? : (fuel : Bytes) → Scan Unit
  | [], _ => none
  | _ :: fuel, s =>
      match skipBlank s with
      | 0x6e :: r => (word? [0x75, 0x6c, 0x6c] r).map fun r => ((), r)
      | 0x74 :: r => (word? [0x72, 0x75, 0x65] r).map fun r => ((), r)
      | 0x66 :: r => (word? [0x61, 0x6c, 0x73, 0x65] r).map fun r => ((), r)
      | 0x22 :: r => (skipString? r).map fun r => ((), r)
      | 0x5b :: r => (sequence? 0x5d (fun _ => skipValueFrom? fuel) r).map fun p => ((), p.2)
      | 0x7b :: r =>
          (sequence? 0x7d
            (fun _ s =>
              match skipBlank s with
              | 0x22 :: r => do
                  let r ← skipString? r
                  match skipBlank r with
                  | 0x3a :: r => skipValueFrom? fuel r
                  | _ => none
              | _ => none) r).map fun p => ((), p.2)
      | r => (numeral? r).map fun p => ((), p.2)

def skipValue? : Scan Unit := fun s => skipValueFrom? s s

/-! ### Whole texts -/

/-- How deep containers may be nested in all. -/
def roomLimit : Nat := 127

/-- Reads a whole text: only blanks may follow. -/
def whole? {α : Type} (scan : Scan α) (s : Bytes) : Option α :=
  match scan s with
  | some (x, r) => if skipBlank r = [] then some x else none
  | none => none

def parse? (s : Bytes) : Option Json := whole? (value? roomLimit) s

end Conflux.Json
