import Conflux.Decimal
import Conflux.Double
import Conflux.Time
import Conflux.Toml.Lexeme
import Conflux.Toml.Value

/-!
Numbers and moments in a configuration text. An integer has 64 bits and a sign; it is
written in decimal, or without a sign in base 16, 8 or 2. Low lines may stand between
two digits.
-/

namespace Conflux.Toml

def digitBelow? (base : Nat) (c : Char) : Option Nat :=
  (Bytes.hexValue? c).filter (· < base)

/-- The digits from here on, after a first one. A low line needs a digit behind it. -/
def moreDigits? (base : Nat) : Scan (List Nat)
  | [] => some ([], [])
  | '_' :: c :: r => do
      let d ← digitBelow? base c
      let (ds, r) ← moreDigits? base r
      some (d :: ds, r)
  | c :: r =>
      if c = '_' then none
      else match digitBelow? base c with
      | some d => (moreDigits? base r).map fun p => (d :: p.1, p.2)
      | none => some ([], c :: r)

/-- One digit or more. -/
def digits? (base : Nat) : Scan (List Nat)
  | c :: r => do
      let d ← digitBelow? base c
      let (ds, r) ← moreDigits? base r
      some (d :: ds, r)
  | [] => none

def ofDigits (base : Nat) (ds : List Nat) : Nat := ds.foldl (fun n d => n * base + d) 0

/-- Digits without a zero in front, unless the zero is all. -/
def whole? : Scan (List Nat)
  | '0' :: r => some ([0], r)
  | s => digits? 10 s

/-- Takes a sign off, and tells whether it was a minus. -/
def sign : List Char → Bool × List Char
  | '-' :: r => (true, r)
  | '+' :: r => (false, r)
  | r => (false, r)

/-! ### Integers -/

def leastInteger : Int := -0x8000000000000000
def greatestInteger : Int := 0x7fffffffffffffff

def integerInRange? (i : Int) : Option Value :=
  if leastInteger ≤ i ∧ i ≤ greatestInteger then some (.integer i) else none

def inBase? (base : Nat) : Scan Value := fun s => do
  let (ds, r) ← digits? base s
  let v ← integerInRange? (ofDigits base ds)
  some (v, r)

def integer? : Scan Value
  | '0' :: 'x' :: r => inBase? 16 r
  | '0' :: 'o' :: r => inBase? 8 r
  | '0' :: 'b' :: r => inBase? 2 r
  | s => do
      let (negative, r) := sign s
      let (ds, r) ← whole? r
      let n : Int := ofDigits 10 ds
      let v ← integerInRange? (if negative then -n else n)
      some (v, r)

/-! ### Numbers with a fraction or an exponent -/

/-- The fraction, if there is one. -/
def fraction? : Scan (List Nat)
  | '.' :: r => digits? 10 r
  | r => some ([], r)

/-- The exponent, if there is one, and zero otherwise. -/
def exponent? : Scan Int
  | c :: r =>
      if c = 'e' ∨ c = 'E' then do
        let (negative, r) := sign r
        let (ds, r) ← digits? 10 r
        let n : Int := ofDigits 10 ds
        some (if negative then -n else n, r)
      else some (0, c :: r)
  | [] => some (0, [])

/-- Some double is nearest to `significand * 10 ^ e`. Far from the range of doubles that
can be told from the number of digits. -/
def representable (significand : Nat) (e : Int) : Bool :=
  let top := (Nat.toDigits 10 significand).length + e
  if significand = 0 ∨ top < 0 then true
  else if 400 < top then false
  else if 0 ≤ e then (Double.ofRatio? false (significand * Nat.pow 10 e.toNat) 1).isSome
  else (Double.ofRatio? false significand (Nat.pow 10 (-e).toNat)).isSome

/-- What was read when `rest` is left of `s`. -/
def taken (s rest : List Char) : String := String.ofList (s.take (s.length - rest.length))

/-- A number that is not just digits. There is no greatest negative one, but a positive
one has to be in range. -/
def decimal? : Scan Value := fun s => do
  let (negative, r) := sign s
  let (ds, afterWhole) ← whole? r
  let (fs, afterFraction) ← fraction? afterWhole
  let (e, rest) ← exponent? afterFraction
  if rest.length = afterWhole.length then none
  else if negative || representable (ofDigits 10 (ds ++ fs)) (e - fs.length) then
    some (.float (taken s rest), rest)
  else none

/-- The words for what is no number of the usual kind. -/
def special? : Scan Value := fun s =>
  let r := (sign s).2
  match word? "inf".toList r, word? "nan".toList r with
  | some rest, _ => some (.float (taken s rest), rest)
  | none, some rest => some (.float (taken s rest), rest)
  | none, none => none

/-! ### Moments -/

/-- A number of exactly two digits, in a range. -/
def twoDigits? (lo hi : Nat) : Scan Nat
  | a :: b :: r => do
      let a ← Decimal.digit? a
      let b ← Decimal.digit? b
      if lo ≤ a * 10 + b ∧ a * 10 + b ≤ hi then some (a * 10 + b, r) else none
  | _ => none

def date? : Scan Unit
  | a :: b :: c :: d :: '-' :: r => do
      let a ← Decimal.digit? a
      let b ← Decimal.digit? b
      let c ← Decimal.digit? c
      let d ← Decimal.digit? d
      let (month, r) ← twoDigits? 1 12 r
      let r ← word? ['-'] r
      let (day, r) ← twoDigits? 1 31 r
      if day ≤ Time.daysInMonth (((a * 10 + b) * 10 + c) * 10 + d : Nat) month then some ((), r)
      else none
  | _ => none

def clock? : Scan Unit := fun s => do
  let (_, r) ← twoDigits? 0 23 s
  let r ← word? [':'] r
  let (_, r) ← twoDigits? 0 59 r
  let r ← word? [':'] r
  let (_, r) ← twoDigits? 0 60 r
  match r with
  | '.' :: c :: r =>
      if c.isDigit then some ((), r.dropWhile Char.isDigit) else none
  | '.' :: [] => none
  | r => some ((), r)

/-- A distance from universal time, if there is one. -/
def zone? : Scan Unit
  | c :: r =>
      if c = 'Z' ∨ c = 'z' then some ((), r)
      else if c = '+' ∨ c = '-' then do
        let (_, r) ← twoDigits? 0 23 r
        let r ← word? [':'] r
        let (_, r) ← twoDigits? 0 59 r
        some ((), r)
      else some ((), c :: r)
  | [] => some ((), [])

/-- A clock behind a date, and perhaps a zone behind the clock. -/
def dayTime? : Scan Unit
  | c :: r =>
      if c = 'T' ∨ c = 't' then do
        let (_, r) ← clock? r
        zone? r
      else if c = ' ' then
        if (twoDigits? 0 23 r).isSome then do
          let (_, r) ← clock? r
          zone? r
        else some ((), c :: r)
      else some ((), c :: r)
  | [] => some ((), [])

def moment? : Scan Value := fun s =>
  match date? s with
  | some (_, r) => (dayTime? r).map fun p => (.moment (taken s p.2), p.2)
  | none => (clock? s).map fun p => (.moment (taken s p.2), p.2)

/-- A moment or a number, whatever is there. -/
def numeral? : Scan Value := fun s =>
  (moment? s).orElse fun _ => (decimal? s).orElse fun _ => (special? s).orElse fun _ => integer? s

end Conflux.Toml
