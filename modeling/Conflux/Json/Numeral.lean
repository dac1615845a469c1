import Conflux.Json.Value
import Conflux.Bytes

/-!
Numbers in JSON text. A numeral is taken apart first and valued afterwards: one
without fraction and exponent is an integer when it fits 64 bits, signed or
unsigned, and every other one is a double. The digits that count for a double are
those that fit one unsigned 64-bit word; a digit left out of the integer part still
raises the power of ten.
-/

namespace Conflux.Json

/-- Reads a value off the front of the input and returns the rest. -/
abbrev Scan (α : Type) := Bytes → Option (α × Bytes)

def isDigit (b : UInt8) : Bool := 0x30 ≤ b && b ≤ 0x39

/-- The digits at the front, and what follows them. -/
def spanDigits : Bytes → List Nat × Bytes
  | [] => ([], [])
  | b :: r => if isDigit b then ((b.toNat - 48) :: (spanDigits r).1, (spanDigits r).2) else ([], b :: r)

/-- One digit or more. -/
def digits1? (s : Bytes) : Option (List Nat × Bytes) :=
  match spanDigits s with
  | ([], _) => none
  | p => some p

structure Numeral where
  negative : Bool
  whole : List Nat
  fraction : Option (List Nat)
  /-- The sign and the digits of the exponent. -/
  exponent : Option (Bool × List Nat)
deriving DecidableEq, Repr

/-- Digits without a superfluous zero in front. -/
def wholePart? (s : Bytes) : Option (List Nat × Bytes) :=
  match digits1? s with
  | some (0 :: _ :: _, _) => none
  | p => p

def fractionPart? : Scan (Option (List Nat))
  | 0x2e :: r => (digits1? r).map fun p => (some p.1, p.2)
  | r => some (none, r)

def exponentDigits? : Scan (Bool × List Nat)
  | 0x2b :: r => (digits1? r).map fun p => ((false, p.1), p.2)
  | 0x2d :: r => (digits1? r).map fun p => ((true, p.1), p.2)
  | r => (digits1? r).map fun p => ((false, p.1), p.2)

def exponentPart? : Scan (Option (Bool × List Nat))
  | b :: r =>
      if b = 0x65 ∨ b = 0x45 then (exponentDigits? r).map fun p => (some p.1, p.2)
      else some (none, b :: r)
  | [] => some (none, [])

def unsignedNumeral? (negative : Bool) : Scan Numeral := fun s => do
  let (whole, s) ← wholePart? s
  let (fraction, s) ← fractionPart? s
  let (exponent, s) ← exponentPart? s
  some (⟨negative, whole, fraction, exponent⟩, s)

def numeral? : Scan Numeral
  | 0x2d :: r => unsignedNumeral? true r
  | r => unsignedNumeral? false r

namespace Numeral

def wordBound : Nat := 0x10000000000000000

/-- Appends digits to a significand as long as it stays below the bound; also says
how many digits went in. -/
def extend : (significand taken : Nat) → List Nat → Nat × Nat
  | m, n, [] => (m, n)
  | m, n, d :: ds => if m * 10 + d < wordBound then extend (m * 10 + d) (n + 1) ds else (m, n)

def valueOf (digits : List Nat) : Nat := digits.foldl (fun n d => n * 10 + d) 0

def exponentValue : Option (Bool × List Nat) → Int
  | none => 0
  | some (true, ds) => -(valueOf ds : Int)
  | some (false, ds) => valueOf ds

/-- The value of the numeral as a double, unless it is out of range. -/
def double? (n : Numeral) : Option Double :=
  let whole := extend 0 0 n.whole
  let all := extend whole.1 0 (n.fraction.getD [])
  let power : Int := (n.whole.length - whole.2 : Nat) - (all.2 : Int)
  Double.ofDecimal? n.negative all.1 (power + exponentValue n.exponent)

def value? (n : Numeral) : Option Json :=
  let m := valueOf n.whole
  if n.fraction.isNone ∧ n.exponent.isNone ∧ (if n.negative then 0 < m ∧ m ≤ 0x8000000000000000 else m < wordBound)
  then some (.int (if n.negative then -(m : Int) else m))
  else n.double?.map .double

end Numeral

end Conflux.Json
