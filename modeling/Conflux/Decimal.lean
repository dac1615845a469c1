/-!
Unsigned decimal numerals. Writing gives the shortest numeral; reading allows a
plus sign and leading zeros and refuses anything above a given bound.
-/

namespace Conflux.Decimal

/-- The numeral of `n` without leading zeros. -/
def write (n : Nat) : String := Nat.repr n

def digit? (c : Char) : Option Nat :=
  if '0' ≤ c ∧ c ≤ '9' then some (c.toNat - 48) else none

/-- The value of a row of digits on top of what stands to its left. -/
def digits? : (left : Nat) → List Char → Option Nat
  | left, [] => some left
  | left, c :: cs => (digit? c).bind fun d => digits? (left * 10 + d) cs

/-- One digit or more. -/
def numeral? : List Char → Option Nat
  | [] => none
  | c :: cs => digits? 0 (c :: cs)

def unsigned? : List Char → Option Nat
  | '+' :: cs => numeral? cs
  | cs => numeral? cs

/-- Reads a numeral whose value is at most `bound`. -/
def read? (bound : Nat) (cs : List Char) : Option Nat :=
  (unsigned? cs).filter (· ≤ bound)

def maxUInt16 : Nat := 0xffff
def maxUInt32 : Nat := 0xffffffff
def maxUInt64 : Nat := 0xffffffffffffffff

def readUInt64? (cs : List Char) : Option UInt64 :=
  (read? maxUInt64 cs).map UInt64.ofNat

end Conflux.Decimal
