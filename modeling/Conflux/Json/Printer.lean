import Conflux.Bytes
import Conflux.Decimal
import Conflux.Json.Value

/-!
JSON text. The compact form has no blanks at all; the indented form puts every item
and member on a line of its own, two blanks further in than its container, and
leaves empty containers closed. In strings only the quote, the backslash and the
control characters are escaped.
-/

namespace Conflux.Json

/-! ### Strings -/

def escapeByte (b : UInt8) : Bytes :=
  if b = 0x22 then [0x5c, 0x22]
  else if b = 0x5c then [0x5c, 0x5c]
  else if b = 0x08 then [0x5c, 0x62]
  else if b = 0x09 then [0x5c, 0x74]
  else if b = 0x0a then [0x5c, 0x6e]
  else if b = 0x0c then [0x5c, 0x66]
  else if b = 0x0d then [0x5c, 0x72]
  else if b < 0x20 then
    [0x5c, 0x75, 0x30, 0x30, 0x30 + b / 16, UInt8.ofNat (Bytes.hexDigit (b.toNat % 16)).toNat]
  else [b]

def quoteBytes (b : Bytes) : Bytes := 0x22 :: (b.flatMap escapeByte ++ [0x22])

def quote (s : String) : Bytes := quoteBytes (Bytes.ofText s)

/-! ### Scalars -/

def intText (i : Int) : String :=
  if i < 0 then "-" ++ Decimal.write i.natAbs else Decimal.write i.natAbs

/-! ### The compact form -/

mutual

def compact : Json → Bytes
  | null => Bytes.ofText "null"
  | bool b => Bytes.ofText (if b then "true" else "false")
  | int i => Bytes.ofText (intText i)
  | double x => Bytes.ofText x.text
  | string s => quote s
  | array items => 0x5b :: (compactItems items ++ [0x5d])
  | object members => 0x7b :: (compactMembers members ++ [0x7d])

def compactItems : List Json → Bytes
  | [] => []
  | x :: xs => compact x ++ compactMoreItems xs

def compactMoreItems : List Json → Bytes
  | [] => []
  | x :: xs => 0x2c :: (compact x ++ compactMoreItems xs)

def compactMembers : List (String × Json) → Bytes
  | [] => []
  | (k, x) :: xs => quote k ++ 0x3a :: (compact x ++ compactMoreMembers xs)

def compactMoreMembers : List (String × Json) → Bytes
  | [] => []
  | (k, x) :: xs => 0x2c :: (quote k ++ 0x3a :: (compact x ++ compactMoreMembers xs))

end

/-! ### The indented form -/

/-- A line break and the indentation of a line at the given depth. -/
def newline (depth : Nat) : Bytes := 0x0a :: List.replicate (2 * depth) 0x20

mutual

def indented (depth : Nat) : Json → Bytes
  | null => Bytes.ofText "null"
  | bool b => Bytes.ofText (if b then "true" else "false")
  | int i => Bytes.ofText (intText i)
  | double x => Bytes.ofText x.text
  | string s => quote s
  | array [] => [0x5b, 0x5d]
  | array (x :: xs) =>
      0x5b :: (newline (depth + 1) ++ indented (depth + 1) x ++ indentedItems (depth + 1) xs
        ++ newline depth ++ [0x5d])
  | object [] => [0x7b, 0x7d]
  | object ((k, x) :: xs) =>
      0x7b :: (newline (depth + 1) ++ quote k ++ [0x3a, 0x20] ++ indented (depth + 1) x
        ++ indentedMembers (depth + 1) xs ++ newline depth ++ [0x7d])

def indentedItems (depth : Nat) : List Json → Bytes
  | [] => []
  | x :: xs => 0x2c :: (newline depth ++ indented depth x ++ indentedItems depth xs)

def indentedMembers (depth : Nat) : List (String × Json) → Bytes
  | [] => []
  | (k, x) :: xs =>
      0x2c :: (newline depth ++ quote k ++ [0x3a, 0x20] ++ indented depth x
        ++ indentedMembers depth xs)

end

def pretty (j : Json) : Bytes := indented 0 j

/-- The compact form as text. -/
def compactText (j : Json) : String := (Bytes.toText? j.compact).getD ""

end Conflux.Json
