import Conflux.Bytes

/-!
The small parts of a configuration text: blanks, line ends, comments and strings. A
reader takes what it needs from the front of the text and returns the rest.
-/

namespace Conflux.Toml

/-- Reads a value off the front of the input and returns the rest. -/
abbrev Scan (α : Type) := List Char → Option (α × List Char)

/-! ### Blanks and line ends -/

def isBlank (c : Char) : Bool := c == ' ' || c == '\t'

def skipBlank : List Char → List Char
  | [] => []
  | c :: r => if isBlank c then skipBlank r else c :: r

/-- A line feed, with or without a carriage return before it. -/
def newline? : List Char → Option (List Char)
  | '\n' :: r => some r
  | '\r' :: '\n' :: r => some r
  | _ => none

/-- No control characters but the tabulator. -/
def allowed (c : Char) : Bool := c == '\t' || (0x20 ≤ c.toNat && c.toNat != 0x7f)

/-- The rest of the line may hold blanks and a comment. -/
def endLine? (s : List Char) : Option (List Char) :=
  let r := match skipBlank s with
    | '#' :: r => r.dropWhile allowed
    | r => r
  if r.isEmpty then some [] else newline? r

/-- Passes over blanks, line ends and whole comments. The flag tells that a comment has
begun; one has to end in a line end. -/
def skipLinesFrom? : (comment : Bool) → List Char → Option (List Char)
  | false, [] => some []
  | true, [] => none
  | _, '\n' :: r => skipLinesFrom? false r
  | _, '\r' :: '\n' :: r => skipLinesFrom? false r
  | true, c :: r => if allowed c then skipLinesFrom? true r else none
  | false, c :: r =>
      if isBlank c then skipLinesFrom? false r
      else if c = '#' then skipLinesFrom? true r
      else some (c :: r)

def skipLines? (s : List Char) : Option (List Char) := skipLinesFrom? false s

/-- Passes over blanks and line ends. -/
def skipWhite : List Char → List Char
  | '\r' :: '\n' :: r => skipWhite r
  | '\n' :: r => skipWhite r
  | c :: r => if isBlank c then skipWhite r else c :: r
  | [] => []

/-- The rest after a given word. -/
def word? : (expected : List Char) → List Char → Option (List Char)
  | [], s => some s
  | e :: es, c :: r => if e = c then word? es r else none
  | _ :: _, [] => none

/-! ### Strings -/

def hexNumber? : (left : Nat) → List Char → Option Nat
  | left, [] => some left
  | left, c :: cs => (Bytes.hexValue? c).bind fun d => hexNumber? (left * 16 + d) cs

/-- The character with the code point that the digits tell, if there is one. -/
def codePoint? (digits : List Char) : Option Char :=
  match hexNumber? 0 digits with
  | some n => if h : n.isValidChar then some (Char.ofNatAux n h) else none
  | none => none

def shortEscape? (c : Char) : Option Char :=
  if c = 'b' then some '\x08'
  else if c = 't' then some '\t'
  else if c = 'n' then some '\n'
  else if c = 'f' then some '\x0c'
  else if c = 'r' then some '\r'
  else if c = '"' then some '"'
  else if c = '\\' then some '\\'
  else none

/-- What an escape stands for; its backslash is already read. -/
def escape? : Scan Char
  | 'u' :: a :: b :: c :: d :: r => (codePoint? [a, b, c, d]).map fun x => (x, r)
  | 'U' :: a :: b :: c :: d :: e :: f :: g :: h :: r =>
      (codePoint? [a, b, c, d, e, f, g, h]).map fun x => (x, r)
  | c :: r => (shortEscape? c).map fun x => (x, r)
  | [] => none

/-- The rest of a string on one line, with escapes. The fuel is a text no shorter than
the input. -/
def basicFrom? : (fuel : List Char) → Scan (List Char)
  | [], _ => none
  | _ :: _, '"' :: r => some ([], r)
  | _ :: fuel, '\\' :: r => do
      let (c, r) ← escape? r
      let (cs, r) ← basicFrom? fuel r
      some (c :: cs, r)
  | _ :: fuel, c :: r =>
      if allowed c then (basicFrom? fuel r).map fun p => (c :: p.1, p.2) else none
  | _ :: _, [] => none

/-- The rest of a string on one line, as it stands. -/
def literalBody? : Scan (List Char)
  | '\'' :: r => some ([], r)
  | c :: r => if allowed c then (literalBody? r).map fun p => (c :: p.1, p.2) else none
  | [] => none

/-- Three quotes end a block; up to two more before them belong to it. -/
def closeBlock? (quote : Char) : Scan (List Char)
  | a :: b :: c :: r =>
      if a = quote ∧ b = quote ∧ c = quote then
        match r with
        | d :: e :: r' =>
            if d = quote ∧ e = quote then some ([quote, quote], r')
            else if d = quote then some ([quote], e :: r')
            else some ([], r)
        | [d] => if d = quote then some ([quote], []) else some ([], [d])
        | [] => some ([], [])
      else none
  | _ => none

/-- The rest of a block, with escapes if `escapes` says so. A backslash at the end of a
line takes the blanks and line ends after it away. The fuel is a text no shorter than
the input. -/
def blockFrom? (quote : Char) (escapes : Bool) : (fuel : List Char) → Scan (List Char)
  | [], _ => none
  | _ :: fuel, s =>
      match closeBlock? quote s with
      | some p => some p
      | none =>
          match s with
          | '\r' :: '\n' :: r => (blockFrom? quote escapes fuel r).map fun p => ('\n' :: p.1, p.2)
          | '\n' :: r => (blockFrom? quote escapes fuel r).map fun p => ('\n' :: p.1, p.2)
          | c :: r =>
              if escapes && c == '\\' then
                if (newline? (skipBlank r)).isSome then
                  blockFrom? quote escapes fuel (skipWhite r)
                else do
                  let (c, r) ← escape? r
                  let (cs, r) ← blockFrom? quote escapes fuel r
                  some (c :: cs, r)
              else if allowed c then
                (blockFrom? quote escapes fuel r).map fun p => (c :: p.1, p.2)
              else none
          | [] => none

/-- The rest of a block whose opening quotes are read; a line end right after them is
not part of it. -/
def block? (quote : Char) (escapes : Bool) : Scan (List Char) := fun s =>
  let r := (newline? s).getD s
  blockFrom? quote escapes r r

/-- A string on one line. -/
def lineString? : Scan String
  | '"' :: r => (basicFrom? r r).map fun p => (String.ofList p.1, p.2)
  | '\'' :: r => (literalBody? r).map fun p => (String.ofList p.1, p.2)
  | _ => none

def string? : Scan String
  | '"' :: '"' :: '"' :: r => (block? '"' true r).map fun p => (String.ofList p.1, p.2)
  | '\'' :: '\'' :: '\'' :: r => (block? '\'' false r).map fun p => (String.ofList p.1, p.2)
  | s => lineString? s

end Conflux.Toml
