import Conflux.Bytes
import Conflux.Decimal
import Conflux.Toml.Value

/-!
Writing configuration texts. A string is written in the plainest form that can hold
it: between double quotes without escapes, else between single quotes, else as a
block, and with escapes only where none of these is possible.
-/

namespace Conflux.Toml

/-! ### What a string holds -/

/-- The length of the longest row of `c`; `run` of them stand right before. -/
def longestRun (c : Char) (run : Nat) : List Char → Nat
  | [] => run
  | d :: ds => if d = c then longestRun c (run + 1) ds else max run (longestRun c 0 ds)

def isControl (c : Char) : Bool := c.toNat < 0x20 || c.toNat == 0x7f

/-- Control characters that cannot stand for themselves in any form. -/
def needsEscape (c : Char) : Bool := isControl c && c != '\t' && c != '\n'

/-! ### Escapes -/

def hexDigit (n : Nat) : Char := (Nat.digitChar n).toUpper

def codeEscape (n : Nat) : List Char :=
  ['\\', 'u', hexDigit (n / 4096 % 16), hexDigit (n / 256 % 16), hexDigit (n / 16 % 16),
    hexDigit (n % 16)]

/-- How a character is written where escapes are read; a line end stands for itself in
a block. Quotes are seen to elsewhere. -/
def escaped (block : Bool) (c : Char) : List Char :=
  if c = '\x08' then ['\\', 'b']
  else if c = '\t' then ['\\', 't']
  else if c = '\n' then (if block then ['\n'] else ['\\', 'n'])
  else if c = '\x0c' then ['\\', 'f']
  else if c = '\r' then ['\\', 'r']
  else if c = '\\' then ['\\', '\\']
  else if isControl c then codeEscape c.toNat
  else [c]

/-- Escapes a text. Of a row of double quotes the first `room` may stand as they are,
and after an escaped one the count begins again. -/
def escapeAll (block : Bool) (room : Nat) : (run : Nat) → List Char → List Char
  | _, [] => []
  | run, c :: cs =>
      if c = '"' then
        if run < room then '"' :: escapeAll block room (run + 1) cs
        else '\\' :: '"' :: escapeAll block room 0 cs
      else escaped block c ++ escapeAll block room 0 cs

/-! ### Strings -/

/-- A block begins on a line of its own if it has line ends. -/
def blockStart (cs : List Char) : List Char := if '\n' ∈ cs then ['\n'] else []

def writeString (s : String) : String :=
  let cs := s.toList
  let controls := cs.any needsEscape
  let lines := decide ('\n' ∈ cs)
  let backslash := decide ('\\' ∈ cs)
  let doubles := longestRun '"' 0 cs
  let singles := longestRun '\'' 0 cs
  let threeDoubles := ['"', '"', '"']
  let threeSingles := ['\'', '\'', '\'']
  String.ofList <|
    if !controls && !backslash && doubles == 0 && !lines then
      '"' :: (escapeAll false 0 0 cs ++ ['"'])
    else if !controls && singles == 0 && !lines then
      '\'' :: (cs ++ ['\''])
    else if !controls && !backslash && doubles ≤ 2 then
      threeDoubles ++ blockStart cs ++ escapeAll true 2 0 cs ++ threeDoubles
    else if !controls && singles ≤ 2 then
      threeSingles ++ blockStart cs ++ cs ++ threeSingles
    else if lines then
      threeDoubles ++ blockStart cs ++ escapeAll true 2 0 cs ++ threeDoubles
    else '"' :: (escapeAll false 0 0 cs ++ ['"'])

/-! ### Documents -/

/-- A setting of one of the simple kinds. -/
inductive Setting where
  | string (s : String)
  | natural (n : Nat)
  | bool (b : Bool)
deriving DecidableEq, Repr

def Setting.text : Setting → String
  | string s => writeString s
  | natural n => Decimal.write n
  | bool b => if b then "true" else "false"

structure Section where
  name : String
  settings : List (String × Setting)

def Section.text (s : Section) : String :=
  "[" ++ s.name ++ "]\n" ++ String.join (s.settings.map fun e => e.1 ++ " = " ++ e.2.text ++ "\n")

/-- Sections with an empty line between them. -/
def writeSections (sections : List Section) : String :=
  "\n".intercalate (sections.map (·.text))

end Conflux.Toml
