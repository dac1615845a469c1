import Conflux.Text.Blank
import Conflux.Decimal

/-!
Points in time and their text. A time is a day counted from the first of January
1970, a second of that day in universal time and a fraction; a leap second is the
last second of a minute with a fraction of a full second or more. Reading follows a
relaxed RFC 3339: numbers need no padding, blanks may stand before them, the year may
carry a sign, and any offset is brought to universal time. Writing is strict.
-/

namespace Conflux

structure Time where
  day : Int
  second : Nat
  nanos : Nat
deriving DecidableEq, Repr

namespace Time

/-! ### The calendar -/

/-- A date of the proleptic Gregorian calendar. -/
structure Date where
  year : Int
  month : Nat
  day : Nat
deriving DecidableEq, Repr

def isLeap (year : Int) : Bool :=
  year % 4 == 0 && (year % 100 != 0 || year % 400 == 0)

def daysInMonth (year : Int) (month : Nat) : Nat :=
  if month = 2 then (if isLeap year then 29 else 28)
  else if month = 4 ∨ month = 6 ∨ month = 9 ∨ month = 11 then 30
  else 31

/-- Years that can be told. -/
def leastYear : Int := -262143
def greatestYear : Int := 262142

def Date.valid (d : Date) : Bool :=
  leastYear ≤ d.year && d.year ≤ greatestYear && 1 ≤ d.month && d.month ≤ 12 &&
    1 ≤ d.day && d.day ≤ daysInMonth d.year d.month

/-- The day's number; years are counted from March, in eras of four centuries. -/
def Date.toDay (d : Date) : Int :=
  let y : Int := if d.month ≤ 2 then d.year - 1 else d.year
  let era := y.fdiv 400
  let yearOfEra := y - era * 400
  let monthFromMarch : Int := if 2 < d.month then (d.month : Int) - 3 else (d.month : Int) + 9
  let dayOfYear := (153 * monthFromMarch + 2) / 5 + d.day - 1
  let dayOfEra := yearOfEra * 365 + yearOfEra / 4 - yearOfEra / 100 + dayOfYear
  era * 146097 + dayOfEra - 719468

def Date.ofDay (n : Int) : Date :=
  let z := n + 719468
  let era := z.fdiv 146097
  let dayOfEra := z - era * 146097
  let yearOfEra := (dayOfEra - dayOfEra / 1460 + dayOfEra / 36524 - dayOfEra / 146096) / 365
  let dayOfYear := dayOfEra - (365 * yearOfEra + yearOfEra / 4 - yearOfEra / 100)
  let monthFromMarch := (5 * dayOfYear + 2) / 153
  let day := dayOfYear - (153 * monthFromMarch + 2) / 5 + 1
  let month := if monthFromMarch < 10 then monthFromMarch + 3 else monthFromMarch - 9
  let year := yearOfEra + era * 400
  ⟨if month ≤ 2 then year + 1 else year, month.toNat, day.toNat⟩

/-! ### Writing -/

/-- The numeral of `n` with zeros in front up to a width. -/
def padded (width n : Nat) : List Char :=
  let ds := Nat.toDigits 10 n
  List.replicate (width - ds.length) '0' ++ ds

/-- Years of more or less than four digits carry a sign. -/
def yearText (y : Int) : List Char :=
  if 0 ≤ y ∧ y ≤ 9999 then padded 4 y.toNat
  else (if y < 0 then '-' else '+') :: padded 4 y.natAbs

/-- None, three, six or nine digits, as many as the fraction needs. -/
def fractionText (nanos : Nat) : List Char :=
  if nanos = 0 then []
  else if nanos % 1000000 = 0 then '.' :: padded 3 (nanos / 1000000)
  else if nanos % 1000 = 0 then '.' :: padded 6 (nanos / 1000)
  else '.' :: padded 9 nanos

def text (t : Time) : String :=
  let d := Date.ofDay t.day
  let leap := 1000000000 ≤ t.nanos
  let second := t.second % 60 + if leap then 1 else 0
  let nanos := if leap then t.nanos - 1000000000 else t.nanos
  String.ofList (yearText d.year ++ '-' :: padded 2 d.month ++ '-' :: padded 2 d.day ++
    'T' :: padded 2 (t.second / 3600) ++ ':' :: padded 2 (t.second / 60 % 60) ++
    ':' :: padded 2 second ++ fractionText nanos ++ ['Z'])

/-! ### Reading -/

abbrev Scan (α : Type) := List Char → Option (α × List Char)

/-- Up to `width` digits, one at least, on top of the digits before them. -/
def digitsUpTo : (width left : Nat) → List Char → Nat × List Char
  | 0, left, cs => (left, cs)
  | _ + 1, left, [] => (left, [])
  | w + 1, left, c :: cs =>
      match Decimal.digit? c with
      | some d => digitsUpTo w (left * 10 + d) cs
      | none => (left, c :: cs)

/-- A number of one digit up to `width` digits. -/
def number? (width : Nat) : Scan Nat
  | [] => none
  | c :: cs => if (Decimal.digit? c).isSome then some (digitsUpTo width 0 (c :: cs)) else none

/-- A number in a range, blanks before it passed over. -/
def field? (width lo hi : Nat) : Scan Nat := fun cs => do
  let (n, r) ← number? width (Text.trimStart cs)
  if lo ≤ n ∧ n ≤ hi then some (n, r) else none

/-- A year of four digits, or any number with a sign. -/
def year? : Scan Int := fun cs =>
  match Text.trimStart cs with
  | '-' :: r => (number? r.length r).map fun p => (-(p.1 : Int), p.2)
  | '+' :: r => (number? r.length r).map fun p => ((p.1 : Int), p.2)
  | r => (number? 4 r).map fun p => ((p.1 : Int), p.2)

/-- The rest after a mark, blanks before it passed over. -/
def mark? (c : Char) (cs : List Char) : Option (List Char) :=
  match Text.trimStart cs with
  | d :: r => if c = d then some r else none
  | [] => none

/-- A fraction in billionths; digits after the ninth do not count. -/
def fraction? : Scan Nat
  | '.' :: r => do
      let (n, rest) ← number? 9 r
      let digits := r.length - rest.length
      some (n * Nat.pow 10 (9 - digits), rest.dropWhile fun c => (Decimal.digit? c).isSome)
  | r => some (0, r)

def twoDigits? : Scan Nat
  | a :: b :: r => do
      let a ← Decimal.digit? a
      let b ← Decimal.digit? b
      some (a * 10 + b, r)
  | _ => none

/-- Minutes east of universal time: a sign, two digits for the hours, colons or blanks
if any, two digits for the minutes. -/
def signedOffset? (negative : Bool) : Scan Int := fun cs => do
  let (h, r) ← twoDigits? cs
  let (m, r) ← twoDigits? (r.dropWhile fun c => c == ':' || Text.isBlank c)
  let total : Int := h * 60 + m
  if m < 60 ∧ h < 24 then some (if negative then -total else total, r) else none

/-- `Z`, the letters `UTC`, or a signed offset. -/
def offset? : Scan Int
  | a :: b :: c :: r =>
      if a.toUpper = 'U' ∧ b.toUpper = 'T' ∧ c.toUpper = 'C' then some (0, r)
      else if a = 'Z' ∨ a = 'z' then some (0, b :: c :: r)
      else if a = '+' then signedOffset? false (b :: c :: r)
      else if a = '-' ∨ a = '\u2212' then signedOffset? true (b :: c :: r)
      else none
  | a :: r => if a = 'Z' ∨ a = 'z' then some (0, r) else none
  | [] => none

/-- The time of a local date and clock reading at an offset in minutes. -/
def ofLocal? (d : Date) (hour minute second nanos : Nat) (offset : Int) : Option Time :=
  let leap := second = 60
  let total : Int := (hour * 3600 + minute * 60 + if leap then 59 else second : Nat) - offset * 60
  let day := d.toDay + total.fdiv 86400
  let year := (Date.ofDay day).year
  if d.valid ∧ leastYear ≤ year ∧ year ≤ greatestYear then
    some ⟨day, (total.fmod 86400).toNat, if leap then nanos + 1000000000 else nanos⟩
  else none

/-- The mark between date and clock reading. -/
def separator? : List Char → Option (List Char)
  | c :: r => if c = 'T' ∨ c = 't' ∨ c = ' ' then some r else none
  | [] => none

def parseChars? (cs : List Char) : Option Time := do
  let (year, cs) ← year? cs
  let cs ← mark? '-' cs
  let (month, cs) ← field? 2 1 12 cs
  let cs ← mark? '-' cs
  let (day, cs) ← field? 2 1 31 cs
  let cs ← separator? cs
  let (hour, cs) ← field? 2 0 23 cs
  let cs ← mark? ':' cs
  let (minute, cs) ← field? 2 0 59 cs
  let cs ← mark? ':' cs
  let (second, cs) ← field? 2 0 60 cs
  let (nanos, cs) ← fraction? cs
  let (offset, cs) ← offset? (Text.trimStart cs)
  if (Text.trimStart cs).isEmpty then ofLocal? ⟨year, month, day⟩ hour minute second nanos offset
  else none

def parse? (s : String) : Option Time := parseChars? s.toList

end Time

end Conflux
