/-!
Finite binary floating-point numbers in exact arithmetic: 53 bits of significand,
least exponent -1074, greatest 971. A quotient of naturals is rounded to the
nearest such number, ties to the even significand; products, quotients and powers
of ten come from that one rounding. `shortest` finds the decimal with the fewest
digits that rounds back.
-/

namespace Conflux

/-- The number `± mantissa * 2 ^ exponent`. -/
structure Double where
  negative : Bool
  mantissa : Nat
  exponent : Int
deriving DecidableEq, Repr

namespace Double

def leastExponent : Int := -1074
def greatestExponent : Int := 971

/-- The least significand of 53 bits. -/
def leastNormal : Nat := 0x10000000000000

def zero (negative : Bool) : Double := ⟨negative, 0, leastExponent⟩

def isZero (x : Double) : Bool := x.mantissa == 0

def neg (x : Double) : Double := { x with negative := !x.negative }

/-- Numeric equality: the two zeros are equal. -/
def eqv (x y : Double) : Bool := x == y || x.isZero && y.isZero

/-! ### Rounding -/

/-- The quotient to the nearest natural, ties to the even one. -/
def roundDiv (num den : Nat) : Nat :=
  let q := num / den
  let r := num % den
  if den < 2 * r ∨ den = 2 * r ∧ q % 2 = 1 then q + 1 else q

/-- The fraction `num / den` divided by `2 ^ e`. -/
def scaled (num den : Nat) (e : Int) : Nat × Nat :=
  if 0 ≤ e then (num, den * Nat.pow 2 e.toNat) else (num * Nat.pow 2 (-e).toNat, den)

/-- The exponent at which `num / den` has a significand of 53 bits, or the least
exponent if that is greater. -/
def exponentOf (num den : Nat) : Int :=
  let e : Int := (num.log2 : Int) - (den.log2 : Int) - 52
  let f := scaled num den e
  max leastExponent (if f.1 < f.2 * leastNormal then e - 1 else e)

/-- The number nearest to `± num / den`, unless that is out of range. -/
def ofRatio? (negative : Bool) (num den : Nat) : Option Double :=
  if num = 0 then some (zero negative)
  else
    let e := exponentOf num den
    let f := scaled num den e
    let m := roundDiv f.1 f.2
    let x : Double := if m = 2 * leastNormal then ⟨negative, leastNormal, e + 1⟩ else ⟨negative, m, e⟩
    if greatestExponent < x.exponent then none else some x

/-- The magnitude as a fraction. -/
def ratio (x : Double) : Nat × Nat :=
  if 0 ≤ x.exponent then (x.mantissa * Nat.pow 2 x.exponent.toNat, 1)
  else (x.mantissa, Nat.pow 2 (-x.exponent).toNat)

def mul? (x y : Double) : Option Double :=
  ofRatio? (x.negative != y.negative) (x.ratio.1 * y.ratio.1) (x.ratio.2 * y.ratio.2)

def div? (x y : Double) : Option Double :=
  ofRatio? (x.negative != y.negative) (x.ratio.1 * y.ratio.2) (x.ratio.2 * y.ratio.1)

/-- The number nearest to `10 ^ n`; in range for `n` up to 308. -/
def powerOfTen? (n : Nat) : Option Double := ofRatio? false (Nat.pow 10 n) 1

/-- Multiplies by `10 ^ e` in steps: one product or quotient with the nearest power
of ten when there is one, and otherwise a quotient by `10 ^ 308` first. Each step
rounds. -/
def scaleTen? (x : Double) (e : Int) : Option Double :=
  if -308 ≤ e ∧ e ≤ 308 then
    if 0 ≤ e then (powerOfTen? e.toNat).bind x.mul? else (powerOfTen? (-e).toNat).bind x.div?
  else if x.isZero then some x
  else if 0 ≤ e then none
  else ((powerOfTen? 308).bind x.div?).bind fun y => scaleTen? y (e + 308)
termination_by (-e).toNat
decreasing_by omega

/-- The number for a row of digits `± significand * 10 ^ e`. -/
def ofDecimal? (negative : Bool) (significand : Nat) (e : Int) : Option Double :=
  ((ofRatio? false significand 1).bind fun x => scaleTen? x e).map fun x =>
    { x with negative }

/-! ### The shortest decimal -/

/-- How many decimal digits `n` has; none for zero. -/
def digitCount (n : Nat) : Nat := if n = 0 then 0 else (Nat.toDigits 10 n).length

/-- The exponent `t` with `10 ^ t ≤ num / den < 10 ^ (t + 1)`. -/
def decimalExponent (num den : Nat) : Int :=
  if den ≤ num then (digitCount (num / den) : Int) - 1
  else -(digitCount ((den - 1) / num) : Int)

/-- The fraction divided by `10 ^ k`. -/
def scaledTen (num den : Nat) (k : Int) : Nat × Nat :=
  if 0 ≤ k then (num, den * Nat.pow 10 k.toNat) else (num * Nat.pow 10 (-k).toNat, den)

/-- The reals that round to a number: between `lo / den` and `hi / den`, the ends
included when the significand is even. The number itself is `mid / den`. -/
structure Interval where
  lo : Nat
  mid : Nat
  hi : Nat
  den : Nat
  closed : Bool

def interval (x : Double) : Interval :=
  let lo := if x.mantissa = leastNormal ∧ leastExponent < x.exponent then 4 * x.mantissa - 1
    else 4 * x.mantissa - 2
  let e := x.exponent - 2
  let factor := if 0 ≤ e then Nat.pow 2 e.toNat else 1
  { lo := lo * factor
    mid := 4 * x.mantissa * factor
    hi := (4 * x.mantissa + 2) * factor
    den := if 0 ≤ e then 1 else Nat.pow 2 (-e).toNat
    closed := x.mantissa % 2 == 0 }

def Interval.contains (i : Interval) (num den : Nat) : Bool :=
  let below := i.lo * den
  let value := num * i.den
  let above := i.hi * den
  if i.closed then below ≤ value && value ≤ above else below < value && value < above

/-- The multiple of `10 ^ k` that lies in the interval and is nearest to the number:
one of its two neighbours on that grid. -/
def Interval.onGrid? (i : Interval) (k : Int) : Option Nat :=
  let f := scaledTen i.mid i.den k
  let c := f.1 / f.2
  let hit (c : Nat) : Bool :=
    if 0 ≤ k then i.contains (c * Nat.pow 10 k.toNat) 1 else i.contains c (Nat.pow 10 (-k).toNat)
  match hit c, hit (c + 1) with
  | true, true =>
      let twice := 2 * (f.1 % f.2)
      if twice < f.2 ∨ twice = f.2 ∧ c % 2 = 0 then some c else some (c + 1)
  | true, false => some c
  | false, true => some (c + 1)
  | false, false => none

/-- Tries grids with more and more digits. -/
def searchGrids (i : Interval) (t : Int) : (fuel digits : Nat) → Nat × Int
  | 0, digits => ((scaledTen i.mid i.den (t + 1 - digits)).1, t + 1 - digits)
  | fuel + 1, digits =>
      match i.onGrid? (t + 1 - digits) with
      | some c => (c, t + 1 - digits)
      | none => searchGrids i t fuel (digits + 1)

def stripZeros : (fuel : Nat) → Nat × Int → Nat × Int
  | 0, d => d
  | fuel + 1, (c, k) => if c ≠ 0 ∧ c % 10 = 0 then stripZeros fuel (c / 10, k + 1) else (c, k)

/-- The digits and the power of ten of the shortest decimal that reads back as `x`;
of several, the nearest. Seventeen digits are always enough. -/
def shortest (x : Double) : Nat × Int :=
  let i := x.interval
  stripZeros 20 (searchGrids i (decimalExponent i.mid i.den) 17 1)

/-! ### Text -/

/-- Positional from 1e-5 up to below 1e16, with a fraction in any case, and with a
signed exponent outside. -/
def text (x : Double) : String :=
  let sign := if x.negative then "-" else ""
  if x.isZero then sign ++ "0.0"
  else
    let d := x.shortest
    let ds := Nat.toDigits 10 d.1
    let len : Int := ds.length
    let point := len + d.2
    let zeros (n : Int) : List Char := List.replicate n.toNat '0'
    let body : List Char :=
      if 0 ≤ d.2 ∧ point ≤ 16 then ds ++ zeros d.2 ++ ['.', '0']
      else if 0 < point ∧ point ≤ 16 then
        ds.take point.toNat ++ ['.'] ++ ds.drop point.toNat
      else if -5 < point ∧ point ≤ 0 then ['0', '.'] ++ zeros (-point) ++ ds
      else
        let e := point - 1
        let mantissa := match ds with
          | [] => []
          | [c] => [c]
          | c :: cs => c :: '.' :: cs
        mantissa ++ ['e', if 0 ≤ e then '+' else '-'] ++ Nat.toDigits 10 e.natAbs
    sign ++ String.ofList body

end Double

end Conflux
