import SignatureLayers.Number.Rounding

namespace SignatureLayers.Number

/-- The real numbers that round to a positive binary fraction, as fractions over `den`: those
between `low` and `high`, the ends included when `closed`. -/
structure Interval where
  low : Nat
  value : Nat
  high : Nat
  den : Nat
  closed : Bool
deriving DecidableEq, Repr

namespace Interval

/-- The numbers that round to `mantissa * 2 ^ (shift - 1074)`, which is not zero. Those below are
half as far when the mantissa is the least of its size. -/
def ofBinary (mantissa shift : Nat) : Interval :=
  let least := mantissa = powerOfTwo 52 && 0 < shift
  let scale := powerOfTwo shift
  { low := (4 * mantissa - if least then 1 else 2) * scale
    value := 4 * mantissa * scale
    high := (4 * mantissa + 2) * scale
    den := powerOfTwo 1076
    closed := mantissa % 2 = 0 }

def holds (i : Interval) (digits up down : Nat) : Bool :=
  let x := digits * powerOfTen up * i.den
  let low := i.low * powerOfTen down
  let high := i.high * powerOfTen down
  if i.closed then low ≤ x && x ≤ high else low < x && x < high

def magnitude (i : Interval) : Int :=
  if i.den ≤ i.value then (digitCount (i.value / i.den) : Int) - 1
  else -(digitCount ((i.den + i.value - 1) / i.value - 1) : Int)

/-- The decimal of `count` digits that lies inside and nearest to the value, with the power of ten
of its last digit. Of two that are as near, the even one. -/
def decimal? (i : Interval) (count : Nat) : Option (Nat × Int) :=
  let last := i.magnitude + 1 - count
  let up := last.toNat
  let down := (-last).toNat
  let num := i.value * powerOfTen down
  let den := i.den * powerOfTen up
  let below := num / den
  let inside := i.holds below up down
  let insideAbove := i.holds (below + 1) up down
  let digits := if inside && insideAbove then roundDiv num den
    else if inside then below else below + 1
  if inside || insideAbove then some (digits, last) else none

/-- The decimal with the fewest digits inside. Seventeen are always enough. -/
def shortest (i : Interval) : Nat × Int :=
  ((List.range 17).findSome? fun n => i.decimal? (n + 1)).getD (0, 0)

end Interval

def exponentText (e : Int) : String :=
  let digits := toString e.natAbs
  (if e < 0 then "-" else "+") ++ (if digits.length < 2 then "0" ++ digits else digits)

/-- Digits with a point behind the first `whole` of them. Those of at most sixteen places before
the point and four zeros behind it are written out, others with an exponent. -/
def decimalText (digits : List Char) (whole : Int) : String :=
  let text := String.ofList
  if whole ≤ -4 || 16 < whole then
    let tail := if digits.length ≤ 1 then [] else '.' :: digits.drop 1
    text (digits.take 1 ++ tail) ++ "e" ++ exponentText (whole - 1)
  else if whole ≤ 0 then "0." ++ text (List.replicate (-whole).toNat '0' ++ digits)
  else if digits.length ≤ whole.toNat then
    text (digits ++ List.replicate (whole.toNat - digits.length) '0') ++ ".0"
  else text (digits.take whole.toNat) ++ "." ++ text (digits.drop whole.toNat)

def binaryText (mantissa shift : Nat) : String :=
  let (digits, last) := (Interval.ofBinary mantissa shift).shortest
  let all := Nat.toDigits 10 digits
  let kept := (all.reverse.dropWhile (· = '0')).reverse
  decimalText kept (last + all.length)

/-- The shortest text that reads back as the same number. -/
def floatText (x : Float) : String :=
  let bits := x.toBits.toNat
  let sign := if bits / powerOfTwo 63 = 0 then "" else "-"
  let exponent := bits / powerOfTwo 52 % powerOfTwo 11
  let fraction := bits % powerOfTwo 52
  if exponent = 2047 then (if fraction = 0 then sign ++ "inf" else "nan")
  else if exponent = 0 && fraction = 0 then sign ++ "0.0"
  else if exponent = 0 then sign ++ binaryText fraction 0
  else sign ++ binaryText (powerOfTwo 52 + fraction) (exponent - 1)

end SignatureLayers.Number
