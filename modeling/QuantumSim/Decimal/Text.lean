import QuantumSim.Decimal.Binary64

/-!
Decimal texts of numbers. The shortest one has the fewest digits that read back, and of those the
nearest to the number; it is positional for every size, and a whole number has no point. A text with
a given number of places is rounded exactly, a half to the even digit.
-/
namespace QuantumSim.Decimal

/-- The neighbour of `r` on the grid of multiples of `10 ^ unit` that reads back as `bits`, the
nearer one if both do and the upper one of two at equal distance. -/
def gridPoint? (r : Ratio) (bits : UInt64) (unit : Int) : Option Nat :=
  let scaled := r.shiftTen (-unit)
  let low := scaled.floor
  let readsBack (n : Nat) : Bool := (Ratio.shiftTen ⟨n, 1⟩ unit).toBits == bits
  let upperNearer := scaled.den ≤ 2 * (scaled.num % scaled.den)
  match readsBack low, readsBack (low + 1) with
  | true, true => some (if upperNearer then low + 1 else low)
  | true, false => some low
  | false, true => some (low + 1)
  | false, false => none

/-- Digits and exponent of the coarsest grid with a point that reads back, tried from `count` digits
on. Seventeen digits always read back. -/
def coarsest (r : Ratio) (bits : UInt64) (top : Int) : Nat → Nat → Nat × Int
  | 0, count =>
    let unit := top - (count : Int) + 1
    ((gridPoint? r bits unit).getD (r.shiftTen (-unit)).floor, unit)
  | fuel + 1, count =>
    let unit := top - (count : Int) + 1
    match gridPoint? r bits unit with
    | some n => (n, unit)
    | none => coarsest r bits top fuel (count + 1)

/-- The fewest digits of a positive finite number that read back, with the exponent of the last. -/
def shortestDigits (x : Float) : Nat × Int :=
  let r := (Binary64.ofFloat x).toRatio
  coarsest r (x.toBits &&& 0x7fffffffffffffff) r.leadingExponent 16 1

/-- `digits * 10 ^ exponent` without an exponent. -/
def positional (digits : Nat) (exponent : Int) : String :=
  let text := Nat.toDigits 10 digits
  match exponent with
  | .ofNat n => String.ofList (text ++ List.replicate n '0')
  | .negSucc n =>
    let places := n + 1
    let padded := List.replicate (places + 1 - text.length) '0' ++ text
    let whole := padded.take (padded.length - places)
    let fraction := ((padded.drop (padded.length - places)).reverse.dropWhile (· == '0')).reverse
    String.ofList (if fraction.isEmpty then whole else whole ++ '.' :: fraction)

/-- The shortest text of any number. -/
def shortest (x : Float) : String :=
  if x.isNaN then "NaN"
  else
    let sign := if isNegative x then "-" else ""
    if x.isInf then sign ++ "inf"
    else if x == 0 then sign ++ "0"
    else
      let (digits, exponent) := shortestDigits x
      sign ++ positional digits exponent

/-- A natural number of units of `10 ^ -places` as text. -/
def placed (places units : Nat) : String :=
  let text := Nat.toDigits 10 units
  let padded := List.replicate (places + 1 - text.length) '0' ++ text
  let cut := padded.length - places
  if places = 0 then String.ofList padded
  else String.ofList (padded.take cut ++ '.' :: padded.drop cut)

/-- The text of a number that is not finite. -/
def nonFinite (x : Float) : String :=
  if x.isNaN then "NaN" else if isNegative x then "-inf" else "inf"

/-- A number with exactly `places` decimals. -/
def fixed (places : Nat) (x : Float) : String :=
  if x.isFinite then
    let units := ((Binary64.ofFloat x).toRatio.shiftTen places).round
    (if isNegative x then "-" else "") ++ placed places units
  else nonFinite x

end QuantumSim.Decimal
