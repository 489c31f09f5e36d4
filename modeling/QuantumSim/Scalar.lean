/-!
The arithmetic a simulation needs from its numbers. Everything above this module is written once for
any `Scalar`: it runs on `Float`, and statements about exact amplitudes take the reals instead.
-/
namespace QuantumSim

/-- Numbers with the operations of a simulation. Comparisons are Boolean, because a comparison with
a number that is not a number answers no. -/
class Scalar (R : Type) where
  addition : Add R
  subtraction : Sub R
  multiplication : Mul R
  division : Div R
  negation : Neg R
  ofNat : Nat → R
  pi : R
  sqrt : R → R
  sin : R → R
  cos : R → R
  /-- Length of the vector with the two given legs; infinite as soon as one leg is. -/
  hypot : R → R → R
  isFinite : R → Bool
  lt : R → R → Bool
  le : R → R → Bool

namespace Scalar

variable {R : Type} [Scalar R]

instance (priority := 50) instAdd : Add R := addition
instance (priority := 50) instSub : Sub R := subtraction
instance (priority := 50) instMul : Mul R := multiplication
instance (priority := 50) instDiv : Div R := division
instance (priority := 50) instNeg : Neg R := negation

@[inline] def zero : R := ofNat 0
@[inline] def one : R := ofNat 1
@[inline] def half : R := one / ofNat 2

/-- One over the square root of two. -/
@[inline] def sqrtHalf : R := sqrt half

@[inline] def abs (x : R) : R := if lt x zero then -x else x

/-- Numeric equality: signed zeros are equal, and a number that is not a number equals nothing. -/
@[inline] def same (x y : R) : Bool := le x y && le y x

/-- The deviation from one, or from unitarity, that still counts as rounding. -/
def tolerance : R := one / ofNat 1000000000

/-- The number in the unit interval made of the upper 52 bits of a random word. -/
def ofUnitWord (w : UInt64) : R := ofNat (w >>> 12).toNat / ofNat (1 <<< 52)

/-- The floating point number nearest to a circle's circumference over its diameter. -/
def circleRatio : Float := Float.ofBits 0x400921fb54442d18

/-- The root of the sum of two squares, corrected by one Newton step. The step takes its residue
from differences, which hardly cancel. The legs are positive, the first is the longer one, and
squaring them neither overflows nor underflows. -/
def correctedLength (long short : Float) : Float :=
  let root := Float.sqrt (long * long + short * short)
  let residue :=
    if root ≤ 2.0 * short then
      let rest := root - short
      long * (2.0 * rest - long) + (rest - 2.0 * (long - short)) * rest
    else
      let rest := root - long
      2.0 * rest * (long - 2.0 * short) + ((4.0 * rest - short) * short + rest * rest)
  root - residue / (2.0 * root)

/-- The length over finite legs that are not negative, the first of them the longer one. A leg
beyond the precision of the other is added, and legs whose squares leave the range of exponents are
scaled. -/
def orderedLength (long short : Float) : Float :=
  if short.scaleB 54 ≤ long then long + short
  else if Float.scaleB 1.0 511 < long then
    (correctedLength (long.scaleB (-600)) (short.scaleB (-600))).scaleB 600
  else if short < Float.scaleB 1.0 (-459) then
    (correctedLength (long.scaleB 600) (short.scaleB 600)).scaleB (-600)
  else correctedLength long short

/-- An infinite leg decides, even beside one that is not a number. -/
def legLength (x y : Float) : Float :=
  if x.isInf || y.isInf then Float.ofBits 0x7ff0000000000000
  else if x.isNaN || y.isNaN then x + y
  else if x.abs < y.abs then orderedLength y.abs x.abs
  else orderedLength x.abs y.abs

end Scalar

instance : Scalar Float where
  addition := inferInstance
  subtraction := inferInstance
  multiplication := inferInstance
  division := inferInstance
  negation := inferInstance
  ofNat n := Float.ofNat n
  pi := Scalar.circleRatio
  sqrt := Float.sqrt
  sin := Float.sin
  cos := Float.cos
  hypot := Scalar.legLength
  isFinite := Float.isFinite
  lt x y := x < y
  le x y := x ≤ y

end QuantumSim
