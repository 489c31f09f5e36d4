/-!
Double precision numbers as exact naturals. A finite magnitude is a mantissa times a power of two,
and a ratio of naturals goes to the nearest such number, a tie to the even mantissa.
-/
namespace QuantumSim.Decimal

/-- The magnitude `mantissa * 2 ^ exponent`. -/
structure Binary64 where
  mantissa : Nat
  exponent : Int
  deriving Repr, DecidableEq

/-- A nonnegative ratio. -/
structure Ratio where
  num : Nat
  den : Nat
  deriving Repr, DecidableEq

namespace Ratio

/-- The ratio times `2 ^ k`. -/
def shift (r : Ratio) (k : Int) : Ratio :=
  match k with
  | .ofNat n => ⟨r.num * Nat.pow 2 n, r.den⟩
  | .negSucc n => ⟨r.num, r.den * Nat.pow 2 (n + 1)⟩

/-- The ratio times `10 ^ k`. -/
def shiftTen (r : Ratio) (k : Int) : Ratio :=
  match k with
  | .ofNat n => ⟨r.num * Nat.pow 10 n, r.den⟩
  | .negSucc n => ⟨r.num, r.den * Nat.pow 10 (n + 1)⟩

def floor (r : Ratio) : Nat := r.num / r.den

/-- The nearest natural; a half goes to the even neighbour. -/
def round (r : Ratio) : Nat :=
  let q := r.num / r.den
  let twice := 2 * (r.num % r.den)
  if twice < r.den then q
  else if r.den < twice then q + 1
  else if q % 2 = 0 then q else q + 1

/-- The exponent of the leading decimal digit of a positive ratio. -/
def leadingExponent (r : Ratio) : Int :=
  if r.den ≤ r.num then ((Nat.toDigits 10 r.floor).length : Int) - 1
  else
    let t := (Nat.toDigits 10 (r.den / r.num)).length
    if r.den ≤ r.num * Nat.pow 10 (t - 1) then 1 - (t : Int) else -(t : Int)

/-- The bits of the double precision number nearest to the ratio; beyond the largest finite one the
bits of infinity. -/
def toBits (r : Ratio) : UInt64 :=
  if r.num = 0 then 0 else
    let k : Int := (Nat.log2 r.num : Int) - (Nat.log2 r.den : Int)
    let low := max (k - 53) (-1074)
    let q := if (r.shift (-low)).floor < Nat.pow 2 53 then low else low + 1
    let bits := (q + 1074).toNat * Nat.pow 2 52 + (r.shift (-q)).round
    if bits < 0x7ff0000000000000 then bits.toUInt64 else 0x7ff0000000000000

end Ratio

namespace Binary64

/-- The magnitude of a finite number. -/
def ofFloat (x : Float) : Binary64 :=
  let bits := x.toBits
  let field := ((bits >>> 52) &&& 0x7ff).toNat
  let fraction := (bits &&& 0xfffffffffffff).toNat
  if field = 0 then ⟨fraction, -1074⟩ else ⟨fraction + Nat.pow 2 52, (field : Int) - 1075⟩

def toRatio (b : Binary64) : Ratio := Ratio.shift ⟨b.mantissa, 1⟩ b.exponent

end Binary64

/-- Whether the sign bit is set, also for zero. -/
def isNegative (x : Float) : Bool := x.toBits >>> 63 == 1

/-- The nearest number to `± digits * 10 ^ exponent`, as a reader of decimals takes it. -/
def toFloat (negative : Bool) (digits : Nat) (exponent : Int) : Float :=
  let magnitude : UInt64 :=
    if digits = 0 then 0
    else if 400 < exponent then 0x7ff0000000000000
    else if exponent + (Nat.toDigits 10 digits).length < -400 then 0
    else (Ratio.shiftTen ⟨digits, 1⟩ exponent).toBits
  Float.ofBits (if negative then magnitude ||| 0x8000000000000000 else magnitude)

end QuantumSim.Decimal
