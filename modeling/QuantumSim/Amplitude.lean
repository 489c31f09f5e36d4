import QuantumSim.Scalar

/-!
Complex amplitudes over a scalar, with the order of the floating point operations fixed.
-/
namespace QuantumSim

structure Amplitude (R : Type) where
  re : R
  im : R
  deriving Repr, BEq, DecidableEq, Inhabited

namespace Amplitude

variable {R : Type} [Scalar R]

@[inline] def zero : Amplitude R := ⟨Scalar.zero, Scalar.zero⟩
@[inline] def one : Amplitude R := ⟨Scalar.one, Scalar.zero⟩
@[inline] def i : Amplitude R := ⟨Scalar.zero, Scalar.one⟩

@[inline] def ofReal (x : R) : Amplitude R := ⟨x, Scalar.zero⟩

@[inline] def add (a b : Amplitude R) : Amplitude R := ⟨a.re + b.re, a.im + b.im⟩
@[inline] def sub (a b : Amplitude R) : Amplitude R := ⟨a.re - b.re, a.im - b.im⟩
@[inline] def neg (a : Amplitude R) : Amplitude R := ⟨-a.re, -a.im⟩
@[inline] def mul (a b : Amplitude R) : Amplitude R :=
  ⟨a.re * b.re - a.im * b.im, a.re * b.im + a.im * b.re⟩

instance : Add (Amplitude R) := ⟨add⟩
instance : Sub (Amplitude R) := ⟨sub⟩
instance : Neg (Amplitude R) := ⟨neg⟩
instance : Mul (Amplitude R) := ⟨mul⟩

@[inline] def scale (a : Amplitude R) (x : R) : Amplitude R := ⟨a.re * x, a.im * x⟩
@[inline] def conj (a : Amplitude R) : Amplitude R := ⟨a.re, -a.im⟩

/-- The unit amplitude at angle `theta`. -/
def phase (theta : R) : Amplitude R := ⟨Scalar.cos theta, Scalar.sin theta⟩

@[inline] def normSq (a : Amplitude R) : R := a.re * a.re + a.im * a.im
@[inline] def norm (a : Amplitude R) : R := Scalar.hypot a.re a.im
@[inline] def isFinite (a : Amplitude R) : Bool := Scalar.isFinite a.re && Scalar.isFinite a.im

/-- The `k`-th power of the imaginary unit. -/
def iPow (k : Nat) : Amplitude R :=
  match k % 4 with
  | 0 => one
  | 1 => i
  | 2 => -one
  | _ => -i

end Amplitude

end QuantumSim
