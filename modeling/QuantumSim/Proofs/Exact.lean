import Mathlib
import QuantumSim.Amplitude

/-!
Exact amplitudes. The reals are a scalar without rounding, and an amplitude over them is a complex
number.
-/
namespace QuantumSim

noncomputable instance : Scalar ℝ where
  addition := inferInstance
  subtraction := inferInstance
  multiplication := inferInstance
  division := inferInstance
  negation := inferInstance
  ofNat n := n
  pi := Real.pi
  sqrt := Real.sqrt
  sin := Real.sin
  cos := Real.cos
  hypot x y := Real.sqrt (x * x + y * y)
  isFinite _ := true
  lt x y := decide (x < y)
  le x y := decide (x ≤ y)

namespace Scalar

@[simp] theorem zero_real : (zero : ℝ) = 0 := Nat.cast_zero

@[simp] theorem one_real : (one : ℝ) = 1 := Nat.cast_one

@[simp] theorem ofNat_real (n : ℕ) : (ofNat n : ℝ) = n := rfl

@[simp] theorem pi_real : (pi : ℝ) = Real.pi := rfl

@[simp] theorem sin_real (x : ℝ) : sin x = Real.sin x := rfl

@[simp] theorem cos_real (x : ℝ) : cos x = Real.cos x := rfl

@[simp] theorem sqrt_real (x : ℝ) : sqrt x = Real.sqrt x := rfl

theorem lt_real (x y : ℝ) : lt x y = decide (x < y) := rfl

theorem le_real (x y : ℝ) : le x y = decide (x ≤ y) := rfl

@[simp] theorem half_real : (half : ℝ) = 1 / 2 := by
  change (Nat.cast 1 : ℝ) / Nat.cast 2 = 1 / 2
  norm_num

@[simp] theorem sqrtHalf_real : (sqrtHalf : ℝ) = Real.sqrt (1 / 2) := congrArg Real.sqrt half_real

theorem tolerance_real : (tolerance : ℝ) = 1 / 1000000000 := by
  change (Nat.cast 1 : ℝ) / Nat.cast 1000000000 = 1 / 1000000000
  norm_num

theorem tolerance_pos : (0 : ℝ) < tolerance := by
  rw [tolerance_real]
  norm_num

theorem abs_real (x : ℝ) : abs x = |x| := by
  unfold abs
  rw [zero_real]
  change (if decide (x < 0) = true then -x else x) = |x|
  split
  next h => exact (abs_of_neg (of_decide_eq_true h)).symm
  next h => exact (abs_of_nonneg (not_lt.1 fun hx => h (decide_eq_true hx))).symm

/-- A number is one within the tolerance if it deviates by no more. -/
theorem within_tolerance {x : ℝ} : lt tolerance (abs (x - one)) = false ↔ |x - 1| ≤ tolerance := by
  rw [one_real, abs_real, lt_real, decide_eq_false_iff_not, not_lt]

/-- The number one does not deviate from one. -/
theorem one_within_tolerance : lt tolerance (abs ((1 : ℝ) - one)) = false := by
  rw [within_tolerance, sub_self, abs_zero]
  exact tolerance_pos.le

theorem same_real (x y : ℝ) : same x y = decide (x = y) := by
  change (decide (x ≤ y) && decide (y ≤ x)) = decide (x = y)
  rw [← Bool.decide_and, decide_eq_decide]
  exact le_antisymm_iff.symm

end Scalar

namespace Amplitude

/-- The complex number of an exact amplitude. -/
def toComplex (a : Amplitude ℝ) : ℂ := ⟨a.re, a.im⟩

@[simp] theorem toComplex_zero : toComplex zero = 0 :=
  Complex.ext Scalar.zero_real Scalar.zero_real

@[simp] theorem toComplex_one : toComplex one = 1 := Complex.ext Scalar.one_real Scalar.zero_real

@[simp] theorem toComplex_i : toComplex i = Complex.I :=
  Complex.ext Scalar.zero_real Scalar.one_real

@[simp] theorem toComplex_ofReal (x : ℝ) : toComplex (ofReal x) = x :=
  Complex.ext rfl Scalar.zero_real

@[simp] theorem toComplex_add (a b : Amplitude ℝ) : (a + b).toComplex = a.toComplex + b.toComplex :=
  rfl

@[simp] theorem toComplex_sub (a b : Amplitude ℝ) : (a - b).toComplex = a.toComplex - b.toComplex :=
  rfl

@[simp] theorem toComplex_neg (a : Amplitude ℝ) : (-a).toComplex = -a.toComplex := rfl

@[simp] theorem toComplex_mul (a b : Amplitude ℝ) : (a * b).toComplex = a.toComplex * b.toComplex :=
  rfl

@[simp] theorem toComplex_conj (a : Amplitude ℝ) :
    a.conj.toComplex = (starRingEnd ℂ) a.toComplex := rfl

@[simp] theorem toComplex_scale (a : Amplitude ℝ) (x : ℝ) :
    (a.scale x).toComplex = a.toComplex * x := by
  apply Complex.ext
  · change a.re * x = (a.toComplex * (x : ℂ)).re
    simp [toComplex]
  · change a.im * x = (a.toComplex * (x : ℂ)).im
    simp [toComplex]

@[simp] theorem toComplex_phase (theta : ℝ) :
    toComplex (phase theta) = Complex.exp (theta * Complex.I) := by
  apply Complex.ext
  · change Real.cos theta = _
    rw [Complex.exp_ofReal_mul_I_re]
  · change Real.sin theta = _
    rw [Complex.exp_ofReal_mul_I_im]

theorem toComplex_iPow (k : ℕ) : (iPow k : Amplitude ℝ).toComplex = Complex.I ^ k := by
  have hk : k % 4 < 4 := Nat.mod_lt _ (by decide)
  rw [Complex.I_pow_eq_pow_mod]
  unfold iPow
  interval_cases k % 4 <;> simp

/-- The product with the conjugate is the squared magnitude. -/
theorem conj_mul_self (a : Amplitude ℝ) : a.conj * a = ⟨a.normSq, 0⟩ := by
  obtain ⟨re, im⟩ := a
  show Amplitude.mk (re * re - -im * im) (re * im + -im * re) = ⟨re * re + im * im, 0⟩
  congr 1 <;> ring

theorem normSq_real (a : Amplitude ℝ) : a.normSq = Complex.normSq a.toComplex := rfl

theorem norm_real (a : Amplitude ℝ) : a.norm = ‖a.toComplex‖ := by
  rw [Complex.norm_def]
  rfl

end Amplitude

end QuantumSim
