import Mathlib
import QuantumSim.Proofs.ControlledOperator

/-!
The operators of the fixed gate set are unitary. Rotations are generated by Hermitian matrices that
are their own inverse, and the general one-qubit gate is a rotation between two phases.
-/
namespace QuantumSim

theorem diagonal_mem_unitaryGroup {n : ℕ} {d : Fin n → ℂ} (h : ∀ k, d k * star (d k) = 1) :
    Matrix.diagonal d ∈ Matrix.unitaryGroup (Fin n) ℂ := by
  rw [Matrix.mem_unitaryGroup_iff, Matrix.star_eq_conjTranspose, Matrix.diagonal_conjTranspose,
    Matrix.diagonal_mul_diagonal, ← Matrix.diagonal_one]
  exact congrArg Matrix.diagonal (funext h)

/-- A Hermitian matrix that is its own inverse is unitary. -/
theorem mem_unitaryGroup_of_mul_self {n : ℕ} {P : Matrix (Fin n) (Fin n) ℂ} (hP : P.IsHermitian)
    (hsq : P * P = 1) : P ∈ Matrix.unitaryGroup (Fin n) ℂ := by
  rw [Matrix.mem_unitaryGroup_iff, Matrix.star_eq_conjTranspose, hP.eq, hsq]

/-- The rotation that a matrix generates. -/
noncomputable def rotationMatrix {n : ℕ} (P : Matrix (Fin n) (Fin n) ℂ) (t : ℝ) :
    Matrix (Fin n) (Fin n) ℂ :=
  (Real.cos t : ℂ) • 1 - (Complex.I * Real.sin t) • P

theorem rotationMatrix_mem_unitaryGroup {n : ℕ} {P : Matrix (Fin n) (Fin n) ℂ} (hP : P.IsHermitian)
    (hsq : P * P = 1) (t : ℝ) : rotationMatrix P t ∈ Matrix.unitaryGroup (Fin n) ℂ := by
  have hone : (Real.cos t : ℂ) * Real.cos t + Real.sin t * Real.sin t = 1 := by
    rw [← sq, ← sq]
    exact_mod_cast Real.cos_sq_add_sin_sq t
  have hstar : star (rotationMatrix P t) = (Real.cos t : ℂ) • 1 + (Complex.I * Real.sin t) • P := by
    simp [rotationMatrix, Matrix.star_eq_conjTranspose, hP.eq, -Complex.ofReal_cos,
      -Complex.ofReal_sin]
  have hscalar : (Complex.I * Real.sin t) * (Complex.I * Real.sin t) =
      -(Real.sin t * Real.sin t : ℂ) := by
    rw [mul_mul_mul_comm, Complex.I_mul_I, neg_one_mul]
  rw [Matrix.mem_unitaryGroup_iff, hstar, rotationMatrix, sub_mul, mul_add, mul_add,
    smul_mul_smul_comm, smul_mul_smul_comm, smul_mul_smul_comm, smul_mul_smul_comm, hsq, hscalar,
    Matrix.one_mul, Matrix.mul_one, Matrix.one_mul, mul_comm (Complex.I * _) (Real.cos t : ℂ)]
  -- the mixed terms cancel
  rw [← sub_sub, add_sub_cancel_right, sub_eq_add_neg, ← neg_smul, neg_neg, ← add_smul, hone,
    one_smul]

theorem exp_mul_star (x : ℝ) :
    Complex.exp (x * Complex.I) * star (Complex.exp (x * Complex.I)) = 1 := by
  rw [Complex.star_def, Complex.mul_conj, Complex.normSq_eq_norm_sq, Complex.norm_exp_ofReal_mul_I]
  simp

namespace GateMatrix

@[simp] theorem halfAngle_real (t : ℝ) : halfAngle t = t / 2 := rfl

/-- The generator of a rotation about the axis at angle `phi` in the equatorial plane. -/
noncomputable def equatorial (phi : ℝ) : Matrix (Fin 2) (Fin 2) ℂ :=
  !![0, Complex.exp (-phi * Complex.I); Complex.exp (phi * Complex.I), 0]

theorem equatorial_isHermitian (phi : ℝ) : (equatorial phi).IsHermitian := by
  ext row col
  fin_cases row <;> fin_cases col <;> simp [equatorial, ← Complex.exp_conj]

theorem equatorial_mul_self (phi : ℝ) : equatorial phi * equatorial phi = 1 := by
  ext row col
  fin_cases row <;> fin_cases col <;> simp [equatorial, ← Complex.exp_add]

theorem toMatrix_x : (x : GateMatrix ℝ 2).toMatrix = equatorial 0 := by
  ext row col
  fin_cases row <;> fin_cases col <;> simp [x, toMatrix_apply, equatorial]

theorem toMatrix_y : (y : GateMatrix ℝ 2).toMatrix = equatorial (Real.pi / 2) := by
  ext row col
  fin_cases row <;> fin_cases col <;> simp [y, toMatrix_apply, equatorial, Complex.exp_neg]

theorem toMatrix_r (t phi : ℝ) : (r t phi).toMatrix = rotationMatrix (equatorial phi) (t / 2) := by
  ext row col
  fin_cases row <;> fin_cases col <;> simp [r, toMatrix_apply, rotationMatrix, equatorial]
  · ring
  · ring

theorem toMatrix_rx (t : ℝ) : (rx t).toMatrix = rotationMatrix (equatorial 0) (t / 2) := by
  rw [← toMatrix_x]
  ext row col
  fin_cases row <;> fin_cases col <;> simp [rx, x, toMatrix_apply, rotationMatrix]

theorem toMatrix_ry (t : ℝ) :
    (ry t).toMatrix = rotationMatrix (equatorial (Real.pi / 2)) (t / 2) := by
  rw [← toMatrix_y]
  ext row col
  fin_cases row <;> fin_cases col <;>
    simp [ry, y, toMatrix_apply, rotationMatrix, mul_right_comm _ _ Complex.I]

/-- The general one-qubit gate is a rotation between two phases. -/
theorem toMatrix_u (t phi lambda : ℝ) : (u t phi lambda).toMatrix =
    Matrix.diagonal ![1, Complex.exp (phi * Complex.I)] * (ry t).toMatrix *
      Matrix.diagonal ![1, Complex.exp (lambda * Complex.I)] := by
  ext row col
  fin_cases row <;> fin_cases col <;> simp [u, ry, toMatrix_apply, add_mul, Complex.exp_add]
  · ring
  · ring

theorem u_mem_unitaryGroup (t phi lambda : ℝ) :
    (u t phi lambda).toMatrix ∈ Matrix.unitaryGroup (Fin 2) ℂ := by
  have hphase (a : ℝ) : Matrix.diagonal ![1, Complex.exp (a * Complex.I)] ∈
      Matrix.unitaryGroup (Fin 2) ℂ := by
    apply diagonal_mem_unitaryGroup
    intro k
    fin_cases k
    · simp
    · exact exp_mul_star a
  rw [toMatrix_u, toMatrix_ry]
  have hry := rotationMatrix_mem_unitaryGroup (equatorial_isHermitian (Real.pi / 2))
    (equatorial_mul_self (Real.pi / 2)) (t / 2)
  exact mul_mem (mul_mem (hphase phi) hry) (hphase lambda)

theorem toMatrix_h : (h : GateMatrix ℝ 2).toMatrix = (Real.sqrt (1 / 2) : ℂ) • !![1, 1; 1, -1] := by
  ext row col
  fin_cases row <;> fin_cases col <;> simp [h, toMatrix_apply]

theorem h_mem_unitaryGroup : (h : GateMatrix ℝ 2).toMatrix ∈ Matrix.unitaryGroup (Fin 2) ℂ := by
  have hhalf : (Real.sqrt (1 / 2) : ℂ) * Real.sqrt (1 / 2) = 1 / 2 := by
    rw [← Complex.ofReal_mul, Real.mul_self_sqrt (by norm_num)]
    norm_num
  apply mem_unitaryGroup_of_mul_self
  · ext row col
    fin_cases row <;> fin_cases col <;> simp [toMatrix_h]
  · rw [toMatrix_h, smul_mul_smul_comm, hhalf]
    ext row col
    fin_cases row <;> fin_cases col <;> norm_num [Matrix.mul_apply, Fin.sum_univ_two]

theorem sx_mem_unitaryGroup : (sx : GateMatrix ℝ 2).toMatrix ∈ Matrix.unitaryGroup (Fin 2) ℂ := by
  rw [Matrix.mem_unitaryGroup_iff]
  ext row col
  fin_cases row <;> fin_cases col <;>
    simp [sx, toMatrix_apply, Matrix.mul_apply, Fin.sum_univ_two, Complex.ext_iff,
      Amplitude.toComplex] <;>
    norm_num

theorem sxdg_mem_unitaryGroup :
    (sxdg : GateMatrix ℝ 2).toMatrix ∈ Matrix.unitaryGroup (Fin 2) ℂ := by
  rw [Matrix.mem_unitaryGroup_iff]
  ext row col
  fin_cases row <;> fin_cases col <;>
    simp [sxdg, toMatrix_apply, Matrix.mul_apply, Fin.sum_univ_two, Complex.ext_iff,
      Amplitude.toComplex] <;>
    norm_num

theorem swap_mem_unitaryGroup :
    (swap : GateMatrix ℝ 4).toMatrix ∈ Matrix.unitaryGroup (Fin 4) ℂ := by
  rw [Matrix.mem_unitaryGroup_iff]
  ext row col
  fin_cases row <;> fin_cases col <;>
    simp [swap, toMatrix_apply, Matrix.mul_apply, Fin.sum_univ_four]

theorem iswap_mem_unitaryGroup :
    (iswap : GateMatrix ℝ 4).toMatrix ∈ Matrix.unitaryGroup (Fin 4) ℂ := by
  rw [Matrix.mem_unitaryGroup_iff]
  ext row col
  fin_cases row <;> fin_cases col <;>
    simp [iswap, toMatrix_apply, Matrix.mul_apply, Fin.sum_univ_four]

/-- The generator of a two-qubit rotation that flips both targets, with a sign on equal bits. -/
def bothFlipped (sign : ℝ) : Matrix (Fin 4) (Fin 4) ℂ :=
  !![0, 0, 0, (sign : ℂ); 0, 0, 1, 0; 0, 1, 0, 0; (sign : ℂ), 0, 0, 0]

theorem bothFlipped_isHermitian (sign : ℝ) : (bothFlipped sign).IsHermitian := by
  ext row col
  fin_cases row <;> fin_cases col <;> simp [bothFlipped]

theorem bothFlipped_mul_self {sign : ℝ} (hsign : sign * sign = 1) :
    bothFlipped sign * bothFlipped sign = 1 := by
  have hsign : (sign * sign : ℂ) = 1 := by exact_mod_cast hsign
  ext row col
  fin_cases row <;> fin_cases col <;>
    simp [bothFlipped, Matrix.mul_apply, Fin.sum_univ_four, hsign]

theorem toMatrix_rxx (t : ℝ) : (rxx t).toMatrix = rotationMatrix (bothFlipped 1) (t / 2) := by
  ext row col
  fin_cases row <;> fin_cases col <;> simp [rxx, toMatrix_apply, rotationMatrix, bothFlipped]

theorem toMatrix_ryy (t : ℝ) : (ryy t).toMatrix = rotationMatrix (bothFlipped (-1)) (t / 2) := by
  ext row col
  fin_cases row <;> fin_cases col <;> simp [ryy, toMatrix_apply, rotationMatrix, bothFlipped]

theorem toMatrix_rzz (t : ℝ) : (rzz t).toMatrix = Matrix.diagonal fun k =>
    Complex.exp (((if k = 0 ∨ k = 3 then -t else t) / 2 : ℝ) * Complex.I) := by
  ext row col
  fin_cases row <;> fin_cases col <;> simp [rzz, toMatrix_apply]

theorem rzz_mem_unitaryGroup (t : ℝ) : (rzz t).toMatrix ∈ Matrix.unitaryGroup (Fin 4) ℂ := by
  rw [toMatrix_rzz]
  exact diagonal_mem_unitaryGroup fun _ => exp_mul_star _

end GateMatrix

namespace Operator

/-- An operator whose matrix is unitary. -/
def IsUnitary (op : Operator ℝ) : Prop :=
  op.dense ∈ Matrix.unitaryGroup (Fin (2 ^ op.numTargets)) ℂ

theorem diagonal_isUnitary {zero one : Amplitude ℝ} (h0 : zero.toComplex * star zero.toComplex = 1)
    (h1 : one.toComplex * star one.toComplex = 1) : (diagonal zero one).IsUnitary := by
  apply diagonal_mem_unitaryGroup
  intro k
  split
  · exact h0
  · exact h1

theorem diagonal_one_isUnitary {phase : Amplitude ℝ}
    (h : phase.toComplex * star phase.toComplex = 1) :
    (diagonal Amplitude.one phase).IsUnitary :=
  diagonal_isUnitary (by simp) h

theorem equatorial_isUnitary {m : GateMatrix ℝ 2} {phi : ℝ}
    (h : m.toMatrix = GateMatrix.equatorial phi) : (single m).IsUnitary := by
  show m.toMatrix ∈ Matrix.unitaryGroup (Fin 2) ℂ
  rw [h]
  exact mem_unitaryGroup_of_mul_self (GateMatrix.equatorial_isHermitian phi)
    (GateMatrix.equatorial_mul_self phi)

theorem rotation_isUnitary {m : GateMatrix ℝ 2} {phi t : ℝ}
    (h : m.toMatrix = rotationMatrix (GateMatrix.equatorial phi) t) : (single m).IsUnitary := by
  show m.toMatrix ∈ Matrix.unitaryGroup (Fin 2) ℂ
  rw [h]
  exact rotationMatrix_mem_unitaryGroup (GateMatrix.equatorial_isHermitian phi)
    (GateMatrix.equatorial_mul_self phi) t

theorem exchange_isUnitary {m : GateMatrix ℝ 4} {sign t : ℝ} (hsign : sign * sign = 1)
    (h : m.toMatrix = rotationMatrix (GateMatrix.bothFlipped sign) t) : (double m).IsUnitary := by
  show m.toMatrix ∈ Matrix.unitaryGroup (Fin 4) ℂ
  rw [h]
  exact rotationMatrix_mem_unitaryGroup (GateMatrix.bothFlipped_isHermitian sign)
    (GateMatrix.bothFlipped_mul_self hsign) t

end Operator

open Operator GateMatrix in
/-- Every gate of the fixed set has a unitary operator, at any angles. -/
theorem StandardGate.lower_isUnitary (g : StandardGate ℝ) : g.lower.operator.IsUnitary := by
  have hphase (t : ℝ) : (Amplitude.phase t).toComplex * star (Amplitude.phase t).toComplex = 1 := by
    rw [Amplitude.toComplex_phase]
    exact exp_mul_star t
  have hx : (single .x).IsUnitary := equatorial_isUnitary toMatrix_x
  have hy : (single .y).IsUnitary := equatorial_isUnitary toMatrix_y
  have hz : (diagonal .one (-.one)).IsUnitary := diagonal_one_isUnitary (by simp)
  have hp (t : ℝ) : (diagonal .one (.phase t)).IsUnitary := diagonal_one_isUnitary (hphase t)
  have hrx (t : ℝ) : (single (.rx t)).IsUnitary := rotation_isUnitary (toMatrix_rx t)
  have hry (t : ℝ) : (single (.ry t)).IsUnitary := rotation_isUnitary (toMatrix_ry t)
  have hrz (t : ℝ) : (rzPhases t).IsUnitary := diagonal_isUnitary (hphase _) (hphase _)
  match g with
  | ⟨.i, _⟩ => exact diagonal_one_isUnitary (by simp)
  | ⟨.x, _⟩ | ⟨.cx, _⟩ | ⟨.ccx, _⟩ => exact hx
  | ⟨.y, _⟩ | ⟨.cy, _⟩ => exact hy
  | ⟨.z, _⟩ | ⟨.cz, _⟩ => exact hz
  | ⟨.h, _⟩ | ⟨.ch, _⟩ => exact h_mem_unitaryGroup
  | ⟨.s, _⟩ => exact diagonal_one_isUnitary (by simp)
  | ⟨.sdg, _⟩ => exact diagonal_one_isUnitary (by simp)
  | ⟨.t, _⟩ | ⟨.tdg, _⟩ | ⟨.p, _⟩ | ⟨.u1, _⟩ | ⟨.cp, _⟩ => exact hp _
  | ⟨.sx, _⟩ => exact sx_mem_unitaryGroup
  | ⟨.sxdg, _⟩ => exact sxdg_mem_unitaryGroup
  | ⟨.rx, _⟩ | ⟨.crx, _⟩ => exact hrx _
  | ⟨.ry, _⟩ | ⟨.cry, _⟩ => exact hry _
  | ⟨.rz, _⟩ | ⟨.crz, _⟩ => exact hrz _
  | ⟨.u, _⟩ | ⟨.u2, _⟩ | ⟨.u3, _⟩ => exact u_mem_unitaryGroup _ _ _
  | ⟨.r, _⟩ => exact rotation_isUnitary (toMatrix_r _ _)
  | ⟨.swap, _⟩ | ⟨.cswap, _⟩ => exact swap_mem_unitaryGroup
  | ⟨.iswap, _⟩ => exact iswap_mem_unitaryGroup
  | ⟨.rxx, _⟩ => exact exchange_isUnitary (by simp) (toMatrix_rxx _)
  | ⟨.ryy, _⟩ => exact exchange_isUnitary (by simp) (toMatrix_ryy _)
  | ⟨.rzz, _⟩ => exact rzz_mem_unitaryGroup _

end QuantumSim
