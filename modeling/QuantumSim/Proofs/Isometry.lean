import Mathlib
import QuantumSim.Proofs.GateMatrices
import QuantumSim.Proofs.NearIsometry

/-!
Controlled operators as linear maps. They change the norm no more than their matrix does, which is
not at all if it is unitary, and they commute with the projection onto a value of a qubit that is
not a target.
-/
namespace QuantumSim
open BasisIndex

/-- The sum of the squared magnitudes over a register. -/
def mass (n : ℕ) (v : ℕ → ℂ) : ℝ := ∑ i ∈ Finset.range (2 ^ n), Complex.normSq (v i)

/-- The part of a vector on the indices with the given bit. -/
def onBit (q : ℕ) (b : Bool) (v : ℕ → ℂ) (i : ℕ) : ℂ := if i.testBit q = b then v i else 0

theorem mass_congr {n : ℕ} {v w : ℕ → ℂ} (h : ∀ i < 2 ^ n, v i = w i) : mass n v = mass n w :=
  Finset.sum_congr rfl fun i hi => by rw [h i (Finset.mem_range.1 hi)]

theorem mass_nonneg (n : ℕ) (v : ℕ → ℂ) : 0 ≤ mass n v :=
  Finset.sum_nonneg fun _ _ => Complex.normSq_nonneg _

theorem normSq_onBit (q : ℕ) (b : Bool) (v : ℕ → ℂ) (i : ℕ) :
    Complex.normSq (onBit q b v i) = if i.testBit q = b then Complex.normSq (v i) else 0 := by
  unfold onBit
  split <;> simp

theorem mass_smul (n : ℕ) (r : ℂ) (v : ℕ → ℂ) :
    mass n (fun i => r * v i) = Complex.normSq r * mass n v := by
  simp only [mass, Complex.normSq_mul, Finset.mul_sum]

/-- Dividing by the root of a probability divides squared magnitudes by it. -/
theorem mul_normSq_rescaled {p : ℝ} (hp : 0 < p) (z : ℂ) :
    p * Complex.normSq (((1 / Real.sqrt p : ℝ) : ℂ) * z) = Complex.normSq z := by
  rw [Complex.normSq_mul, Complex.normSq_ofReal, ← mul_assoc, one_div, ← mul_inv,
    Real.mul_self_sqrt hp.le, mul_inv_cancel₀ hp.ne', one_mul]

/-- The values of a bit split the norm. -/
theorem mass_onBit_add (n q : ℕ) (v : ℕ → ℂ) :
    mass n (onBit q false v) + mass n (onBit q true v) = mass n v := by
  unfold mass
  rw [← Finset.sum_add_distrib]
  apply Finset.sum_congr rfl
  intro i _
  cases h : i.testBit q <;> simp [normSq_onBit, h]

namespace LoweredGate

variable {lowered : LoweredGate ℝ} {n : ℕ} {gate : Gate ℝ} {operands : List Qubit}

theorem Accepts.selected_replaceBits (h : lowered.Accepts n gate operands) (k i : ℕ) :
    Selected (operands.take lowered.controls) gate.controls
        (replaceBits (lowered.targets operands) k i) ↔
      Selected (operands.take lowered.controls) gate.controls i :=
  selected_congr fun q hq => testBit_replaceBits_of_notMem (h.nodup_split.2 q hq) k i

theorem Accepts.image_congr (h : lowered.Accepts n gate operands) {v w : ℕ → ℂ}
    (hvw : ∀ i < 2 ^ n, v i = w i) {i : ℕ} (hi : i < 2 ^ n) :
    lowered.image gate.controls operands v i = lowered.image gate.controls operands w i := by
  have hmember (k : ℕ) : v (replaceBits (lowered.targets operands) k i) =
      w (replaceBits (lowered.targets operands) k i) := hvw _ (replaceBits_lt h.targets_lt k hi)
  simp only [image, hmember, hvw i hi]

theorem image_smul (lowered : LoweredGate ℝ) (controls : List Control) (operands : List Qubit)
    (r : ℂ) (v : ℕ → ℂ) : lowered.image controls operands (fun i => r * v i) =
      fun i => r * lowered.image controls operands v i := by
  funext i
  simp only [image]
  split
  · rw [Finset.mul_sum]
    exact Finset.sum_congr rfl fun k _ => mul_left_comm _ _ _
  · rfl

/-- A gate commutes with the projection onto a value of a qubit that is not among its targets. -/
theorem image_onBit {q : ℕ} (hq : q ∉ lowered.targets operands) (controls : List Control) (b : Bool)
    (v : ℕ → ℂ) : lowered.image controls operands (onBit q b v) =
      onBit q b (lowered.image controls operands v) := by
  funext i
  have hmember (k : ℕ) : onBit q b v (replaceBits (lowered.targets operands) k i) =
      if i.testBit q = b then v (replaceBits (lowered.targets operands) k i) else 0 := by
    unfold onBit
    rw [testBit_replaceBits_of_notMem hq]
  simp only [image, hmember]
  by_cases hb : i.testBit q = b <;> simp [onBit, image, hb]

/-- A gate whose operator is a near isometry is one on the register: the indices that differ in its
targets only are either all mapped by the matrix or all left alone. -/
theorem Accepts.abs_mass_image_sub_le (h : lowered.Accepts n gate operands) {ε : ℝ} (hε : 0 ≤ ε)
    (hM : NearIsometry ε lowered.operator.dense) (v : ℕ → ℂ) :
    |mass n (lowered.image gate.controls operands v) - mass n v| ≤ ε * mass n v := by
  have hgroup (i : ℕ) : |∑ k ∈ Finset.range (2 ^ (lowered.targets operands).length),
      Complex.normSq (lowered.image gate.controls operands v
        (replaceBits (lowered.targets operands) k i)) -
      ∑ k ∈ Finset.range (2 ^ (lowered.targets operands).length),
        Complex.normSq (v (replaceBits (lowered.targets operands) k i))| ≤
      ε * ∑ k ∈ Finset.range (2 ^ (lowered.targets operands).length),
        Complex.normSq (v (replaceBits (lowered.targets operands) k i)) := by
    by_cases hsel : Selected (operands.take lowered.controls) gate.controls i
    · rw [h.length_targets, ← Fin.sum_univ_eq_sum_range, ← Fin.sum_univ_eq_sum_range]
      have hmember (k : Fin (2 ^ lowered.operator.numTargets)) :
          lowered.image gate.controls operands v (replaceBits (lowered.targets operands) k i) =
            lowered.operator.dense.mulVec
              (fun k => v (replaceBits (lowered.targets operands) k i)) k := by
        have hrow : lowered.operator.rowOf (lowered.targets operands)
            (replaceBits (lowered.targets operands) k i) = k := by
          apply Fin.ext
          rw [Operator.val_rowOf h.length_targets,
            localIndex_replaceBits h.nodup_targets (h.length_targets.symm ▸ k.isLt)]
        simp only [image, if_pos ((h.selected_replaceBits _ i).2 hsel), hrow,
          replaceBits_replaceBits h.nodup_targets]
        rfl
      simp only [hmember]
      exact hM fun k => v (replaceBits (lowered.targets operands) k i)
    · simp only [image, h.selected_replaceBits _ i, if_neg hsel, sub_self, abs_zero]
      exact mul_nonneg hε (Finset.sum_nonneg fun _ _ => Complex.normSq_nonneg _)
  have hpos : (0 : ℝ) < (2 ^ (lowered.targets operands).length : ℕ) := by positivity
  have hsum : |∑ i ∈ Finset.range (2 ^ n), _| ≤ ∑ i ∈ Finset.range (2 ^ n), _ :=
    (Finset.abs_sum_le_sum_abs _ _).trans (Finset.sum_le_sum fun i _ => hgroup i)
  rw [Finset.sum_sub_distrib, ← Finset.mul_sum, sum_replaceBits h.targets_lt fun i =>
    Complex.normSq (lowered.image gate.controls operands v i),
    sum_replaceBits h.targets_lt fun i => Complex.normSq (v i), nsmul_eq_mul, nsmul_eq_mul,
    ← mul_sub, abs_mul, abs_of_pos hpos, mul_left_comm] at hsum
  exact le_of_mul_le_mul_left hsum hpos

/-- A gate with a unitary operator keeps the norm. -/
theorem Accepts.mass_image (h : lowered.Accepts n gate operands) (hU : lowered.operator.IsUnitary)
    (v : ℕ → ℂ) : mass n (lowered.image gate.controls operands v) = mass n v := by
  have hnear := h.abs_mass_image_sub_le le_rfl (nearIsometry_of_mem_unitaryGroup hU) v
  rw [zero_mul, abs_nonpos_iff, sub_eq_zero] at hnear
  exact hnear

end LoweredGate

end QuantumSim
