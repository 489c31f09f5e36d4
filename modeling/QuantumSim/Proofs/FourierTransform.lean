import Mathlib
import QuantumSim.Proofs.FourierCircuit
import QuantumSim.Proofs.GateActions

/-!
What the Fourier circuit computes. Qubit 0 is treated as the leading bit: the turns of a qubit come
from those above it, and the swaps at the end reverse the register. On the basis indices of this
library, where qubit 0 is the least significant bit, the result is the transform with the bits of
both indices in opposite order.
-/
namespace QuantumSim

open BasisIndex

section Phases

/-- The phase of a part of a full turn. -/
noncomputable def cycle (r : ℝ) : ℂ := Complex.exp (2 * Real.pi * r * Complex.I)

theorem cycle_add (r s : ℝ) : cycle (r + s) = cycle r * cycle s := by
  rw [cycle, cycle, cycle, ← Complex.exp_add]
  congr 1
  push_cast
  ring

theorem cycle_zero : cycle 0 = 1 := by simp [cycle]

theorem cycle_natCast (m : ℕ) : cycle m = 1 := by
  rw [← Complex.exp_nat_mul_two_pi_mul_I m, cycle]
  congr 1
  push_cast
  ring

theorem cycle_half : cycle (1 / 2) = -1 := by
  rw [← Complex.exp_pi_mul_I, cycle]
  congr 1
  push_cast
  ring

/-- The part of a full turn that the lowest bits of an index stand for, the first as a half. -/
noncomputable def binaryFraction (n x : ℕ) : ℝ := reversed n x / 2 ^ n

theorem binaryFraction_succ (n x : ℕ) :
    binaryFraction (n + 1) x = binaryFraction n x + (x.testBit n).toNat / 2 ^ (n + 1) := by
  rw [binaryFraction, reversed_succ, binaryFraction]
  push_cast
  field_simp
  ring

/-- The bits below the `i`-th make whole turns. -/
theorem cycle_binaryFraction_succ_self (i x : ℕ) :
    cycle (2 ^ i * binaryFraction (i + 1) x) = if x.testBit i then -1 else 1 := by
  have hwhole : (2 ^ i * binaryFraction i x : ℝ) = (reversed i x : ℕ) := by
    rw [binaryFraction]
    field_simp
  have hhalf (b : ℝ) : 2 ^ i * (b / 2 ^ (i + 1)) = b / 2 := by
    rw [pow_succ]
    field_simp
  rw [binaryFraction_succ, mul_add, cycle_add, hwhole, cycle_natCast, one_mul, hhalf]
  cases x.testBit i
  · simp [cycle_zero]
  · simpa using cycle_half

/-- A further bit adds the angle of a turn. -/
theorem cycle_binaryFraction_succ {i j : ℕ} (hij : i ≤ j) (x : ℕ) :
    cycle (2 ^ i * binaryFraction (j + 1) x) = (if x.testBit j then
      Complex.exp ((Real.pi / 2 ^ (j - i) : ℝ) * Complex.I) else 1) *
        cycle (2 ^ i * binaryFraction j x) := by
  obtain ⟨d, rfl⟩ := Nat.exists_eq_add_of_le hij
  rw [binaryFraction_succ, mul_add, cycle_add, mul_comm]
  congr 1
  rw [Nat.add_sub_cancel_left]
  cases x.testBit (i + d)
  · simp [cycle_zero]
  · rw [if_pos rfl, cycle, Bool.toNat_true]
    congr 1
    push_cast
    rw [pow_succ, pow_add]
    field_simp

end Phases

section Transform

/-- The amplitude of the discrete Fourier transform on `n` qubits from index `x` to index `k`. -/
noncomputable def fourierAmplitude (n x k : ℕ) : ℂ :=
  ((2 : ℝ) ^ (-(n : ℝ) / 2) : ℝ) *
    Complex.exp (2 * Real.pi * Complex.I * ((x * k : ℕ) / 2 ^ n))

theorem sqrt_half_pow (n : ℕ) : Real.sqrt (1 / 2) ^ n = (2 : ℝ) ^ (-(n : ℝ) / 2) := by
  rw [Real.sqrt_eq_rpow, one_div, Real.inv_rpow (by norm_num), ← Real.rpow_neg (by norm_num),
    ← Real.rpow_natCast, ← Real.rpow_mul (by norm_num)]
  congr 1
  ring

/-- On two qubits and more the reversal is visible. From index 1 to index 1 the reversed transform
makes whole turns, and the transform does not. -/
theorem fourierAmplitude_reversed_ne {n : ℕ} (hn : 2 ≤ n) :
    fourierAmplitude n (reversed n 1) (reversed n 1) ≠ fourierAmplitude n 1 1 := by
  have hscale : (((2 : ℝ) ^ (-(n : ℝ) / 2) : ℝ) : ℂ) ≠ 0 := by
    exact_mod_cast (Real.rpow_pos_of_pos two_pos _).ne'
  have hwhole : Complex.exp (2 * Real.pi * Complex.I *
      ((reversed n 1 * reversed n 1 : ℕ) / 2 ^ n)) = 1 := by
    obtain ⟨d, rfl⟩ := Nat.exists_eq_add_of_le hn
    rw [reversed_one (by omega), ← Complex.exp_nat_mul_two_pi_mul_I (2 ^ d)]
    congr 1
    have hpred : 2 + d - 1 = d + 1 := by omega
    rw [hpred]
    push_cast
    field_simp
    ring
  intro heq
  have hone : Complex.exp (2 * Real.pi * Complex.I * ((1 * 1 : ℕ) / 2 ^ n)) = 1 :=
    (mul_left_cancel₀ hscale heq).symm.trans hwhole
  obtain ⟨m, hm⟩ := Complex.exp_eq_one_iff.1 hone
  have hturns : (1 : ℂ) / 2 ^ n = m := by
    apply mul_left_cancel₀ Complex.two_pi_I_ne_zero
    rw [mul_comm _ (m : ℂ), ← hm]
    push_cast
    ring
  have hdvd : (2 : ℤ) ^ n ∣ 1 := by
    field_simp at hturns
    exact ⟨m, by exact_mod_cast hturns⟩
  have hle : (2 : ℤ) ^ n ≤ 1 := Int.le_of_dvd one_pos hdvd
  have hlt : (1 : ℤ) < 2 ^ n := one_lt_pow₀ (by norm_num) (by omega)
  omega

end Transform

namespace Statevector

/-- The coefficients before the stage of qubit `i`, from basis index `x`. The lower qubits are done;
the others have the values they had. -/
noncomputable def beforeStage (n x i k : ℕ) : ℂ :=
  if k / 2 ^ i = x / 2 ^ i then
    (Real.sqrt (1 / 2) : ℂ) ^ i * cycle (binaryFraction n x * (k % 2 ^ i : ℕ))
  else 0

/-- The coefficients in the stage of qubit `i`, before it is turned by qubit `j`. -/
noncomputable def beforeTurn (n x i j k : ℕ) : ℂ :=
  if k / 2 ^ (i + 1) = x / 2 ^ (i + 1) then
    (Real.sqrt (1 / 2) : ℂ) ^ (i + 1) * cycle (binaryFraction n x * (k % 2 ^ i : ℕ)) *
      if k.testBit i then cycle (2 ^ i * binaryFraction j x) else 1
  else 0

variable {n x i j : ℕ}

theorem beforeStage_zero (n x k : ℕ) : beforeStage n x 0 k = if k = x then 1 else 0 := by
  simp [beforeStage, Nat.mod_one, cycle_zero]

/-- A qubit that has been turned by all above it is done. -/
theorem beforeTurn_last (n x i k : ℕ) : beforeTurn n x i n k = beforeStage n x (i + 1) k := by
  have hmod : k % 2 ^ (i + 1) = k % 2 ^ i + 2 ^ i * (k.testBit i).toNat := by
    rw [Nat.mod_pow_succ, Nat.toNat_testBit]
  unfold beforeTurn beforeStage
  rw [hmod, Nat.cast_add, mul_add, cycle_add, mul_assoc]
  split
  · congr 2
    cases k.testBit i
    · simp [cycle_zero]
    · simp [mul_comm]
  · rfl

theorem carries_hadamard (hi : i < n) (hn : n ≤ 32) :
    Carries n [.standard (.plain .h) [⟨i.toUInt32⟩]] (beforeStage n x i)
      (beforeTurn n x i (i + 1)) := by
  have hindex : Qubit.index ⟨i.toUInt32⟩ = i := Qubit.index_toUInt32 (by omega)
  apply carries_h
  · rwa [hindex]
  intro k _
  have hsame (b : Bool) : withBit k i b / 2 ^ i = x / 2 ^ i ↔
      k / 2 ^ (i + 1) = x / 2 ^ (i + 1) ∧ b = x.testBit i := by
    rw [div_two_pow_eq_iff, withBit_div (Nat.lt_succ_self i), testBit_withBit, if_pos rfl]
  simp only [hindex, beforeStage, beforeTurn, hsame, withBit_mod, cycle_binaryFraction_succ_self]
  by_cases hrest : k / 2 ^ (i + 1) = x / 2 ^ (i + 1)
  · -- of the two indices that differ in the qubit one agrees with `x` in it
    cases x.testBit i <;> cases k.testBit i <;> simp [hrest] <;> ring
  · simp [hrest]

theorem carries_fourierTurn (hij : i < j) (hj : j < n) (hn : n ≤ 32) :
    Carries n [Circuit.fourierTurn i j] (beforeTurn n x i j) (beforeTurn n x i (j + 1)) := by
  have hi : Qubit.index ⟨i.toUInt32⟩ = i := Qubit.index_toUInt32 (by omega)
  have hindex : Qubit.index ⟨j.toUInt32⟩ = j := Qubit.index_toUInt32 (by omega)
  have hangle : (Scalar.pi / Scalar.ofNat (1 <<< (j - i)) : ℝ) = Real.pi / 2 ^ (j - i) := by
    rw [Nat.one_shiftLeft]
    simp
  unfold Circuit.fourierTurn
  rw [hangle]
  apply carries_cp (Qubit.toUInt32_ne (by omega) (by omega) hij.ne')
  · rwa [hindex]
  · rw [hi]
    exact hij.trans hj
  intro k _
  rw [hi, hindex]
  unfold beforeTurn
  split
  next hrest =>
    rw [cycle_binaryFraction_succ hij.le, testBit_eq_of_div_eq hrest hij]
    cases k.testBit i <;> cases x.testBit j <;> simp
    all_goals ring
  next => rw [mul_zero]

theorem carries_fourierStage (hi : i < n) (hn : n ≤ 32) :
    Carries n (Circuit.fourierStage n i) (beforeStage n x i) (beforeStage n x (i + 1)) := by
  have hturns := carries_loop (v := fun k => beforeTurn n x i (i + 1 + k)) (m := n - (i + 1))
    fun k hk => carries_fourierTurn (i := i) (j := i + 1 + k) (by omega) (by omega) hn
  rw [Nat.add_sub_cancel' hi, funext (beforeTurn_last n x i)] at hturns
  exact (carries_hadamard hi hn).append hturns

theorem carries_fourierSwaps (hn : n ≤ 32) (v : ℕ → ℂ) :
    Carries n (Circuit.fourierSwaps n) v fun k => v (reversed n k) := by
  have hswaps : Carries n (Circuit.fourierSwaps n) (fun k => v (exchanged n 0 k))
      fun k => v (exchanged n (n / 2) k) := by
    apply carries_loop (v := fun m k => v (exchanged n m k))
    intro m hm
    have hlow : Qubit.index ⟨m.toUInt32⟩ = m := Qubit.index_toUInt32 (by omega)
    have hhigh : Qubit.index ⟨(n - 1 - m).toUInt32⟩ = n - 1 - m :=
      Qubit.index_toUInt32 (by omega)
    apply carries_swap (Qubit.toUInt32_ne (by omega) (by omega) (by omega))
    · omega
    · omega
    · intro k _
      rw [hlow, hhigh]
      rfl
  exact hswaps.congr fun k hk => congrArg v (exchanged_half hk)

/-- After all stages the coefficients are a row of the transform, from the reversed index. -/
theorem beforeStage_last (hx : x < 2 ^ n) {k : ℕ} (hk : k < 2 ^ n) :
    beforeStage n x n k = fourierAmplitude n (reversed n x) k := by
  rw [beforeStage, Nat.div_eq_of_lt hk, Nat.div_eq_of_lt hx, if_pos rfl, Nat.mod_eq_of_lt hk,
    fourierAmplitude, ← sqrt_half_pow, cycle, binaryFraction, Complex.ofReal_pow]
  congr 2
  push_cast
  ring

theorem carries_fourierInstructions (hn : n ≤ 32) (hx : x < 2 ^ n) :
    Carries n (Circuit.fourierInstructions n) (fun k => if k = x then 1 else 0)
      fun k => fourierAmplitude n (reversed n x) (reversed n k) := by
  have hstages : Carries n ((List.range n).flatMap (Circuit.fourierStage n)) (beforeStage n x 0)
      (beforeStage n x n) := carries_loop fun i hi => carries_fourierStage hi hn
  rw [funext (beforeStage_zero n x)] at hstages
  exact (hstages.append (carries_fourierSwaps hn _)).congr fun k _ =>
    beforeStage_last hx (reversed_lt n k)

/-- A register in one basis state. -/
structure IsBasis (s : Statevector ℝ) (n x : ℕ) : Prop where
  hasWidth : s.HasWidth n
  coefficient : ∀ k < 2 ^ n, s.coefficient k = if k = x then 1 else 0

end Statevector

namespace Circuit
open Statevector

/-- The Fourier circuit of a register applies to every basis state and yields the discrete Fourier
transform with the bits of both indices in opposite order. That is the transform itself on one
qubit only: on two and more the amplitudes from index 1 to index 1 differ. A register of more than
32 qubits has no such circuit, since the angle between its outermost qubits cannot be formed. -/
theorem qft_computes_reversed {n : UInt32} (hpos : 1 ≤ n.toNat) :
    (n.toNat ≤ 32 → ∃ c : Circuit ℝ, qft n = .ok c ∧ c.validate = .ok () ∧ c.numQubits = n ∧
      ∀ x < 2 ^ n.toNat, ∀ s : Statevector ℝ, s.IsBasis n.toNat x →
        ∃ t, s.applyAll c.instructions = .ok t ∧ t.HasWidth n.toNat ∧
          ∀ k < 2 ^ n.toNat, t.coefficient k =
            fourierAmplitude n.toNat (reversed n.toNat x) (reversed n.toNat k)) ∧
    (32 < n.toNat → (qft n : Except (CircuitError ℝ) (Circuit ℝ)) = .error (.fault .shift)) ∧
    ((∀ x < 2 ^ n.toNat, ∀ k < 2 ^ n.toNat,
      fourierAmplitude n.toNat (reversed n.toNat x) (reversed n.toNat k) =
        fourierAmplitude n.toNat x k) ↔ n.toNat = 1) := by
  refine ⟨fun hn => ?_, fun hn => qft_eq_fault hn, fun hsame => ?_, fun hone x hx k hk => ?_⟩
  · refine ⟨_, qft_eq_ok hpos hn, ?_, rfl, fun x hx s hs => ?_⟩
    · rw [validate_eq_ok]
      exact fits_fourierInstructions (c := ⟨"qft", n, 0, fourierInstructions n.toNat⟩)
    · exact carries_fourierInstructions hn hx s hs.hasWidth hs.coefficient
  · by_contra hne
    have htwo : 2 ≤ n.toNat := by omega
    have hlt : 1 < 2 ^ n.toNat := Nat.one_lt_two_pow (by omega)
    exact fourierAmplitude_reversed_ne htwo (hsame 1 hlt 1 hlt)
  · have hself (y : ℕ) (hy : y < 2 ^ n.toNat) : reversed n.toNat y = y := by
      rw [hone] at hy ⊢
      interval_cases y <;> rfl
    rw [hself x hx, hself k hk]

/-- On two qubits index 1 goes to itself with amplitude one half; the transform has half the
imaginary unit there. -/
theorem qft_computes_reversed_two :
    let s : Statevector ℝ := ⟨2, #[.zero, .one, .zero, .zero], {}⟩
    s.IsBasis 2 1 ∧ fourierAmplitude 2 1 1 = Complex.I / 2 ∧
      ∃ c t, qft 2 = .ok c ∧ s.applyAll c.instructions = .ok t ∧ t.coefficient 1 = 1 / 2 := by
  intro s
  have hs : s.IsBasis 2 1 := by
    refine ⟨⟨⟨by decide, rfl⟩, rfl⟩, fun k hk => ?_⟩
    interval_cases k <;> simp [s, coefficient, Kernel.valueAt]
  have hscale : ((2 : ℝ) ^ (-((2 : ℕ) : ℝ) / 2)) = 1 / 2 := by
    norm_num [Real.rpow_neg_one]
  have hquarter : fourierAmplitude 2 1 1 = Complex.I / 2 := by
    have hexp : (2 * Real.pi * Complex.I * ((1 * 1 : ℕ) / 2 ^ 2) : ℂ) =
        Real.pi / 2 * Complex.I := by
      push_cast
      ring
    rw [fourierAmplitude, hscale, hexp, Complex.exp_pi_div_two_mul_I]
    push_cast
    ring
  have hwhole : fourierAmplitude 2 2 2 = 1 / 2 := by
    have hexp : (2 * Real.pi * Complex.I * ((2 * 2 : ℕ) / 2 ^ 2) : ℂ) =
        2 * Real.pi * Complex.I := by
      push_cast
      ring
    rw [fourierAmplitude, hscale, hexp, Complex.exp_two_pi_mul_I]
    push_cast
    ring
  obtain ⟨c, hc, -, -, hrun⟩ := (qft_computes_reversed (n := 2) (by decide)).1 (by decide)
  obtain ⟨t, happly, -, hcoeff⟩ := hrun 1 (by decide) s hs
  exact ⟨hs, hquarter, c, t, hc, happly, (hcoeff 1 (by decide)).trans hwhole⟩

end Circuit

end QuantumSim
