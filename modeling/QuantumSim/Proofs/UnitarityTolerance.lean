import Mathlib
import QuantumSim.Proofs.NormPreservation

/-!
User matrices that are accepted as unitary without being so. The check bounds the entries of the
product of the matrix with its adjoint, the norm check a sum over the register: applied to a state
of norm one, an accepted matrix moves the squared norm by up to its dimension times the tolerance,
which the norm check need not accept.
-/
namespace QuantumSim

/-- The product of the operator with its adjoint has the entries of the identity within `δ`. -/
def Operator.NearUnitary (op : Operator ℝ) (δ : ℝ) : Prop :=
  ∀ row col, ‖(op.dense * op.dense.conjTranspose - 1) row col‖ ≤ δ

theorem Operator.NearUnitary.nonneg {op : Operator ℝ} {δ : ℝ} (h : op.NearUnitary δ) : 0 ≤ δ :=
  (norm_nonneg _).trans (h 0 0)

/-- The operator of an accepted matrix acts on as many qubits as the matrix, without controls, and
is unitary within the tolerance. -/
theorem MatrixGate.nearUnitary_of_lower {m : MatrixGate ℝ} {lowered : LoweredGate ℝ}
    (h : m.lower = .ok lowered) :
    lowered.operator.numTargets = m.numQubits.toNat ∧
      lowered.operator.NearUnitary Scalar.tolerance := by
  unfold MatrixGate.lower at h
  dsimp only at h
  split at h
  next hone =>
    rw [hone]
    split at h
    next matrix _ =>
      split at h
      · cases h
      next haccepted =>
        cases h
        exact ⟨rfl, GateMatrix.nonUnitary?_eq_none_iff.1 haccepted⟩
    · cases h
  next =>
    split at h
    next htwo =>
      rw [htwo]
      split at h
      next matrix _ =>
        split at h
        · cases h
        next haccepted =>
          cases h
          exact ⟨rfl, GateMatrix.nonUnitary?_eq_none_iff.1 haccepted⟩
      · cases h
    · cases h

theorem two_pow_mul_tolerance_lt_one {n : ℕ} (hn : n ≤ 2) :
    2 ^ n * (Scalar.tolerance : ℝ) < 1 := by
  rw [Scalar.tolerance_real]
  interval_cases n <;> norm_num

theorem Operator.numTargets_le (op : Operator ℝ) : op.numTargets ≤ 2 := by
  cases op <;> simp [numTargets]

/-- An operator that is unitary within `δ` moves the norm of a register by at most its dimension
times `δ`. -/
theorem LoweredGate.Accepts.abs_mass_image_sub_le_of_nearUnitary {lowered : LoweredGate ℝ} {n : ℕ}
    {gate : Gate ℝ} {operands : List Qubit} (h : lowered.Accepts n gate operands) {δ : ℝ}
    (hδ : lowered.operator.NearUnitary δ) (hle : δ ≤ Scalar.tolerance) (v : ℕ → ℂ) :
    |mass n (lowered.image gate.controls operands v) - mass n v| ≤
      2 ^ lowered.operator.numTargets * δ * mass n v := by
  have h0 := hδ.nonneg
  have h1 : 2 ^ lowered.operator.numTargets * δ < 1 :=
    (mul_le_mul_of_nonneg_left hle (by positivity)).trans_lt
      (two_pow_mul_tolerance_lt_one lowered.operator.numTargets_le)
  have hnear := nearIsometry_of_entries h0 (by exact_mod_cast h1) hδ
  rw [Nat.cast_pow, Nat.cast_ofNat] at hnear
  exact h.abs_mass_image_sub_le (by positivity) hnear v

/-- A Hadamard gate with columns of different lengths. -/
noncomputable def GateMatrix.uneven (first second : ℝ) : GateMatrix ℝ 2 :=
  #v[#v[.ofReal first, .ofReal second], #v[.ofReal first, .ofReal (-second)]]

noncomputable def MatrixGate.uneven (first second : ℝ) : MatrixGate ℝ :=
  ⟨1, #[.ofReal first, .ofReal second, .ofReal first, .ofReal (-second)]⟩

/-- If the first column is too long by twice the tolerance, every entry of the product with the
adjoint is off by the tolerance, and the gate is accepted. -/
theorem MatrixGate.uneven_lower {first second : ℝ} (hfirst : first ^ 2 = 1 / 2 + Scalar.tolerance)
    (hsecond : second ^ 2 = 1 / 2) :
    (uneven first second).lower = .ok ⟨.single (.uneven first second), 0⟩ := by
  have hentry (row col : Fin 2) : ((GateMatrix.uneven first second).toMatrix *
      (GateMatrix.uneven first second).toMatrix.conjTranspose - 1) row col =
        ((Scalar.tolerance : ℝ) : ℂ) := by
    have hfirst := congrArg (fun x : ℝ => (x : ℂ)) hfirst
    have hsecond := congrArg (fun x : ℝ => (x : ℂ)) hsecond
    push_cast [sq] at hfirst hsecond
    fin_cases row <;> fin_cases col <;>
      simp [GateMatrix.uneven, Matrix.mul_apply, GateMatrix.toMatrix_apply, Vector.get_eq_getElem,
        hfirst, hsecond] <;> ring
  have haccepted : (GateMatrix.uneven first second).nonUnitary? = none := by
    refine GateMatrix.nonUnitary?_eq_none_iff.2 fun row col => ?_
    rw [hentry, Complex.norm_real, Real.norm_of_nonneg Scalar.tolerance_pos.le]
  have hentries : GateMatrix.ofEntries? 2 (uneven first second).entries =
      some (.uneven first second) := rfl
  unfold lower
  rw [hentries]
  simp [uneven, haccepted]

theorem sq_sqrt_half_add_tolerance :
    √(1 / 2 + Scalar.tolerance) ^ 2 = 1 / 2 + (Scalar.tolerance : ℝ) :=
  Real.sq_sqrt (by have := Scalar.tolerance_pos; positivity)

theorem MatrixGate.uneven_sqrt_lower :
    (uneven √(1 / 2 + Scalar.tolerance) √(1 / 2)).lower =
      .ok ⟨.single (.uneven √(1 / 2 + Scalar.tolerance) √(1 / 2)), 0⟩ :=
  uneven_lower sq_sqrt_half_add_tolerance (Real.sq_sqrt (by norm_num))

/-- Alone on a register of one qubit, the gate maps zero to its first column. -/
theorem LoweredGate.image_uneven (first second : ℝ) {v : ℕ → ℂ} (hzero : v 0 = 1) (hone : v 1 = 0)
    {i : ℕ} (hi : i < 2) :
    (⟨.single (.uneven first second), 0⟩ : LoweredGate ℝ).image [] [⟨0⟩] v i = first := by
  have hselected : Selected ([⟨0⟩].take 0) [] i := by simp [Selected]
  have hmember (k : ℕ) (hk : k < 2) : v (BasisIndex.replaceBits [0] k i) = v k := by
    congr 1
    interval_cases i <;> interval_cases k <;> decide
  rw [image, if_pos hselected]
  refine (Fin.sum_univ_two _).trans ?_
  change _ * v (BasisIndex.replaceBits [0] 0 i) + _ * v (BasisIndex.replaceBits [0] 1 i) = _
  rw [hmember 0 (by decide), hmember 1 (by decide), hzero, hone, mul_one, mul_zero, add_zero]
  interval_cases i <;> exact Amplitude.toComplex_ofReal first

namespace Statevector

/-- Every placement of an accepted matrix, with any controls, maps a state of norm one to a state
whose squared norm is one within the tolerance times the dimension of the matrix. The norm check
therefore accepts the result if the matrix is unitary within the tolerance divided by the
dimension. -/
theorem abs_normSq_apply_sub_one_le {c : Circuit ℝ} {s : Statevector ℝ} (hs : s.IsRegister)
    (hwidth : s.numQubits = c.numQubits.toNat) (hnorm : s.normSq = 1) {inst : Instruction ℝ}
    {g : Gate ℝ} {m : MatrixGate ℝ} {lowered : LoweredGate ℝ} (hcheck : c.check inst = .ok ())
    (hop : inst.operation = .gate g) (hkind : g.kind = .matrix m) (hlower : m.lower = .ok lowered) :
    ∃ t, s.apply inst = .ok t ∧ t.IsRegister ∧ t.numQubits = s.numQubits ∧
      |t.normSq - 1| ≤ 2 ^ m.numQubits.toNat * Scalar.tolerance ∧
      (lowered.operator.NearUnitary (Scalar.tolerance / 2 ^ m.numQubits.toNat) →
        ∀ context, t.checkNorm context = .ok ()) := by
  obtain ⟨htargets, haccepted⟩ := MatrixGate.nearUnitary_of_lower hlower
  rw [← GateKind.lower_matrix_eq_ok, ← hkind] at hlower
  obtain ⟨haccepts, t, happly, ht, hn, -, -, hcoeff⟩ :=
    exists_apply_gate_eq hs hwidth ((c.check_eq_ok inst).1 hcheck) hop hlower
  rw [hs.size_eq] at hcoeff
  have hmoved {δ : ℝ} (hδ : lowered.operator.NearUnitary δ) (hle : δ ≤ Scalar.tolerance) :
      |t.normSq - 1| ≤ 2 ^ m.numQubits.toNat * δ := by
    have hbound := haccepts.abs_mass_image_sub_le_of_nearUnitary hδ hle s.coefficient
    rwa [← mass_congr hcoeff, ← hn, ← normSq_eq_mass ht, hn, ← normSq_eq_mass hs, hnorm, mul_one,
      htargets] at hbound
  refine ⟨t, happly, ht, hn, hmoved haccepted le_rfl, fun htight context => ?_⟩
  have hpow : (1 : ℝ) ≤ 2 ^ m.numQubits.toNat := one_le_pow₀ one_le_two
  have hkept := hmoved htight (div_le_self Scalar.tolerance_pos.le hpow)
  rw [mul_div_cancel₀ _ (by positivity)] at hkept
  exact (checkNorm_eq_ok_iff context).2 hkept

/-- The uneven gate under a negative control, on a state of norm one that it does not keep. -/
theorem abs_normSq_apply_sub_one_le_uneven :
    let m : MatrixGate ℝ := .uneven √(1 / 2 + Scalar.tolerance) √(1 / 2)
    let g := (Gate.ofMatrix m).withControls [⟨⟨1⟩, .negative⟩]
    let c : Circuit ℝ := .withSize "uneven" 2 0
    let s : Statevector ℝ := ⟨2, #[.zero, .i, .zero, .zero], {}⟩
    c.check (.ofGate g [⟨0⟩]) = .ok () ∧ s.normSq = 1 ∧
      ∃ t, s.apply (.ofGate g [⟨0⟩]) = .ok t ∧ |t.normSq - 1| ≤ 2 * Scalar.tolerance := by
  intro m g c s
  have hs : s.IsRegister := ⟨by decide, rfl⟩
  have hcheck : c.check (.ofGate g [⟨0⟩]) = .ok () := rfl
  have hnorm : s.normSq = 1 := by
    rw [normSq_eq_mass hs]
    simp [mass, Finset.sum_range_succ, coefficient, Kernel.valueAt, s]
  obtain ⟨t, happly, -, -, hnear, -⟩ :=
    abs_normSq_apply_sub_one_le hs rfl hnorm hcheck rfl rfl MatrixGate.uneven_sqrt_lower
  exact ⟨hcheck, hnorm, t, happly, by simpa [m, MatrixGate.uneven] using hnear⟩

/-- The uneven gate is accepted, and the norm check refuses what it makes of the zero state: the
squared norm is off by twice the tolerance. -/
theorem checkNorm_refuses_uneven :
    let m : MatrixGate ℝ := .uneven √(1 / 2 + Scalar.tolerance) √(1 / 2)
    let c : Circuit ℝ := .withSize "uneven" 1 0
    let s : Statevector ℝ := ⟨1, #[.one, .zero], {}⟩
    (∃ lowered, m.lower = .ok lowered) ∧ c.check (.ofGate (.ofMatrix m) [⟨0⟩]) = .ok () ∧
      s.normSq = 1 ∧ ∃ t, s.apply (.ofGate (.ofMatrix m) [⟨0⟩]) = .ok t ∧
        t.normSq = 1 + 2 * Scalar.tolerance ∧
        ∀ context, t.checkNorm context = .error (.normViolation t.normSq context) := by
  intro m c s
  have hs : s.IsRegister := ⟨by decide, rfl⟩
  have hcheck : c.check (.ofGate (.ofMatrix m) [⟨0⟩]) = .ok () := rfl
  have hnorm : s.normSq = 1 := by
    rw [normSq_eq_mass hs]
    simp [mass, Finset.sum_range_succ, coefficient, Kernel.valueAt, s]
  have hlower : m.lower = .ok _ := MatrixGate.uneven_sqrt_lower
  obtain ⟨-, t, happly, ht, hn, -, -, hcoeff⟩ :=
    exists_apply_gate_eq hs rfl ((c.check_eq_ok _).1 hcheck) rfl
      (GateKind.lower_matrix_eq_ok.2 hlower)
  have hcolumn (i : ℕ) (hi : i < 2) : t.coefficient i = (√(1 / 2 + Scalar.tolerance) : ℝ) :=
    (hcoeff i hi).trans (LoweredGate.image_uneven _ _ Amplitude.toComplex_one
      Amplitude.toComplex_zero hi)
  have hlonger : t.normSq = 1 + 2 * Scalar.tolerance := by
    rw [normSq_eq_mass ht, hn]
    change ∑ i ∈ {0, 1}, Complex.normSq (t.coefficient i) = _
    rw [Finset.sum_pair (by decide), hcolumn 0 (by decide), hcolumn 1 (by decide),
      Complex.normSq_ofReal, ← sq, sq_sqrt_half_add_tolerance]
    ring
  have hrefused : Scalar.tolerance < |t.normSq - 1| := by
    have hpos := Scalar.tolerance_pos
    rw [hlonger, add_sub_cancel_left, abs_of_pos (by positivity)]
    linarith
  exact ⟨⟨_, hlower⟩, hcheck, hnorm, t, happly, hlonger, checkNorm_eq_error hrefused⟩

end Statevector

end QuantumSim
