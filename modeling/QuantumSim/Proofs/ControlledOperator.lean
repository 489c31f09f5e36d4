import Mathlib
import QuantumSim.Proofs.Application
import QuantumSim.Proofs.Exact

/-!
Gates as controlled operators. Over exact amplitudes a gate applies the matrix of its lowered
operator to the target factor of the tensor product, on the indices that its controls select.
-/
namespace QuantumSim
open BasisIndex

/-- The complex matrix of a gate matrix. -/
def GateMatrix.toMatrix {n : ℕ} (m : GateMatrix ℝ n) : Matrix (Fin n) (Fin n) ℂ :=
  Matrix.of fun row col => ((m.get row).get col).toComplex

theorem GateMatrix.toMatrix_apply {n : ℕ} (m : GateMatrix ℝ n) (row col : Fin n) :
    m.toMatrix row col = ((m.get row).get col).toComplex := rfl

namespace Operator

/-- The matrix of an operator on its targets. Bit 0 of a row index is the first target. -/
def dense : (op : Operator ℝ) → Matrix (Fin (2 ^ op.numTargets)) (Fin (2 ^ op.numTargets)) ℂ
  | diagonal zero one => Matrix.diagonal fun k => (if k.val = 0 then zero else one).toComplex
  | single m => m.toMatrix
  | double m => m.toMatrix

/-- The row of the matrix that a basis index has, by its bits at the targets. -/
def rowOf (op : Operator ℝ) (targets : List ℕ) (i : ℕ) : Fin (2 ^ op.numTargets) :=
  Fin.ofNat _ (localIndex targets i)

end Operator

/-- The controlled operator of a gate on the tensor product. An index on which every control holds
gets its row of the operator times the amplitudes that differ from it in the targets only; any other
index keeps its amplitude. -/
def LoweredGate.image (lowered : LoweredGate ℝ) (controls : List Control) (operands : List Qubit)
    (v : ℕ → ℂ) (i : ℕ) : ℂ :=
  let targets := lowered.targets operands
  if Selected (operands.take lowered.controls) controls i then
    ∑ k, lowered.operator.dense (lowered.operator.rowOf targets i) k * v (replaceBits targets k i)
  else v i

namespace Operator

theorem val_rowOf {op : Operator ℝ} {targets : List ℕ} (hlen : targets.length = op.numTargets)
    (i : ℕ) : (op.rowOf targets i).val = localIndex targets i :=
  Nat.mod_eq_of_lt (hlen ▸ localIndex_lt targets i)

/-- The row that an operator applies is the row of its matrix. -/
theorem toComplex_rowAt {op : Operator ℝ} {targets : List ℕ} (hlen : targets.length = op.numTargets)
    (hnodup : targets.Nodup) (f : ℕ → Amplitude ℝ) (i : ℕ) :
    (op.rowAt targets f i).toComplex =
      ∑ k, op.dense (op.rowOf targets i) k * (f (replaceBits targets k i)).toComplex := by
  cases op with
  | diagonal zero one =>
    obtain ⟨t, rfl⟩ := List.length_eq_one_iff.1 hlen
    have hself : replaceBits [t] (rowOf (.diagonal zero one) [t] i) i = i := by
      rw [val_rowOf hlen, replaceBits_localIndex hnodup]
    unfold dense
    simp only [Matrix.diagonal_apply, ite_mul, zero_mul]
    rw [Finset.sum_ite_eq Finset.univ, if_pos (Finset.mem_univ _), hself, val_rowOf hlen]
    cases hbit : i.testBit t <;> simp [rowAt, hbit, localIndex, mul_comm]
  | single m =>
    obtain ⟨t, rfl⟩ := List.length_eq_one_iff.1 hlen
    have hrow (r : Fin 2) (g : ℕ → ℂ) : ∑ k, (single m).dense r k * g k =
        m[r.val][0].toComplex * g 0 + m[r.val][1].toComplex * g 1 := Fin.sum_univ_two _
    refine Eq.trans ?_ (hrow (rowOf (.single m) [t] i) fun k =>
      (f (replaceBits [t] k i)).toComplex).symm
    simp only [val_rowOf hlen]
    cases hbit : i.testBit t <;>
      simp [rowAt, Kernel.singleRow, Vector.get_eq_getElem, hbit, localIndex, replaceBits]
  | double m =>
    obtain ⟨t0, t1, rfl⟩ := List.length_eq_two.1 hlen
    have hne : t0 ≠ t1 := by simpa using hnodup
    have hrow (r : Fin 4) (g : ℕ → ℂ) : ∑ k, (double m).dense r k * g k =
        m[r.val][0].toComplex * g 0 + m[r.val][1].toComplex * g 1 + m[r.val][2].toComplex * g 2 +
          m[r.val][3].toComplex * g 3 := Fin.sum_univ_four _
    refine Eq.trans ?_
      (hrow (rowOf (.double m) [t0, t1] i) fun k => (f (replaceBits [t0, t1] k i)).toComplex).symm
    simp only [val_rowOf hlen]
    cases h0 : i.testBit t0 <;> cases h1 : i.testBit t1 <;>
      simp [rowAt, Kernel.doubleRow, Kernel.rowTimes, Vector.get_eq_getElem, h0, h1, localIndex,
        replaceBits, withBit_comm hne]

end Operator

namespace Statevector

/-- The exact coefficient of a basis state. -/
noncomputable def coefficient (s : Statevector ℝ) (i : ℕ) : ℂ :=
  (Kernel.valueAt s.amplitudes i).toComplex

/-- A lowered gate maps the coefficients of a register as its controlled operator does. -/
theorem exists_applyLowered_eq {s : Statevector ℝ} (hs : s.IsRegister) {lowered : LoweredGate ℝ}
    {gate : Gate ℝ} {operands : List Qubit} (hfits : lowered.Accepts s.numQubits gate operands) :
    ∃ t, s.applyLowered lowered gate operands = .ok t ∧ t.numQubits = s.numQubits ∧
      t.machine = s.machine ∧ t.size = s.size ∧
      ∀ i < s.size, t.coefficient i = lowered.image gate.controls operands s.coefficient i := by
  refine ⟨_, applyLowered_eq hs hfits, rfl, rfl, Kernel.size_transform _ _, fun i hi => ?_⟩
  unfold coefficient
  rw [Kernel.valueAt_transform _ hi, gatePass, LoweredGate.image]
  split
  · exact Operator.toComplex_rowAt hfits.length_targets hfits.nodup_targets _ i
  · rfl

/-- A gate instruction that fits the register applies, and its operands are accepted. -/
theorem exists_apply_gate_eq {c : Circuit ℝ} {s : Statevector ℝ} (hs : s.IsRegister)
    (hwidth : s.numQubits = c.numQubits.toNat) {inst : Instruction ℝ} (hfits : c.Fits inst)
    {g : Gate ℝ} (hgate : inst.operation = .gate g) {lowered : LoweredGate ℝ}
    (hlower : g.kind.lower = .ok lowered) :
    lowered.Accepts s.numQubits g inst.qubits ∧ ∃ t, s.apply inst = .ok t ∧ t.IsRegister ∧
      t.numQubits = s.numQubits ∧ t.machine = s.machine ∧ t.size = s.size ∧
      ∀ i < s.size, t.coefficient i = lowered.image g.controls inst.qubits s.coefficient i := by
  have haccepts := hwidth.symm ▸ hfits.accepts hgate hlower
  obtain ⟨t, happly, hn, hmachine, hsize, hcoeff⟩ := exists_applyLowered_eq hs haccepts
  have ht : t.IsRegister := by
    constructor
    · exact hn ▸ hs.width
    · rw [hn, ← hs.size]
      exact hsize
  refine ⟨haccepts, t, ?_, ht, hn, hmachine, hsize, hcoeff⟩
  unfold apply
  rw [hgate]
  exact bind_eq_ok.2 ⟨lowered, hlower, happly⟩

/-- A checked gate instruction with finite angles or an accepted matrix maps a register by the
controlled operator of its gate. -/
theorem apply_gate_eq_controlledOperator {c : Circuit ℝ} {s : Statevector ℝ} (hs : s.IsRegister)
    (hwidth : c.numQubits.toNat = s.numQubits) {inst : Instruction ℝ} {g : Gate ℝ}
    (hgate : inst.operation = .gate g) (hcheck : c.check inst = .ok ()) (hready : g.kind.Ready) :
    ∃ lowered t, g.kind.lower = .ok lowered ∧ s.apply inst = .ok t ∧ t.numQubits = s.numQubits ∧
      t.size = s.size ∧
      ∀ i < s.size, t.coefficient i = lowered.image g.controls inst.qubits s.coefficient i := by
  obtain ⟨lowered, hlower⟩ := hready.exists_lower
  obtain ⟨t, happly, hn, -, hsize, hcoeff⟩ :=
    exists_applyLowered_eq hs (hwidth ▸ ((c.check_eq_ok inst).1 hcheck).accepts hgate hlower)
  refine ⟨lowered, t, hlower, ?_, hn, hsize, hcoeff⟩
  unfold apply
  rw [hgate]
  simpa only [hlower, ok_bind] using happly

/-- A controlled flip of qubit 0 by qubit 2, on indices whose bit 1 is clear. -/
theorem apply_controlledFlip_eq_controlledOperator :
    let c : Circuit ℝ := .withSize "flip" 3 0
    let g : Gate ℝ := (Gate.ofStandard (.plain .cx)).withControls [⟨⟨1⟩, .negative⟩]
    let s : Statevector ℝ := ⟨3, Array.replicate 8 .one, {}⟩
    c.check (.ofGate g [⟨2⟩, ⟨0⟩]) = .ok () ∧ g.kind.Ready ∧
      ∃ lowered t, g.kind.lower = .ok lowered ∧ s.apply (.ofGate g [⟨2⟩, ⟨0⟩]) = .ok t ∧
        t.numQubits = s.numQubits ∧ t.size = s.size ∧
        ∀ i < s.size, t.coefficient i = lowered.image g.controls [⟨2⟩, ⟨0⟩] s.coefficient i := by
  intro c g s
  have hcheck : c.check (.ofGate g [⟨2⟩, ⟨0⟩]) = .ok () := rfl
  have hready : g.kind.Ready := fun p hp => absurd hp List.not_mem_nil
  exact ⟨hcheck, hready,
    apply_gate_eq_controlledOperator ⟨by decide, by simp [s]⟩ rfl rfl hcheck hready⟩

end Statevector

end QuantumSim
