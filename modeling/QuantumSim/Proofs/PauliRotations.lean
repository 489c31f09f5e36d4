import Mathlib
import QuantumSim.Proofs.GateActions
import QuantumSim.Proofs.PauliOperators
import QuantumSim.Proofs.Projection

/-!
Rotations about Pauli operators. Every rotation of the gate set, controlled or not, mixes a state
with the image that the gates of its axis compute, by the cosine and sine of half its angle. The
axis is its own inverse, so that the angles of rotations in turn add up.
-/
namespace QuantumSim
open BasisIndex

/-- The mixture of coefficients and their image under an axis, on the selected indices. The angle is
half of the one that the gate states. -/
noncomputable def rotated (selected : ℕ → Prop) [DecidablePred selected] (x : ℝ)
    (v image : ℕ → ℂ) (i : ℕ) : ℂ :=
  if selected i then Real.cos x * v i - Complex.I * Real.sin x * image i else v i

/-- A linear operator that is its own inverse and computes the selected coefficients from selected
ones. -/
structure IsReflection (selected : ℕ → Prop) (P : (ℕ → ℂ) → ℕ → ℂ) : Prop where
  linear : ∀ (a b : ℂ) (v w : ℕ → ℂ) (i : ℕ),
    P (fun k => a * v k + b * w k) i = a * P v i + b * P w i
  involutive : ∀ v, P (P v) = v
  closed : ∀ (v w : ℕ → ℂ), (∀ k, selected k → v k = w k) → ∀ i, selected i → P v i = P w i

/-- Rotations about one axis add their angles. -/
theorem IsReflection.rotated_rotated {selected : ℕ → Prop} [DecidablePred selected]
    {P : (ℕ → ℂ) → ℕ → ℂ} (h : IsReflection selected P) (a b : ℝ) (v : ℕ → ℂ) :
    rotated selected b (rotated selected a v (P v)) (P (rotated selected a v (P v))) =
      rotated selected (a + b) v (P v) := by
  funext i
  by_cases hi : selected i
  · have hfirst : ∀ k, selected k → rotated selected a v (P v) k =
        Real.cos a * v k + -(Complex.I * Real.sin a) * P v k := by
      intro k hk
      rw [rotated, if_pos hk, neg_mul, sub_eq_add_neg]
    have himage : P (rotated selected a v (P v)) i =
        Real.cos a * P v i + -(Complex.I * Real.sin a) * v i := by
      rw [h.closed _ _ hfirst i hi, h.linear, h.involutive]
    have hcos : (Real.cos (a + b) : ℂ) = Real.cos a * Real.cos b - Real.sin a * Real.sin b := by
      rw [Real.cos_add]
      push_cast
      rfl
    have hsin : (Real.sin (a + b) : ℂ) = Real.sin a * Real.cos b + Real.cos a * Real.sin b := by
      rw [Real.sin_add]
      push_cast
      rfl
    rw [rotated, if_pos hi, himage, hfirst i hi, rotated, if_pos hi, hcos, hsin]
    linear_combination Real.sin a * Real.sin b * v i * Complex.I_mul_I
  · rw [rotated, if_neg hi, rotated, if_neg hi, rotated, if_neg hi]

namespace Statevector.PauliMasks

variable {m : PauliMasks}

theorem act_linear (m : PauliMasks) (a b : ℂ) (v w : ℕ → ℂ) (i : ℕ) :
    m.act (fun k => a * v k + b * w k) i = a * m.act v i + b * m.act w i := by
  unfold act
  ring

/-- Balanced masks stand for an operator that is its own inverse. -/
theorem Balanced.act_act (h : m.Balanced) (v : ℕ → ℂ) : m.act (m.act v) = v := by
  have hsq : Complex.I ^ (m.numY + m.numY) = (-1) ^ m.numY := by
    rw [← two_mul, pow_mul, Complex.I_sq]
  have hone : ((-1) ^ m.numY * (-1) ^ m.numY : ℂ) = 1 := by
    rw [← mul_pow]
    simp
  funext i
  have hmerge : (m.merge m).act v i = (-1) ^ m.numY * v i := by
    simp [act, merge, hsq]
  rw [PauliMasks.act_act, h, hmerge, ← mul_assoc, hone, one_mul]

end Statevector.PauliMasks

namespace PauliString
open Statevector

/-- One operator on every listed qubit. -/
def uniform (op : Pauli) (qubits : List Qubit) : PauliString := ⟨qubits.map fun q => (q, op)⟩

variable {op : Pauli} {qubits : List Qubit} {n : ℕ}

theorem isOn_uniform (op : Pauli) (hnodup : qubits.Nodup) (hrange : ∀ q ∈ qubits, q.index < n) :
    (uniform op qubits).IsOn n := by
  constructor
  · simpa [uniform, Function.comp_def] using hnodup
  · simpa [uniform] using hrange

theorem instructions_uniform {R : Type} (hop : op ≠ .i) (qubits : List Qubit) :
    ((uniform op qubits).instructions : List (Instruction R)) =
      qubits.map fun q => .standard op.gate [q] := by
  simp [instructions, uniform, hop, List.filter_map, Function.comp_def]

theorem toComplex_foldl_rowAt (op : Pauli) (qubits : List Qubit) (f : ℕ → Amplitude ℝ) (i : ℕ) :
    ((qubits.map Qubit.index).foldl (fun g q => op.operator.rowAt [q] g) f i).toComplex =
      (uniform op qubits).ops.foldl (fun w op => (PauliMasks.single op.1 op.2).act w)
        (fun k => (f k).toComplex) i := by
  induction qubits generalizing f with
  | nil => rfl
  | cons q qubits ih =>
    have hfirst : (fun k => (op.operator.rowAt [q.index] f k).toComplex) =
        (PauliMasks.single q op).act fun k => (f k).toComplex :=
      funext fun k => op.toComplex_rowAt q f k
    have hrest := ih (op.operator.rowAt [q.index] f)
    rw [hfirst] at hrest
    exact hrest

end PauliString

theorem exp_neg_mul_I (z : ℂ) :
    Complex.exp (-(z * Complex.I)) = Complex.cos z - Complex.sin z * Complex.I := by
  rw [← neg_mul, ← Complex.cos_sub_sin_I]

namespace Operator

/-- An operator that rotates by an angle about a Pauli operator on each of its targets. -/
def RotatesAbout (o : Operator ℝ) (op : Pauli) (x : ℝ) : Prop :=
  ∀ targets : List ℕ, targets.length = o.numTargets → targets.Nodup → ∀ f i,
    (o.rowAt targets f i).toComplex = Real.cos x * (f i).toComplex - Complex.I * Real.sin x *
      (targets.foldl (fun g q => op.operator.rowAt [q] g) f i).toComplex

variable (t : ℝ)

theorem rx_rotatesAbout : (single (.rx t)).RotatesAbout .x (t / 2) := by
  intro targets hlen _ f i
  obtain ⟨q, rfl⟩ := List.length_eq_one_iff.1 hlen
  cases hbit : i.testBit q <;>
    simp [rowAt, Kernel.singleRow, GateMatrix.rx, GateMatrix.x, Pauli.operator,
      Vector.get_eq_getElem, hbit, withBit_self hbit] <;>
    ring

theorem ry_rotatesAbout : (single (.ry t)).RotatesAbout .y (t / 2) := by
  intro targets hlen _ f i
  obtain ⟨q, rfl⟩ := List.length_eq_one_iff.1 hlen
  cases hbit : i.testBit q with
  | false =>
    simp [rowAt, Kernel.singleRow, GateMatrix.ry, GateMatrix.y, Pauli.operator,
      Vector.get_eq_getElem, hbit, withBit_self hbit]
    linear_combination -Complex.sin (t / 2) * (f (withBit i q true)).toComplex * Complex.I_mul_I
  | true =>
    simp [rowAt, Kernel.singleRow, GateMatrix.ry, GateMatrix.y, Pauli.operator,
      Vector.get_eq_getElem, hbit, withBit_self hbit]
    linear_combination Complex.sin (t / 2) * (f (withBit i q false)).toComplex * Complex.I_mul_I

theorem rz_rotatesAbout : (StandardGate.rzPhases t).RotatesAbout .z (t / 2) := by
  intro targets hlen _ f i
  obtain ⟨q, rfl⟩ := List.length_eq_one_iff.1 hlen
  cases hbit : i.testBit q <;>
    simp [StandardGate.rzPhases, rowAt, Pauli.operator, Complex.exp_mul_I, exp_neg_mul_I, neg_div,
      hbit] <;>
    ring

theorem rxx_rotatesAbout : (double (.rxx t)).RotatesAbout .x (t / 2) := by
  intro targets hlen hnodup f i
  obtain ⟨a, b, rfl⟩ := List.length_eq_two.1 hlen
  have hne : a ≠ b := by simpa using hnodup
  cases ha : i.testBit a <;> cases hb : i.testBit b <;>
    simp [rowAt, Kernel.singleRow, Kernel.doubleRow, Kernel.rowTimes, GateMatrix.rxx, GateMatrix.x,
      Pauli.operator, Vector.get_eq_getElem, ha, hb, hne, withBit_self ha, withBit_self hb,
      withBit_comm hne] <;>
    ring

theorem ryy_rotatesAbout : (double (.ryy t)).RotatesAbout .y (t / 2) := by
  intro targets hlen hnodup f i
  obtain ⟨a, b, rfl⟩ := List.length_eq_two.1 hlen
  have hne : a ≠ b := by simpa using hnodup
  have hsquare (z : ℂ) : Complex.I * (Complex.I * z) = -z := by
    rw [← mul_assoc, Complex.I_mul_I, neg_one_mul]
  cases ha : i.testBit a <;> cases hb : i.testBit b <;>
    simp [rowAt, Kernel.singleRow, Kernel.doubleRow, Kernel.rowTimes, GateMatrix.ryy, GateMatrix.y,
      Pauli.operator, Vector.get_eq_getElem, ha, hb, hne, withBit_self ha, withBit_self hb,
      withBit_comm hne, hsquare] <;>
    ring

theorem rzz_rotatesAbout : (double (.rzz t)).RotatesAbout .z (t / 2) := by
  intro targets hlen hnodup f i
  obtain ⟨a, b, rfl⟩ := List.length_eq_two.1 hlen
  have hne : a ≠ b := by simpa using hnodup
  cases ha : i.testBit a <;> cases hb : i.testBit b <;>
    simp [rowAt, Kernel.doubleRow, Kernel.rowTimes, GateMatrix.rzz, Pauli.operator,
      Vector.get_eq_getElem, Complex.exp_mul_I, exp_neg_mul_I, neg_div, ha, hb, withBit_self ha,
      withBit_self hb, withBit_comm hne] <;>
    ring

/-- The rotation of one target about an axis in the equatorial plane. -/
theorem toComplex_rowAt_r (t phi : ℝ) (q : ℕ) (f : ℕ → Amplitude ℝ) (i : ℕ) :
    ((single (.r t phi)).rowAt [q] f i).toComplex =
      Real.cos (t / 2) * (f i).toComplex - Complex.I * Real.sin (t / 2) *
        (Real.cos phi * (Pauli.x.operator.rowAt [q] f i).toComplex +
          Real.sin phi * (Pauli.y.operator.rowAt [q] f i).toComplex) := by
  cases hbit : i.testBit q <;>
    simp [rowAt, Kernel.singleRow, GateMatrix.r, GateMatrix.x, GateMatrix.y, Pauli.operator,
      Vector.get_eq_getElem, Complex.exp_mul_I, exp_neg_mul_I, hbit, withBit_self hbit] <;>
    ring

end Operator

/-- The axis of a rotation gate, and how many of its leading operands are controls. -/
def GateSymbol.axis? : GateSymbol → Option (Pauli × ℕ)
  | rx | rxx => some (.x, 0)
  | ry | ryy => some (.y, 0)
  | rz | rzz => some (.z, 0)
  | crx => some (.x, 1)
  | cry => some (.y, 1)
  | crz => some (.z, 1)
  | _ => none

/-- A gate with an axis rotates about it. -/
theorem StandardGate.lower_rotatesAbout {symbol : GateSymbol} {op : Pauli} {k : ℕ}
    (haxis : symbol.axis? = some (op, k)) (h : symbol.arity = 1) (t : ℝ) :
    (rotation symbol t h).lower.controls = k ∧
      (rotation symbol t h).lower.operator.RotatesAbout op (t / 2) := by
  cases symbol <;> cases haxis
  case rx | crx => exact ⟨rfl, Operator.rx_rotatesAbout t⟩
  case ry | cry => exact ⟨rfl, Operator.ry_rotatesAbout t⟩
  case rz | crz => exact ⟨rfl, Operator.rz_rotatesAbout t⟩
  case rxx => exact ⟨rfl, Operator.rxx_rotatesAbout t⟩
  case ryy => exact ⟨rfl, Operator.ryy_rotatesAbout t⟩
  case rzz => exact ⟨rfl, Operator.rzz_rotatesAbout t⟩

/-- Distinct qubits of a register, as many as a gate takes. -/
structure GateSymbol.Operands (symbol : GateSymbol) (n : ℕ) (qubits : List Qubit) : Prop where
  length : qubits.length = symbol.numQubits.toNat
  distinct : qubits.Nodup
  range : ∀ q ∈ qubits, q.index < n

theorem GateSymbol.operands_singleton {symbol : GateSymbol} {n : ℕ} {q : Qubit}
    (h : symbol.numQubits = 1) (hq : q.index < n) : symbol.Operands n [q] := by
  constructor
  · simp [h]
  · exact List.nodup_singleton q
  · simpa using hq

/-- The instruction for a gate with numbers for angles. -/
def StandardGate.on (g : StandardGate ℝ) (qubits : List Qubit) : Instruction ℝ :=
  .standard (g.map .value) qubits

/-- Whether the leading operands are all one. -/
abbrev LeadingOn (k : ℕ) (qubits : List Qubit) (i : ℕ) : Prop :=
  ∀ q ∈ qubits.take k, i.testBit q.index = true

section Images

variable {symbol : GateSymbol} {op : Pauli} {k n : ℕ} {qubits : List Qubit}

/-- The string on the operands of a gate after its controls. -/
theorem GateSymbol.Operands.isOn (h : symbol.Operands n qubits) (op : Pauli) (k : ℕ) :
    (PauliString.uniform op (qubits.drop k)).IsOn n :=
  PauliString.isOn_uniform op (h.distinct.sublist (List.drop_sublist k qubits)) fun q hq =>
    h.range q (List.mem_of_mem_drop hq)

/-- That string flips no control. -/
theorem GateSymbol.Operands.testBit_flip (h : symbol.Operands n qubits) (op : Pauli) {q : Qubit}
    (hq : q ∈ qubits.take k) :
    (PauliString.uniform op (qubits.drop k)).masks.flip.testBit q.index = false := by
  have hsplit := h.distinct
  rw [← List.take_append_drop k qubits, List.nodup_append] at hsplit
  rw [← Bool.not_eq_true, PauliString.testBit_flip]
  rintro ⟨other, hother, -, hindex⟩
  obtain ⟨target, htarget, rfl⟩ := List.mem_map.1 hother
  exact hsplit.2.2 q hq target htarget (Qubit.index_injective hindex).symm

theorem GateSymbol.Operands.isReflection (h : symbol.Operands n qubits) (op : Pauli) (k : ℕ) :
    IsReflection (LeadingOn k qubits) (PauliString.uniform op (qubits.drop k)).masks.act := by
  constructor
  · exact Statevector.PauliMasks.act_linear _
  · exact (h.isOn op k).balanced_masks.act_act
  · intro v w hvw i hi
    have hcontrols :
        LeadingOn k qubits (i ^^^ (PauliString.uniform op (qubits.drop k)).masks.flip) := by
      intro q hq
      rw [Nat.testBit_xor, hi q hq, h.testBit_flip op hq]
      rfl
    unfold Statevector.PauliMasks.act
    rw [hvw _ hcontrols]

/-- A gate with an axis rotates the coefficients on which its controls hold. -/
theorem StandardGate.image_rotation (haxis : symbol.axis? = some (op, k))
    (harity : symbol.arity = 1) (h : symbol.Operands n qubits) (t : ℝ) (v : ℕ → ℂ) :
    (rotation symbol t harity).lower.image [] qubits v =
      rotated (LeadingOn k qubits) (t / 2) v
        ((PauliString.uniform op (qubits.drop k)).masks.act v) := by
  obtain ⟨rfl, hrotates⟩ := lower_rotatesAbout haxis harity t
  have hnumber := (rotation symbol t harity).lower_arity
  generalize (rotation symbol t harity).lower = lowered at *
  have hlen : (lowered.targets qubits).length = lowered.operator.numTargets := by
    have hqubits : qubits.length = lowered.controls + lowered.operator.numTargets :=
      h.length.trans hnumber.symm
    rw [LoweredGate.targets, List.length_map, List.length_drop]
    omega
  have hnodup : (lowered.targets qubits).Nodup :=
    (h.distinct.sublist (List.drop_sublist _ _)).map Qubit.index_injective
  funext i
  rw [LoweredGate.image_eq_rowAt v i lowered hlen hnodup, hrotates _ hlen hnodup,
    LoweredGate.targets, PauliString.toComplex_foldl_rowAt, ← (h.isOn op _).act_masks]
  rfl

/-- The image under the axis at angle `phi` in the equatorial plane. -/
noncomputable def equatorialAct (q : Qubit) (phi : ℝ) (v : ℕ → ℂ) (i : ℕ) : ℂ :=
  Real.cos phi * (Statevector.PauliMasks.single q .x).act v i +
    Real.sin phi * (Statevector.PauliMasks.single q .y).act v i

open Statevector PauliMasks in
/-- The two operators of the plane anticommute, so that their mixture is its own inverse. -/
theorem isReflection_equatorialAct (q : Qubit) (phi : ℝ) :
    IsReflection (LeadingOn 0 [q]) (equatorialAct q phi) := by
  have hone : (Real.cos phi : ℂ) * Real.cos phi + Real.sin phi * Real.sin phi = 1 := by
    rw [← sq, ← sq]
    exact_mod_cast Real.cos_sq_add_sin_sq phi
  constructor
  · intro a b v w i
    simp only [equatorialAct, act_linear]
    ring
  · intro v
    have hx : (single q .x).act ((single q .x).act v) = v := (balanced_single q .x).act_act v
    have hy : (single q .y).act ((single q .y).act v) = v := (balanced_single q .y).act_act v
    have hanti (i : ℕ) : (single q .y).act ((single q .x).act v) i =
        -(single q .x).act ((single q .y).act v) i := by
      simp [act, single, PauliMasks.set, Pauli.flips, Pauli.signs, Nat.and_xor_distrib_right,
        signOf_xor]
    funext i
    unfold equatorialAct
    rw [act_linear, act_linear, hx, hy, hanti]
    linear_combination hone * v i
  · intro v w hvw i _
    rw [funext fun k => hvw k fun _ hmem => absurd hmem List.not_mem_nil]

theorem StandardGate.image_r (q : Qubit) (t phi : ℝ) (v : ℕ → ℂ) :
    (⟨.r, #v[t, phi]⟩ : StandardGate ℝ).lower.image [] [q] v =
      rotated (LeadingOn 0 [q]) (t / 2) v (equatorialAct q phi v) := by
  funext i
  rw [LoweredGate.image_eq_rowAt v i _ (by rfl) (by exact List.nodup_singleton q.index)]
  simp only [lower, LoweredGate.targets, List.drop_zero, List.map_cons, List.map_nil]
  rw [Operator.toComplex_rowAt_r, Pauli.toComplex_rowAt, Pauli.toComplex_rowAt]
  rfl

/-- A phase gate multiplies by a phase where all of its operands are one. -/
theorem StandardGate.image_phase (hsymbol : symbol = .p ∨ symbol = .cp) (harity : symbol.arity = 1)
    (h : symbol.Operands n qubits) (t : ℝ) (v : ℕ → ℂ) (i : ℕ) :
    (rotation symbol t harity).lower.image [] qubits v i =
      (if ∀ q ∈ qubits, i.testBit q.index then Complex.exp (t * Complex.I) else 1) * v i := by
  rcases hsymbol with rfl | rfl
  · obtain ⟨q, rfl⟩ := List.length_eq_one_iff.1 h.length
    rw [LoweredGate.image_eq_rowAt v i _ (by rfl) (by exact List.nodup_singleton q.index)]
    cases hbit : i.testBit q.index <;>
      simp [lower, rotation, LoweredGate.targets, Operator.rowAt, hbit, mul_comm]
  · obtain ⟨control, target, rfl⟩ := List.length_eq_two.1 h.length
    refine (LoweredGate.image_cp v i t control target).trans ?_
    simp

/-- Without a rotation only the phase is left of the general gate. -/
theorem LoweredGate.image_u_zero (q : Qubit) (lambda : ℝ) (v : ℕ → ℂ) :
    (⟨.single (.u 0 0 lambda), 0⟩ : LoweredGate ℝ).image [] [q] v =
      (⟨.diagonal .one (.phase lambda), 0⟩ : LoweredGate ℝ).image [] [q] v := by
  funext i
  rw [image_eq_rowAt v i _ (by rfl) (by simp [targets]),
    image_eq_rowAt v i _ (by rfl) (by simp [targets])]
  cases hbit : i.testBit q.index <;>
    simp [targets, Operator.rowAt, Kernel.singleRow, GateMatrix.u, Vector.get_eq_getElem, hbit,
      withBit_self hbit, mul_comm]

/-- A phase gate is a rotation about the vertical axis up to a phase of the whole state. -/
theorem LoweredGate.image_phase (q : Qubit) (lambda : ℝ) (v : ℕ → ℂ) (i : ℕ) :
    (⟨.diagonal .one (.phase lambda), 0⟩ : LoweredGate ℝ).image [] [q] v i =
      Complex.exp (lambda / 2 * Complex.I) *
        (⟨StandardGate.rzPhases lambda, 0⟩ : LoweredGate ℝ).image [] [q] v i := by
  rw [image_eq_rowAt v i _ (by rfl) (by simp [targets]),
    image_eq_rowAt v i _ (by rfl) (by simp [targets])]
  have hzero :
      Complex.exp (lambda / 2 * Complex.I) * Complex.exp (-lambda / 2 * Complex.I) = 1 := by
    rw [← Complex.exp_add, ← add_mul, ← add_div, add_neg_cancel, zero_div, zero_mul,
      Complex.exp_zero]
  have hone : Complex.exp (lambda / 2 * Complex.I) * Complex.exp (lambda / 2 * Complex.I) =
      Complex.exp (lambda * Complex.I) := by
    rw [← Complex.exp_add, ← add_mul, add_halves]
  cases hbit : i.testBit q.index with
  | false =>
    simp [StandardGate.rzPhases, targets, Operator.rowAt, hbit]
    rw [mul_left_comm, hzero, mul_one]
  | true =>
    simp [StandardGate.rzPhases, targets, Operator.rowAt, hbit]
    rw [mul_left_comm, hone]

end Images

namespace Statevector

variable {s : Statevector ℝ} {n : ℕ} {qubits : List Qubit}

theorem HasWidth.ext {t u : Statevector ℝ} (ht : t.HasWidth n) (hu : u.HasWidth n)
    (hmachine : t.machine = u.machine)
    (h : ∀ i < 2 ^ n, t.coefficient i = u.coefficient i) : t = u := by
  apply ext_coefficient (ht.width.trans hu.width.symm) hmachine
  · exact ht.size_eq.trans hu.size_eq.symm
  · intro i hi
    exact h i (ht.size_eq ▸ hi)

theorem exists_apply_on (hs : s.HasWidth n) {g : StandardGate ℝ}
    (h : g.symbol.Operands n qubits) :
    g.lower.Accepts n (.ofStandard (g.map .value)) qubits ∧
      ∃ t, s.apply (g.on qubits) = .ok t ∧ t.HasWidth n ∧
        t.machine = s.machine ∧
        ∀ i < 2 ^ n, t.coefficient i = g.lower.image [] qubits s.coefficient i :=
  exists_apply_standard hs g h.length h.distinct h.range

/-- Gates that map the coefficients alike lead to one state. -/
theorem exists_apply_eq_apply (hs : s.HasWidth n) {g k : StandardGate ℝ}
    (h : g.symbol.Operands n qubits) (h' : k.symbol.Operands n qubits)
    (himage : g.lower.image [] qubits s.coefficient = k.lower.image [] qubits s.coefficient) :
    ∃ w, s.apply (g.on qubits) = .ok w ∧ s.apply (k.on qubits) = .ok w := by
  obtain ⟨-, t, happly, ht, hmachine, hcoeff⟩ := exists_apply_on hs h
  obtain ⟨-, u, happly', hu, hmachine', hcoeff'⟩ := exists_apply_on hs h'
  have heq : u = t := by
    apply hu.ext ht (hmachine'.trans hmachine.symm)
    intro i hi
    rw [hcoeff i hi, hcoeff' i hi, himage]
  exact ⟨t, happly, heq ▸ happly'⟩

/-- Two gates in turn that map the coefficients as one gate does lead to its state. -/
theorem exists_applyAll_eq_apply (hs : s.HasWidth n) {g g' g'' : StandardGate ℝ}
    (h : g.symbol.Operands n qubits) (h' : g'.symbol.Operands n qubits)
    (h'' : g''.symbol.Operands n qubits)
    (himage : g'.lower.image [] qubits (g.lower.image [] qubits s.coefficient) =
      g''.lower.image [] qubits s.coefficient) :
    ∃ w, s.applyAll [g.on qubits, g'.on qubits] = .ok w ∧ s.apply (g''.on qubits) = .ok w := by
  obtain ⟨-, t, happly, ht, hmachine, hcoeff⟩ := exists_apply_on hs h
  obtain ⟨haccepts, u, happly', hu, hmachine', hcoeff'⟩ := exists_apply_on ht h'
  obtain ⟨-, w, happly'', hw, hmachine'', hcoeff''⟩ := exists_apply_on hs h''
  have heq : u = w := by
    apply hu.ext hw ((hmachine'.trans hmachine).trans hmachine''.symm)
    intro i hi
    rw [hcoeff' i hi, hcoeff'' i hi, ← himage]
    exact haccepts.image_congr hcoeff hi
  refine ⟨w, ?_, happly''⟩
  rw [applyAll_cons, happly, ok_bind, applyAll_cons, happly', heq]
  rfl

/-- A rotation gate mixes the state with the image that the gates of its axis compute. -/
theorem exists_apply_rotation (hs : s.HasWidth n) {symbol : GateSymbol} {op : Pauli} {k : ℕ}
    (haxis : symbol.axis? = some (op, k)) (harity : symbol.arity = 1)
    (h : symbol.Operands n qubits) (t : ℝ) :
    ∃ r p, s.apply ((StandardGate.rotation symbol t harity).on qubits) = .ok r ∧
      s.applyAll ((qubits.drop k).map fun q => .standard op.gate [q]) = .ok p ∧
      ∀ i < 2 ^ n,
        r.coefficient i = rotated (LeadingOn k qubits) (t / 2) s.coefficient p.coefficient i := by
  have hop : op ≠ .i := by
    rintro rfl
    cases symbol <;> cases haxis
  obtain ⟨-, r, happly, -, -, hr⟩ :=
    exists_apply_on hs (g := StandardGate.rotation symbol t harity) h
  obtain ⟨p, hrun, -, hp⟩ := exists_applyAll_masks hs (h.isOn op k)
  rw [PauliString.instructions_uniform hop] at hrun
  refine ⟨r, p, happly, hrun, fun i hi => ?_⟩
  rw [hr i hi, StandardGate.image_rotation haxis harity h]
  unfold rotated
  rw [hp i hi]

theorem exists_apply_r (hs : s.HasWidth n) {q : Qubit} (hq : q.index < n) (t phi : ℝ) :
    ∃ r x y, s.apply ((⟨.r, #v[t, phi]⟩ : StandardGate ℝ).on [q]) = .ok r ∧
      s.apply (.standard Pauli.x.gate [q]) = .ok x ∧
      s.apply (.standard Pauli.y.gate [q]) = .ok y ∧
      ∀ i < 2 ^ n, r.coefficient i = Real.cos (t / 2) * s.coefficient i - Complex.I *
        Real.sin (t / 2) * (Real.cos phi * x.coefficient i + Real.sin phi * y.coefficient i) := by
  obtain ⟨-, r, happly, -, -, hr⟩ :=
    exists_apply_on hs (g := ⟨.r, #v[t, phi]⟩) (GateSymbol.operands_singleton rfl hq)
  obtain ⟨x, hrunx, -, hx⟩ := exists_apply_pauli hs hq .x
  obtain ⟨y, hruny, -, hy⟩ := exists_apply_pauli hs hq .y
  refine ⟨r, x, y, happly, hrunx, hruny, fun i hi => ?_⟩
  rw [hr i hi, StandardGate.image_r, hx i hi, hy i hi]
  exact if_pos fun _ hmem => absurd hmem List.not_mem_nil

/-- The gates of a rotation family on which two in turn are one with the sum of the angles. -/
theorem exists_applyAll_rotation (hs : s.HasWidth n) {symbol : GateSymbol}
    (hadditive : symbol.axis?.isSome ∨ symbol = .p ∨ symbol = .cp) (harity : symbol.arity = 1)
    (h : symbol.Operands n qubits) (a b : ℝ) :
    ∃ w, s.applyAll [(StandardGate.rotation symbol a harity).on qubits,
        (StandardGate.rotation symbol b harity).on qubits] = .ok w ∧
      s.apply ((StandardGate.rotation symbol (a + b) harity).on qubits) = .ok w := by
  apply exists_applyAll_eq_apply hs h h h
  rcases hadditive with haxis | hphase
  · obtain ⟨⟨op, k⟩, haxis⟩ := Option.isSome_iff_exists.1 haxis
    simp only [StandardGate.image_rotation haxis harity h, add_div]
    exact (h.isReflection op k).rotated_rotated (a / 2) (b / 2) s.coefficient
  · funext i
    simp only [StandardGate.image_phase hphase harity h]
    split
    · rw [← mul_assoc, ← Complex.exp_add]
      push_cast
      ring_nf
    · simp

theorem exists_applyAll_r (hs : s.HasWidth n) {q : Qubit} (hq : q.index < n) (a b phi : ℝ) :
    ∃ w, s.applyAll [(⟨.r, #v[a, phi]⟩ : StandardGate ℝ).on [q],
        (⟨.r, #v[b, phi]⟩ : StandardGate ℝ).on [q]] = .ok w ∧
      s.apply ((⟨.r, #v[a + b, phi]⟩ : StandardGate ℝ).on [q]) = .ok w := by
  have h : GateSymbol.r.Operands n [q] := GateSymbol.operands_singleton rfl hq
  apply exists_applyAll_eq_apply hs h h h
  simp only [StandardGate.image_r, add_div]
  exact (isReflection_equatorialAct q phi).rotated_rotated (a / 2) (b / 2) s.coefficient

/-- The general one-qubit gates with fewer angles are the one with three. -/
theorem exists_apply_general (hs : s.HasWidth n) {q : Qubit} (hq : q.index < n)
    (t phi lambda : ℝ) :
    (∃ w, s.apply ((⟨.u3, #v[t, phi, lambda]⟩ : StandardGate ℝ).on [q]) = .ok w ∧
      s.apply ((⟨.u, #v[t, phi, lambda]⟩ : StandardGate ℝ).on [q]) = .ok w) ∧
    (∃ w, s.apply ((⟨.u2, #v[phi, lambda]⟩ : StandardGate ℝ).on [q]) = .ok w ∧
      s.apply ((⟨.u, #v[Real.pi / 2, phi, lambda]⟩ : StandardGate ℝ).on [q]) = .ok w) ∧
    ∃ w r, s.apply ((⟨.u1, #v[lambda]⟩ : StandardGate ℝ).on [q]) = .ok w ∧
      s.apply ((⟨.p, #v[lambda]⟩ : StandardGate ℝ).on [q]) = .ok w ∧
      s.apply ((⟨.u, #v[0, 0, lambda]⟩ : StandardGate ℝ).on [q]) = .ok w ∧
      s.apply ((⟨.rz, #v[lambda]⟩ : StandardGate ℝ).on [q]) = .ok r ∧
      ∀ i < 2 ^ n,
        w.coefficient i = Complex.exp (lambda / 2 * Complex.I) * r.coefficient i := by
  have h {symbol : GateSymbol} (hone : symbol.numQubits = 1) : symbol.Operands n [q] :=
    GateSymbol.operands_singleton hone hq
  refine ⟨?_, ?_, ?_⟩
  · exact exists_apply_eq_apply hs (h rfl) (h rfl) rfl
  · have hangle : (Scalar.pi / Scalar.ofNat 2 : ℝ) = Real.pi / 2 := by simp
    apply exists_apply_eq_apply hs (h rfl) (h rfl)
    show (⟨.single (.u (Scalar.pi / Scalar.ofNat 2) phi lambda), 0⟩ : LoweredGate ℝ).image _ _ _ = _
    rw [hangle]
    rfl
  · obtain ⟨w, hu1, hp⟩ := exists_apply_eq_apply hs (g := ⟨.u1, #v[lambda]⟩)
      (k := ⟨.p, #v[lambda]⟩) (h rfl) (h rfl) rfl
    obtain ⟨w', hu, hp'⟩ := exists_apply_eq_apply hs (g := ⟨.u, #v[0, 0, lambda]⟩)
      (k := ⟨.p, #v[lambda]⟩) (h rfl) (h rfl) (LoweredGate.image_u_zero q lambda _)
    obtain ⟨-, w'', hp'', -, -, hw⟩ := exists_apply_on hs (g := ⟨.p, #v[lambda]⟩) (h rfl)
    obtain ⟨-, r, hrz, -, -, hr⟩ := exists_apply_on hs (g := ⟨.rz, #v[lambda]⟩) (h rfl)
    obtain rfl : w' = w := Except.ok.inj (hp'.symm.trans hp)
    obtain rfl : w'' = w' := Except.ok.inj (hp''.symm.trans hp)
    refine ⟨w'', r, hu1, hp, hu, hrz, fun i hi => ?_⟩
    rw [hw i hi, hr i hi]
    exact LoweredGate.image_phase q lambda s.coefficient i

/-- Rotations are generated by the gates of the Pauli operators. A rotation gate, on any distinct
operands and at any angle, mixes the state with the image that the gates of its axis compute on its
targets, where its controls are one, and keeps every other coefficient; the gate `r` does so with
the mixture of the images under `x` and `y`. The general gates with fewer angles are the one with
three, and a phase gate is a rotation about the vertical axis up to a phase of the whole state.
Rotations and phases on the same operands add their angles. -/
theorem rotations_of_pauliGates {s : Statevector ℝ} (hs : s.IsRegister) :
    (∀ (symbol : GateSymbol) (op : Pauli) (k : ℕ) (harity : symbol.arity = 1)
      (qubits : List Qubit) (t : ℝ), symbol.axis? = some (op, k) →
      symbol.Operands s.numQubits qubits →
      ∃ r p, s.apply ((StandardGate.rotation symbol t harity).on qubits) = .ok r ∧
        s.applyAll ((qubits.drop k).map fun q => .standard op.gate [q]) = .ok p ∧
        ∀ i < s.size, r.coefficient i = if LeadingOn k qubits i then
          Real.cos (t / 2) * s.coefficient i - Complex.I * Real.sin (t / 2) * p.coefficient i
        else s.coefficient i) ∧
    (∀ (q : Qubit) (t phi : ℝ), q.index < s.numQubits →
      ∃ r x y, s.apply ((⟨.r, #v[t, phi]⟩ : StandardGate ℝ).on [q]) = .ok r ∧
        s.apply (.standard Pauli.x.gate [q]) = .ok x ∧
        s.apply (.standard Pauli.y.gate [q]) = .ok y ∧
        ∀ i < s.size, r.coefficient i = Real.cos (t / 2) * s.coefficient i - Complex.I *
          Real.sin (t / 2) *
            (Real.cos phi * x.coefficient i + Real.sin phi * y.coefficient i)) ∧
    (∀ (q : Qubit) (t phi lambda : ℝ), q.index < s.numQubits →
      (∃ w, s.apply ((⟨.u3, #v[t, phi, lambda]⟩ : StandardGate ℝ).on [q]) = .ok w ∧
        s.apply ((⟨.u, #v[t, phi, lambda]⟩ : StandardGate ℝ).on [q]) = .ok w) ∧
      (∃ w, s.apply ((⟨.u2, #v[phi, lambda]⟩ : StandardGate ℝ).on [q]) = .ok w ∧
        s.apply ((⟨.u, #v[Real.pi / 2, phi, lambda]⟩ : StandardGate ℝ).on [q]) = .ok w) ∧
      ∃ w r, s.apply ((⟨.u1, #v[lambda]⟩ : StandardGate ℝ).on [q]) = .ok w ∧
        s.apply ((⟨.p, #v[lambda]⟩ : StandardGate ℝ).on [q]) = .ok w ∧
        s.apply ((⟨.u, #v[0, 0, lambda]⟩ : StandardGate ℝ).on [q]) = .ok w ∧
        s.apply ((⟨.rz, #v[lambda]⟩ : StandardGate ℝ).on [q]) = .ok r ∧
        ∀ i < s.size,
          w.coefficient i = Complex.exp (lambda / 2 * Complex.I) * r.coefficient i) ∧
    (∀ (symbol : GateSymbol) (harity : symbol.arity = 1) (qubits : List Qubit) (a b : ℝ),
      symbol.axis?.isSome ∨ symbol = .p ∨ symbol = .cp → symbol.Operands s.numQubits qubits →
      ∃ w, s.applyAll [(StandardGate.rotation symbol a harity).on qubits,
          (StandardGate.rotation symbol b harity).on qubits] = .ok w ∧
        s.apply ((StandardGate.rotation symbol (a + b) harity).on qubits) = .ok w) ∧
    ∀ (q : Qubit) (a b phi : ℝ), q.index < s.numQubits →
      ∃ w, s.applyAll [(⟨.r, #v[a, phi]⟩ : StandardGate ℝ).on [q],
          (⟨.r, #v[b, phi]⟩ : StandardGate ℝ).on [q]] = .ok w ∧
        s.apply ((⟨.r, #v[a + b, phi]⟩ : StandardGate ℝ).on [q]) = .ok w := by
  have hwidth : s.HasWidth s.numQubits := ⟨hs, rfl⟩
  have hsize : s.size = 2 ^ s.numQubits := hs.size
  rw [hsize]
  refine ⟨?_, ?_, ?_, ?_, ?_⟩
  · intro symbol op k harity qubits t haxis h
    exact exists_apply_rotation hwidth haxis harity h t
  · intro q t phi hq
    exact exists_apply_r hwidth hq t phi
  · intro q t phi lambda hq
    exact exists_apply_general hwidth hq t phi lambda
  · intro symbol harity qubits a b hadditive h
    exact exists_applyAll_rotation hwidth hadditive harity h a b
  · intro q a b phi hq
    exact exists_applyAll_r hwidth hq a b phi

/-- A rotation of two qubits about the operator `y`, by a half turn and then another, takes two
zeros to two ones and back, with the sign of the square of the axis. -/
theorem rotations_of_pauliGates_halfTurn :
    let s : Statevector ℝ := ⟨2, #[.one, .zero, .zero, .zero], {}⟩
    let turn : Instruction ℝ := (StandardGate.rotation .ryy Real.pi).on [⟨1⟩, ⟨0⟩]
    s.IsRegister ∧
      (∃ r, s.apply turn = .ok r ∧ r.coefficient 3 = Complex.I ∧ r.coefficient 0 = 0) ∧
      ∃ w, s.applyAll [turn, turn] = .ok w ∧ w.coefficient 0 = -1 := by
  intro s turn
  have hs : s.IsRegister := ⟨by decide, rfl⟩
  have hwidth : s.HasWidth 2 := ⟨hs, rfl⟩
  have hturn : GateSymbol.ryy.Operands 2 [⟨1⟩, ⟨0⟩] := ⟨rfl, by decide, by decide⟩
  have hzero : s.coefficient 0 = 1 := Amplitude.toComplex_one
  have hthree : s.coefficient 3 = 0 := Amplitude.toComplex_zero
  obtain ⟨image, himage, -, haxis⟩ := exists_applyAll_masks hwidth (hturn.isOn .y 0)
  have hmasks : (PauliString.uniform .y [⟨1⟩, ⟨0⟩]).masks = ⟨3, 3, 2⟩ := rfl
  have haxis0 : image.coefficient 0 = 0 := by
    rw [haxis 0 (by decide)]
    simp [hmasks, PauliMasks.act, hthree]
  have haxis3 : image.coefficient 3 = -1 := by
    rw [haxis 3 (by decide)]
    simp [hmasks, PauliMasks.act, hzero]
  obtain ⟨hrotates, -, -, hadds, -⟩ := rotations_of_pauliGates hs
  refine ⟨hs, ?_, ?_⟩
  · obtain ⟨r, p, happly, hrun, hr⟩ := hrotates .ryy .y 0 rfl [⟨1⟩, ⟨0⟩] Real.pi rfl hturn
    obtain rfl : image = p := Except.ok.inj (himage.symm.trans hrun)
    refine ⟨r, happly, ?_, ?_⟩
    · rw [hr 3 (by decide), if_pos (by decide), haxis3, hthree]
      simp
    · rw [hr 0 (by decide), if_pos (by decide), haxis0, hzero]
      simp
  · obtain ⟨r, p, happly, hrun, hr⟩ :=
      hrotates .ryy .y 0 rfl [⟨1⟩, ⟨0⟩] (Real.pi + Real.pi) rfl hturn
    obtain rfl : image = p := Except.ok.inj (himage.symm.trans hrun)
    obtain ⟨w, hpair, hsum⟩ := hadds .ryy rfl [⟨1⟩, ⟨0⟩] Real.pi Real.pi (.inl rfl) hturn
    obtain rfl : r = w := Except.ok.inj (happly.symm.trans hsum)
    refine ⟨r, hpair, ?_⟩
    rw [hr 0 (by decide), if_pos (by decide), haxis0, hzero]
    simp

end Statevector

end QuantumSim
