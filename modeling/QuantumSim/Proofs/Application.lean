import Mathlib
import QuantumSim.Proofs.Kernel
import QuantumSim.Proofs.Lowering
import QuantumSim.Proofs.Selection

/-!
Gate application as one pass over the register. A lowered gate on operands that fit replaces each
amplitude at a selected index by a row of its operator and keeps every other one.
-/
namespace QuantumSim

namespace Operator

variable {R : Type} [Scalar R]

/-- The image of an amplitude under the operator on the listed bits, from the amplitudes at the
indices that differ in those bits only. -/
def rowAt : Operator R → List ℕ → (ℕ → Amplitude R) → ℕ → Amplitude R
  | diagonal zero one, [t], f, i => f i * (if i.testBit t then one else zero)
  | single m, [t], f, i => Kernel.singleRow m t f i
  | double m, [t0, t1], f, i => Kernel.doubleRow m t0 t1 f i
  | _, _, f, i => f i

end Operator

namespace LoweredGate

variable {R : Type}

/-- The positions of the targets among the operands of a gate, which follow the implicit
controls. -/
def targets (lowered : LoweredGate R) (operands : List Qubit) : List ℕ :=
  (operands.drop lowered.controls).map Qubit.index

/-- Operands and extra controls of a lowered gate that are distinct qubits of a register, as many as
its operator takes. -/
structure Accepts (lowered : LoweredGate R) (n : ℕ) (gate : Gate R) (operands : List Qubit) :
    Prop where
  length : operands.length = lowered.controls + lowered.operator.numTargets
  nodup : (operands ++ gate.controls.map (·.qubit)).Nodup
  range : ∀ q ∈ operands ++ gate.controls.map (·.qubit), q.index < n

namespace Accepts

variable {lowered : LoweredGate R} {n : ℕ} {gate : Gate R} {operands : List Qubit}

theorem length_drop (h : lowered.Accepts n gate operands) :
    (operands.drop lowered.controls).length = lowered.operator.numTargets := by
  rw [List.length_drop, h.length]
  omega

theorem length_targets (h : lowered.Accepts n gate operands) :
    (lowered.targets operands).length = lowered.operator.numTargets := by
  unfold targets
  rw [List.length_map, h.length_drop]

theorem nodup_targets (h : lowered.Accepts n gate operands) : (lowered.targets operands).Nodup :=
  ((List.nodup_append.1 h.nodup).1.sublist (List.drop_sublist _ _)).map Qubit.index_injective

theorem targets_lt (h : lowered.Accepts n gate operands) :
    ∀ t ∈ lowered.targets operands, t < n := by
  intro t ht
  obtain ⟨q, hq, rfl⟩ := List.mem_map.1 ht
  exact h.range q (List.mem_append_left _ (List.mem_of_mem_drop hq))

/-- The qubits that decide whether the gate fires are distinct, and no target is among them. -/
theorem nodup_split (h : lowered.Accepts n gate operands) :
    (operands.take lowered.controls ++ gate.controls.map (·.qubit)).Nodup ∧
      ∀ q ∈ operands.take lowered.controls ++ gate.controls.map (·.qubit),
        q.index ∉ lowered.targets operands := by
  have hnodup := h.nodup
  rw [← List.take_append_drop lowered.controls operands, List.append_assoc] at hnodup
  obtain ⟨-, hrest, hlead⟩ := List.nodup_append.1 hnodup
  refine ⟨hnodup.sublist (List.Sublist.append_left (List.sublist_append_right _ _) _), ?_⟩
  intro q hq ht
  obtain ⟨t, htmem, heq⟩ := List.mem_map.1 ht
  have heq := Qubit.index_injective heq
  subst heq
  rcases List.mem_append.1 hq with hq | hq
  · exact hlead t hq t (List.mem_append_left _ htmem) rfl
  · exact (List.nodup_append.1 hrest).2.2 t htmem t hq rfl

end Accepts

end LoweredGate

/-- The operands and extra controls of a gate that fits a circuit are accepted by its lowered
form. -/
theorem Circuit.Fits.accepts {R : Type} [Scalar R] {c : Circuit R} {inst : Instruction R}
    (hfits : c.Fits inst) {g : Gate R} (hgate : inst.operation = .gate g) {lowered : LoweredGate R}
    (hlower : g.kind.lower = .ok lowered) : lowered.Accepts c.numQubits.toNat g inst.qubits := by
  have hall : inst.allQubits = inst.qubits ++ g.controls.map (·.qubit) := by
    unfold Instruction.allQubits Instruction.controls
    rw [hgate]
  refine ⟨?_, hall ▸ hfits.nodup, fun q hq => hfits.qubits q (hall ▸ hq)⟩
  rw [hfits.gate g hgate, GateKind.lower_arity hlower]
  rfl

namespace Statevector

variable {R : Type} [Scalar R]

/-- A state with an amplitude for every basis index, on a register whose indices are machine
words. -/
structure IsRegister (s : Statevector R) : Prop where
  width : s.numQubits < 64
  size : s.amplitudes.size = 2 ^ s.numQubits

/-- One pass of a lowered gate. -/
def gatePass (lowered : LoweredGate R) (gate : Gate R) (operands : List Qubit)
    (f : ℕ → Amplitude R) (i : ℕ) : Amplitude R :=
  if Selected (operands.take lowered.controls) gate.controls i then
    lowered.operator.rowAt (lowered.targets operands) f i
  else f i

open Kernel BasisIndex

/-- The controls of a gate do not see which values its targets have. -/
theorem fires_of_represents {mask : ControlMask} {leading : List Qubit} {targets : List ℕ}
    {controls : List Control} (hmask : mask.Represents (conditions leading controls))
    (hapart : ∀ q ∈ leading ++ controls.map (·.qubit), q.index ∉ targets) {i j : ℕ}
    (hij : ∀ p, p ∉ targets → j.testBit p = i.testBit p) :
    mask.fires j = true ↔ Selected leading controls i := by
  rw [hmask.fires, ← selected_iff_conditions]
  exact selected_congr fun q hq => hij q.index (hapart q hq)

theorem ok_transform_congr (s : Statevector R) {F G : (ℕ → Amplitude R) → ℕ → Amplitude R}
    (h : ∀ i < s.amplitudes.size, F (valueAt s.amplitudes) i = G (valueAt s.amplitudes) i) :
    (Except.ok { s with amplitudes := transform F s.amplitudes } :
      Except (SimulationError R) (Statevector R)) =
        .ok { s with amplitudes := transform G s.amplitudes } := by
  rw [transform_congr h]

/-- Applying a gate is one pass over the register. -/
theorem applyLowered_eq {s : Statevector R} (hs : s.IsRegister) {lowered : LoweredGate R}
    {gate : Gate R} {operands : List Qubit} (hfits : lowered.Accepts s.numQubits gate operands) :
    s.applyLowered lowered gate operands =
      .ok { s with amplitudes := transform (gatePass lowered gate operands) s.amplitudes } := by
  have htargets := hfits.length_drop
  obtain ⟨hlead, hapart⟩ := hfits.nodup_split
  have hdistinct := hfits.nodup_targets
  have hpos : ∀ t ∈ operands.drop lowered.controls, t.index < s.numQubits := fun t ht =>
    hfits.range t (List.mem_append_left _ (List.mem_of_mem_drop ht))
  obtain ⟨mask, hmask, hrep⟩ := controlMask_eq hs.width.le gate.name
    (fun q hq => hfits.range q (by
      rcases List.mem_append.1 hq with hq | hq
      · exact List.mem_append_left _ (List.mem_of_mem_take hq)
      · exact List.mem_append_right _ hq)) hlead
  have hfires {i j : ℕ} := fires_of_represents hrep hapart (i := i) (j := j)
  obtain ⟨op, k⟩ := lowered
  simp only [LoweredGate.targets] at hfires hdistinct
  unfold applyLowered
  rw [hmask, ok_bind]
  cases op with
  | diagonal zero one =>
    obtain ⟨t, ht⟩ := List.length_eq_one_iff.1 htargets
    have htn := hpos t (by simp [ht])
    simp only [ht, position_eq htn, ok_bind, applyDiagonal_eq zero one (htn.trans hs.width)]
    apply s.ok_transform_congr
    intro i _
    simp only [diagonalPass, gatePass, LoweredGate.targets, Operator.rowAt, hfires fun p _ => rfl,
      ht, List.map_cons, List.map_nil]
  | single m =>
    obtain ⟨t, ht⟩ := List.length_eq_one_iff.1 htargets
    have htn := hpos t (by simp [ht])
    simp only [ht, position_eq htn, ok_bind, applySingle_eq m htn hs.width mask hs.size]
    apply s.ok_transform_congr
    intro i _
    have hsel := hfires (i := i) (j := withBit i t.index false) fun p hp => by
      have hpt : p ≠ t.index := by simpa [ht] using hp
      simp [hpt]
    simp only [singlePass, gatePass, LoweredGate.targets, Operator.rowAt, hsel, ht, List.map_cons,
      List.map_nil]
  | double m =>
    obtain ⟨t0, t1, ht⟩ := List.length_eq_two.1 htargets
    have h0 := hpos t0 (by simp [ht])
    have h1 := hpos t1 (by simp [ht])
    have hne : t0.index ≠ t1.index := fun h => by
      simp [ht, h] at hdistinct
    simp only [ht, position_eq h0, position_eq h1, ok_bind,
      applyDouble_eq m h0 h1 hne hs.width mask hs.size]
    apply s.ok_transform_congr
    intro i _
    have hsel := hfires (i := i) (j := quadBase t0.index t1.index i) fun p hp => by
      obtain ⟨hp0, hp1⟩ : p ≠ t0.index ∧ p ≠ t1.index := by simpa [ht] using hp
      simp [quadBase, hp0, hp1]
    simp only [doublePass, gatePass, LoweredGate.targets, Operator.rowAt, hsel, ht, List.map_cons,
      List.map_nil]

end Statevector

end QuantumSim
