import Mathlib
import QuantumSim.Proofs.BitReversal
import QuantumSim.Proofs.NormPreservation
import QuantumSim.Proofs.Robustness

/-!
Runs of gates as maps of coefficients. What a list of gates makes of every register with given
coefficients composes along the list, so that a circuit that is built in a loop is followed by an
invariant of its coefficients.
-/
namespace QuantumSim
open BasisIndex

section Angles

variable {α β : Type} (f : α → β)

theorem StandardGate.map_plain (symbol : GateSymbol) (h : symbol.arity = 0) :
    (plain symbol h : StandardGate α).map f = plain symbol h := by
  simp [map, plain, Vector.map]

theorem StandardGate.map_rotation (symbol : GateSymbol) (angle : α) (h : symbol.arity = 1) :
    (rotation symbol angle h).map f = rotation symbol (f angle) h := by
  simp [map, rotation, Vector.map]

end Angles

/-- Over exact numbers every value of an angle is accepted. -/
theorem StandardGate.resolve_map_value (g : StandardGate ℝ) :
    (g.map Parameter.value).resolve (Parameter.resolve .empty) = .ok g := by
  have hangles : (g.angles.map Parameter.value).mapM (Parameter.resolve .empty) = .ok g.angles := by
    rw [Vector.mapM_map]
    exact (Vector.mapM_pure _).trans (congrArg Except.ok (Vector.map_id _))
  exact bind_eq_ok.2 ⟨g.angles, hangles, rfl⟩

theorem GateKind.lower_map_value (g : StandardGate ℝ) :
    (GateKind.standard (g.map .value)).lower = .ok g.lower :=
  lower_standard_eq_ok.2 ⟨g, g.resolve_map_value, rfl⟩

namespace Amplitude

/-- The amplitude that stands for a complex number. -/
def ofComplex (z : ℂ) : Amplitude ℝ := ⟨z.re, z.im⟩

@[simp] theorem toComplex_ofComplex (z : ℂ) : (ofComplex z).toComplex = z := rfl

end Amplitude

namespace LoweredGate

variable (v : ℕ → ℂ) (i : ℕ)

/-- The image of coefficients by the rows of the operator, instead of by its matrix. -/
theorem image_eq_rowAt (lowered : LoweredGate ℝ) {operands : List Qubit}
    (hlen : (lowered.targets operands).length = lowered.operator.numTargets)
    (hnodup : (lowered.targets operands).Nodup) :
    lowered.image [] operands v i =
      if ∀ q ∈ operands.take lowered.controls, i.testBit q.index then
        (lowered.operator.rowAt (lowered.targets operands) (fun k => .ofComplex (v k)) i).toComplex
      else v i := by
  rw [Operator.toComplex_rowAt hlen hnodup]
  simp only [image, Selected, List.not_mem_nil, false_implies, implies_true, and_true,
    Amplitude.toComplex_ofComplex]

theorem image_h (q : Qubit) : (⟨.single .h, 0⟩ : LoweredGate ℝ).image [] [q] v i =
    (Real.sqrt (1 / 2) : ℂ) * (v (withBit i q.index false) +
      (if i.testBit q.index then -1 else 1) * v (withBit i q.index true)) := by
  rw [image_eq_rowAt v i _ rfl (by simp [targets])]
  cases hbit : i.testBit q.index <;>
    simp [targets, Operator.rowAt, Kernel.singleRow, GateMatrix.h, Vector.get_eq_getElem, hbit] <;>
    ring

theorem image_cp (theta : ℝ) (control target : Qubit) :
    (⟨.diagonal .one (.phase theta), 1⟩ : LoweredGate ℝ).image [] [control, target] v i =
      (if i.testBit control.index ∧ i.testBit target.index then
        Complex.exp (theta * Complex.I) else 1) * v i := by
  rw [image_eq_rowAt v i _ rfl (by simp [targets])]
  cases hcontrol : i.testBit control.index <;> cases htarget : i.testBit target.index <;>
    simp [targets, Operator.rowAt, hcontrol, htarget, mul_comm]

theorem image_swap {a b : Qubit} (hab : a ≠ b) :
    (⟨.double .swap, 0⟩ : LoweredGate ℝ).image [] [a, b] v i =
      v (swapBits a.index b.index i) := by
  have hne : a.index ≠ b.index := fun h => hab (Qubit.index_injective h)
  rw [image_eq_rowAt v i _ rfl (by simpa [targets] using hne)]
  cases ha : i.testBit a.index <;> cases hb : i.testBit b.index <;>
    simp [targets, Operator.rowAt, Kernel.doubleRow, Kernel.rowTimes, GateMatrix.swap,
      Vector.get_eq_getElem, swapBits, ha, hb]

end LoweredGate

namespace Statevector

/-- Gates that apply to every register of a width with the coefficients `v` and leave the
coefficients `w`. -/
def Carries (n : ℕ) (insts : List (Instruction ℝ)) (v w : ℕ → ℂ) : Prop :=
  ∀ s : Statevector ℝ, s.HasWidth n → (∀ i < 2 ^ n, s.coefficient i = v i) →
    ∃ t, s.applyAll insts = .ok t ∧ t.HasWidth n ∧ ∀ i < 2 ^ n, t.coefficient i = w i

variable {n : ℕ} {v w u : ℕ → ℂ}

theorem carries_nil : Carries n [] v v := fun s hs hv => ⟨s, rfl, hs, hv⟩

theorem Carries.congr {insts : List (Instruction ℝ)} (h : Carries n insts v w)
    (hw : ∀ i < 2 ^ n, w i = u i) : Carries n insts v u := by
  intro s hs hv
  obtain ⟨t, happly, ht, hcoeff⟩ := h s hs hv
  exact ⟨t, happly, ht, fun i hi => (hcoeff i hi).trans (hw i hi)⟩

theorem applyAll_append {R : Type} [Scalar R] (s : Statevector R)
    (insts insts' : List (Instruction R)) :
    s.applyAll (insts ++ insts') = s.applyAll insts >>= fun t => t.applyAll insts' := by
  induction insts generalizing s with
  | nil => rfl
  | cons inst insts ih =>
    rw [List.cons_append, applyAll_cons, applyAll_cons]
    cases s.apply inst with
    | error e => rfl
    | ok t => exact ih t

theorem Carries.append {insts insts' : List (Instruction ℝ)} (h : Carries n insts v w)
    (h' : Carries n insts' w u) : Carries n (insts ++ insts') v u := by
  intro s hs hv
  obtain ⟨t, happly, ht, hw⟩ := h s hs hv
  obtain ⟨r, happly', hr, hu⟩ := h' t ht hw
  rw [applyAll_append, happly, ok_bind]
  exact ⟨r, happly', hr, hu⟩

/-- A loop of gates, by an invariant of the coefficients. -/
theorem carries_loop {insts : ℕ → List (Instruction ℝ)} {v : ℕ → ℕ → ℂ} {m : ℕ}
    (hstep : ∀ k < m, Carries n (insts k) (v k) (v (k + 1))) :
    Carries n ((List.range m).flatMap insts) (v 0) (v m) := by
  induction m with
  | zero => exact carries_nil
  | succ m ih =>
    rw [List.range_succ, List.flatMap_append, List.flatMap_singleton]
    exact (ih fun k hk => hstep k (hk.trans (Nat.lt_succ_self m))).append
      (hstep m (Nat.lt_succ_self m))

/-- A gate of the fixed set applies on distinct qubits of the register and maps the coefficients as
its controlled operator does. -/
theorem exists_apply_standard {s : Statevector ℝ} (hs : s.HasWidth n) (g : StandardGate ℝ)
    {qubits : List Qubit} (hlen : qubits.length = g.numQubits.toNat) (hnodup : qubits.Nodup)
    (hrange : ∀ q ∈ qubits, q.index < n) :
    g.lower.Accepts n (.ofStandard (g.map .value)) qubits ∧
      ∃ t, s.apply (.standard (g.map .value) qubits) = .ok t ∧ t.HasWidth n ∧
        t.machine = s.machine ∧
        ∀ i < 2 ^ n, t.coefficient i = g.lower.image [] qubits s.coefficient i := by
  obtain ⟨rfl⟩ := hs.width
  have haccepts : g.lower.Accepts s.numQubits (.ofStandard (g.map .value)) qubits := by
    constructor
    · exact hlen.trans g.lower_arity.symm
    · simpa [Gate.ofStandard] using hnodup
    · simpa [Gate.ofStandard] using hrange
  obtain ⟨t, happly, hwidth, hmachine, hsize, hcoeff⟩ :=
    exists_applyLowered_eq hs.register haccepts
  rw [hs.register.size_eq] at hcoeff
  refine ⟨haccepts, t, ?_, ⟨⟨hwidth ▸ hs.register.width, ?_⟩, hwidth⟩, hmachine, hcoeff⟩
  · exact bind_eq_ok.2 ⟨_, GateKind.lower_map_value g, happly⟩
  · rw [hwidth, ← hs.register.size]
    exact hsize

/-- A gate of the fixed set on distinct qubits of the register. -/
theorem carries_standard {p : StandardGate (Parameter ℝ)} {g : StandardGate ℝ}
    (hp : g.map .value = p) {qubits : List Qubit} (hlen : qubits.length = g.numQubits.toNat)
    (hnodup : qubits.Nodup) (hrange : ∀ q ∈ qubits, q.index < n)
    (himage : ∀ i < 2 ^ n, g.lower.image [] qubits v i = w i) :
    Carries n [.standard p qubits] v w := by
  subst hp
  intro s hs hv
  obtain ⟨haccepts, t, happly, ht, -, hcoeff⟩ := exists_apply_standard hs g hlen hnodup hrange
  refine ⟨t, ?_, ht, fun i hi => ?_⟩
  · rw [applyAll_cons]
    exact bind_eq_ok.2 ⟨t, happly, rfl⟩
  · rw [hcoeff i hi, ← himage i hi]
    exact haccepts.image_congr hv hi

theorem carries_h {q : Qubit} (hq : q.index < n)
    (hw : ∀ i < 2 ^ n, w i = (Real.sqrt (1 / 2) : ℂ) * (v (withBit i q.index false) +
      (if i.testBit q.index then -1 else 1) * v (withBit i q.index true))) :
    Carries n [.standard (.plain .h) [q]] v w := by
  apply carries_standard (StandardGate.map_plain _ .h rfl) rfl (List.nodup_singleton q)
  · simpa using hq
  · intro i hi
    exact (LoweredGate.image_h v i q).trans (hw i hi).symm

theorem carries_cp {theta : ℝ} {control target : Qubit} (hne : control ≠ target)
    (hcontrol : control.index < n) (htarget : target.index < n)
    (hw : ∀ i < 2 ^ n, w i = (if i.testBit control.index ∧ i.testBit target.index then
      Complex.exp (theta * Complex.I) else 1) * v i) :
    Carries n [.standard (.rotation .cp (.value theta)) [control, target]] v w := by
  apply carries_standard (StandardGate.map_rotation _ .cp theta rfl) rfl
  · simpa using hne
  · simp [hcontrol, htarget]
  · intro i hi
    exact (LoweredGate.image_cp v i theta control target).trans (hw i hi).symm

theorem carries_swap {a b : Qubit} (hne : a ≠ b) (ha : a.index < n) (hb : b.index < n)
    (hw : ∀ i < 2 ^ n, w i = v (swapBits a.index b.index i)) :
    Carries n [.standard (.plain .swap) [a, b]] v w := by
  apply carries_standard (StandardGate.map_plain _ .swap rfl) rfl
  · simpa using hne
  · simp [ha, hb]
  · intro i hi
    exact (LoweredGate.image_swap v i hne).trans (hw i hi).symm

end Statevector

end QuantumSim
