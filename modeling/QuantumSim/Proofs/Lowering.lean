import Mathlib
import QuantumSim.State
import QuantumSim.Proofs.Outcome

/-!
Lowering. A gate with finite angles, or with a matrix that is accepted, has an operator, and the
controls and targets of the operator make up the operands of the gate.
-/
namespace QuantumSim

namespace Operator

/-- The number of target qubits. -/
def numTargets {R : Type} : Operator R → ℕ
  | diagonal _ _ => 1
  | single _ => 1
  | double _ => 2

end Operator

variable {R : Type} [Scalar R]

theorem StandardGate.lower_arity (g : StandardGate R) :
    g.lower.controls + g.lower.operator.numTargets = g.numQubits.toNat := by
  rcases g with ⟨symbol, angles⟩
  cases symbol <;> rfl

/-- Resolving a gate resolves its angles in order. -/
theorem StandardGate.parameters_resolve {α β ε : Type} (f : α → Except ε β) (g : StandardGate α) :
    StandardGate.parameters <$> g.resolve f = g.parameters.mapM f := by
  unfold StandardGate.parameters Vector.toList
  rw [← Array.toList_mapM, ← Vector.toArray_mapM]
  simp only [StandardGate.resolve]
  cases g.angles.mapM f with
  | error e => rfl
  | ok angles => rfl

theorem StandardGate.resolve_symbol {α β ε : Type} {f : α → Except ε β} {g : StandardGate α}
    {h : StandardGate β} (hg : g.resolve f = .ok h) : h.symbol = g.symbol := by
  obtain ⟨angles, -, hangles⟩ := bind_eq_ok.1 hg
  exact (congrArg StandardGate.symbol (Except.ok.inj hangles)).symm

/-- A gate without angles has nothing to resolve. -/
theorem StandardGate.resolve_plain {α β ε : Type} (f : α → Except ε β) (symbol : GateSymbol)
    (h : symbol.arity = 0) :
    (plain symbol h : StandardGate α).resolve f = .ok (plain symbol h) := by
  have hangles : Vector.toArray <$> (plain symbol h : StandardGate α).angles.mapM f = .ok #[] :=
    Vector.toArray_mapM.trans (Array.mapM_empty f)
  obtain ⟨angles, hmap, hnone⟩ := bind_eq_ok.1 ((map_eq_pure_bind _ _).symm.trans hangles)
  refine bind_eq_ok.2 ⟨angles, hmap, ?_⟩
  obtain ⟨entries, hsize⟩ := angles
  cases hnone
  rfl

theorem MatrixGate.lower_arity {g : MatrixGate R} {lowered : LoweredGate R}
    (h : g.lower = .ok lowered) :
    lowered.controls + lowered.operator.numTargets = g.numQubits.toNat := by
  unfold MatrixGate.lower at h
  dsimp only at h
  split at h
  next hone =>
    split at h
    · split at h
      · simp at h
      · cases h
        rw [hone]
        rfl
    · simp at h
  next =>
    split at h
    next htwo =>
      split at h
      · split at h
        · simp at h
        · cases h
          rw [htwo]
          rfl
      · simp at h
    next => simp at h

theorem GateKind.lower_standard_eq_ok {g : StandardGate (Parameter R)} {lowered : LoweredGate R} :
    (GateKind.standard g).lower = .ok lowered ↔
      ∃ h, g.resolve (Parameter.resolve .empty) = .ok h ∧ lowered = h.lower := by
  simp only [GateKind.lower]
  cases g.resolve (Parameter.resolve .empty) with
  | error e => simp
  | ok h => simp [eq_comm]

theorem GateKind.lower_plain (symbol : GateSymbol) (h : symbol.arity = 0) :
    (GateKind.standard (.plain symbol h)).lower =
      .ok (StandardGate.plain symbol h : StandardGate R).lower :=
  lower_standard_eq_ok.2 ⟨_, StandardGate.resolve_plain _ symbol h, rfl⟩

theorem GateKind.lower_matrix_eq_ok {g : MatrixGate R} {lowered : LoweredGate R} :
    (GateKind.matrix g).lower = .ok lowered ↔ g.lower = .ok lowered := by
  simp only [GateKind.lower]
  cases g.lower with
  | error e => simp [Except.mapError]
  | ok l => simp [Except.mapError]

/-- A gate has as many operands as its operator has controls and targets. -/
theorem GateKind.lower_arity {kind : GateKind R} {lowered : LoweredGate R}
    (h : kind.lower = .ok lowered) :
    lowered.controls + lowered.operator.numTargets = kind.numQubits.toNat := by
  cases kind with
  | standard g =>
    obtain ⟨resolved, hresolved, rfl⟩ := GateKind.lower_standard_eq_ok.1 h
    rw [StandardGate.lower_arity, StandardGate.numQubits, StandardGate.resolve_symbol hresolved]
    rfl
  | matrix g => exact MatrixGate.lower_arity (GateKind.lower_matrix_eq_ok.1 h)

/-- A gate whose operator can be formed: every angle is a finite number, or the matrix is
accepted. -/
def GateKind.Ready : GateKind R → Prop
  | .standard g => ∀ p ∈ g.parameters, ∃ v, p = .value v ∧ Scalar.isFinite v = true
  | .matrix g => ∃ lowered, g.lower = .ok lowered

theorem GateKind.Ready.exists_lower {kind : GateKind R} (h : kind.Ready) :
    ∃ lowered, kind.lower = .ok lowered := by
  cases kind with
  | standard g =>
    have hvalues : ∀ p ∈ g.parameters, ∃ v, p.resolve .empty = .ok v := by
      intro p hp
      obtain ⟨v, rfl, hv⟩ := h p hp
      exact ⟨v, if_pos hv⟩
    obtain ⟨vs, hvs⟩ := exists_mapM_eq_ok hvalues
    rw [← StandardGate.parameters_resolve] at hvs
    cases hg : g.resolve (Parameter.resolve .empty) with
    | error e => simp [hg] at hvs
    | ok resolved => exact ⟨resolved.lower, GateKind.lower_standard_eq_ok.2 ⟨resolved, hg, rfl⟩⟩
  | matrix g =>
    obtain ⟨lowered, hl⟩ := h
    exact ⟨lowered, GateKind.lower_matrix_eq_ok.2 hl⟩

end QuantumSim
