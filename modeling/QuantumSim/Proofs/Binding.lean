import Mathlib
import QuantumSim.Request
import QuantumSim.Proofs.Dict
import QuantumSim.Proofs.Distinct
import QuantumSim.Proofs.GateNames

/-!
Binding. A circuit keeps its operands when its symbols get their values, and none is left once every
name has a value.
-/
namespace QuantumSim

variable {R : Type} [Scalar R]

theorem Parameter.isSymbolic_bind {bindings : Bindings R} {p : Parameter R}
    (h : ∀ name, p.symbolName? = some name → bindings.contains name = true) :
    (p.bind bindings).isSymbolic = false := by
  cases p with
  | value v => rfl
  | symbol name scale shift =>
    have hcontains := h name rfl
    rw [Dict.contains_eq_isSome] at hcontains
    obtain ⟨bound, hbound⟩ := Option.isSome_iff_exists.1 hcontains
    rw [Parameter.bind, hbound]
    rfl

theorem Gate.bind_numQubits (bindings : Bindings R) (g : Gate R) :
    (g.bind bindings).numQubits = g.numQubits := by
  rcases g with ⟨kind, controls, label⟩
  cases kind <;> rfl

theorem Gate.bind_controls (bindings : Bindings R) (g : Gate R) :
    (g.bind bindings).controls = g.controls := by
  rcases g with ⟨kind, controls, label⟩
  cases kind <;> rfl

theorem Gate.bind_parameters (bindings : Bindings R) (g : Gate R) :
    (g.bind bindings).parameters = g.parameters.map (Parameter.bind bindings) := by
  rcases g with ⟨kind, controls, label⟩
  cases kind with
  | standard s => exact s.parameters_map (Parameter.bind bindings)
  | matrix m => rfl

namespace Instruction

theorem bind_gate? (bindings : Bindings R) (inst : Instruction R) :
    (inst.bind bindings).gate? = inst.gate?.map (Gate.bind bindings) := by
  rcases inst with ⟨operation, qubits, clbits⟩
  cases operation <;> rfl

theorem bind_allQubits (bindings : Bindings R) (inst : Instruction R) :
    (inst.bind bindings).allQubits = inst.allQubits := by
  rcases inst with ⟨operation, qubits, clbits⟩
  cases operation with
  | gate g =>
    show qubits ++ (g.bind bindings).controls.map (·.qubit) = qubits ++ g.controls.map (·.qubit)
    rw [Gate.bind_controls]
  | measure => rfl
  | reset => rfl
  | barrier => rfl

theorem bind_isMeasure (bindings : Bindings R) (inst : Instruction R) :
    (inst.bind bindings).isMeasure = inst.isMeasure := by
  rcases inst with ⟨operation, qubits, clbits⟩
  cases operation <;> rfl

theorem bind_isReset (bindings : Bindings R) (inst : Instruction R) :
    (inst.bind bindings).isReset = inst.isReset := by
  rcases inst with ⟨operation, qubits, clbits⟩
  cases operation <;> rfl

theorem bind_operands (bindings : Bindings R) (inst : Instruction R) :
    (inst.bind bindings).qubits = inst.qubits ∧ (inst.bind bindings).clbits = inst.clbits := by
  rcases inst with ⟨operation, qubits, clbits⟩
  cases operation <;> exact ⟨rfl, rfl⟩

end Instruction

namespace Circuit

/-- Binding symbols does not change what is measured where. -/
theorem measurementMap_bindParameters (c : Circuit R) (bindings : Bindings R) :
    (c.bindParameters bindings).measurementMap = c.measurementMap := by
  have hmeasure : (fun inst : Instruction R => inst.isMeasure) ∘ Instruction.bind bindings =
      fun inst => inst.isMeasure := funext fun inst => inst.bind_isMeasure bindings
  simp only [measurementMap, bindParameters, List.filter_map, hmeasure, List.flatMap_map,
    (Instruction.bind_operands bindings _).1, (Instruction.bind_operands bindings _).2]

/-- Binding symbols does not change which outcomes later instructions depend on. -/
theorem dependsOnOutcome_bind (bindings : Bindings R) (measured : List Qubit)
    (insts : List (Instruction R)) :
    dependsOnOutcome measured (insts.map (Instruction.bind bindings)) =
      dependsOnOutcome measured insts := by
  induction insts generalizing measured with
  | nil => rfl
  | cons inst insts ih =>
    have hall := Instruction.bind_allQubits bindings inst
    rcases inst with ⟨operation, qubits, clbits⟩
    rw [List.map_cons]
    cases operation with
    | gate g =>
      show ((Instruction.bind bindings ⟨.gate g, qubits, clbits⟩).allQubits.any (· ∈ measured) ||
        dependsOnOutcome measured (insts.map (Instruction.bind bindings))) = _
      rw [hall, ih]
      rfl
    | measure => exact ih _
    | reset => rfl
    | barrier => exact ih _

/-- An instruction fits a circuit however its symbols are bound. -/
theorem Fits.bind {c : Circuit R} {inst : Instruction R} (h : c.Fits inst) (bindings : Bindings R) :
    (c.bindParameters bindings).Fits (inst.bind bindings) := by
  have hall := Instruction.bind_allQubits bindings inst
  rcases inst with ⟨operation, qubits, clbits⟩
  cases operation with
  | gate g =>
    constructor
    · intro g' hg'
      cases hg'
      rw [Gate.bind_numQubits]
      exact h.gate g rfl
    · intro hmeasure
      cases hmeasure
    · exact hall.symm ▸ h.nodup
    · exact fun q hq => h.qubits q (hall ▸ hq)
    · exact h.clbits
  | measure => exact ⟨h.gate, h.measure, h.nodup, h.qubits, h.clbits⟩
  | reset => exact ⟨h.gate, h.measure, h.nodup, h.qubits, h.clbits⟩
  | barrier => exact ⟨h.gate, h.measure, h.nodup, h.qubits, h.clbits⟩

theorem validate_bindParameters {c : Circuit R} (h : c.validate = .ok ()) (bindings : Bindings R) :
    (c.bindParameters bindings).validate = .ok () := by
  rw [validate_eq_ok] at h ⊢
  intro bound hbound
  obtain ⟨inst, hinst, rfl⟩ := List.mem_map.1 hbound
  exact (h inst hinst).bind bindings

/-- A circuit without symbols. -/
def IsBound {R : Type} (c : Circuit R) : Prop :=
  ∀ g ∈ c.gates, ∀ p ∈ g.parameters, p.isSymbolic = false

omit [Scalar R] in
theorem isBound_of_not_isParameterized {c : Circuit R} (h : c.isParameterized = false) :
    c.IsBound := by
  intro g hg p hp
  have hgate := List.any_eq_false.1 h g hg
  exact Bool.eq_false_iff.2 fun hsymbolic => hgate (List.any_eq_true.2 ⟨p, hp, hsymbolic⟩)

omit [Scalar R] in
theorem mem_parameterNames {c : Circuit R} {g : Gate R} (hg : g ∈ c.gates) {p : Parameter R}
    (hp : p ∈ g.parameters) {name : String} (hname : p.symbolName? = some name) :
    name ∈ c.parameterNames := by
  unfold parameterNames
  rw [mem_eraseReps, List.mem_mergeSort]
  exact List.mem_filterMap.2 ⟨p, List.mem_flatMap.2 ⟨g, hg, hp⟩, hname⟩

theorem gates_bindParameters (c : Circuit R) (bindings : Bindings R) :
    (c.bindParameters bindings).gates = c.gates.map (Gate.bind bindings) := by
  unfold gates bindParameters
  rw [List.filterMap_map, List.map_filterMap]
  exact List.filterMap_congr fun inst _ => Instruction.bind_gate? bindings inst

theorem isBound_bindParameters {c : Circuit R} {bindings : Bindings R}
    (h : ∀ name ∈ c.parameterNames, bindings.contains name = true) :
    (c.bindParameters bindings).IsBound := by
  intro bound hbound angle hangle
  rw [gates_bindParameters] at hbound
  obtain ⟨g, hg, rfl⟩ := List.mem_map.1 hbound
  rw [Gate.bind_parameters] at hangle
  obtain ⟨p, hp, rfl⟩ := List.mem_map.1 hangle
  exact Parameter.isSymbolic_bind fun name hname => h name (mem_parameterNames hg hp hname)

end Circuit

namespace ExecutionRequest

theorem validate_boundCircuit {r : ExecutionRequest R} (h : r.circuit.validate = .ok ()) :
    r.boundCircuit.validate = .ok () := by
  unfold boundCircuit
  split
  · exact Circuit.validate_bindParameters h _
  · exact h

theorem boundCircuit_name (r : ExecutionRequest R) : r.boundCircuit.name = r.circuit.name := by
  unfold boundCircuit
  split <;> rfl

theorem boundCircuit_numQubits (r : ExecutionRequest R) :
    r.boundCircuit.numQubits = r.circuit.numQubits := by
  unfold boundCircuit
  split <;> rfl

theorem boundCircuit_numClbits (r : ExecutionRequest R) :
    r.boundCircuit.numClbits = r.circuit.numClbits := by
  unfold boundCircuit
  split <;> rfl

theorem boundCircuit_measurementMap (r : ExecutionRequest R) :
    r.boundCircuit.measurementMap = r.circuit.measurementMap := by
  unfold boundCircuit
  split
  · exact Circuit.measurementMap_bindParameters _ _
  · rfl

theorem boundCircuit_hasMidCircuitMeasurement (r : ExecutionRequest R) :
    r.boundCircuit.hasMidCircuitMeasurement = r.circuit.hasMidCircuitMeasurement := by
  unfold boundCircuit
  split
  · exact Circuit.dependsOnOutcome_bind _ _ _
  · rfl

theorem isBound_boundCircuit {r : ExecutionRequest R}
    (h : ∀ name ∈ r.circuit.parameterNames, r.options.parameters.contains name = true) :
    r.boundCircuit.IsBound := by
  unfold boundCircuit
  split
  next => exact Circuit.isBound_bindParameters h
  next hnot => exact Circuit.isBound_of_not_isParameterized (Bool.eq_false_iff.2 hnot)

end ExecutionRequest

end QuantumSim
