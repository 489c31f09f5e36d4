import Mathlib
import QuantumSim.Proofs.Compilation
import QuantumSim.Proofs.FourierCircuit

/-!
The circuit of a cat state. A Hadamard gate, a chain of flips that hands the value of every qubit on
to the next one, and a measurement of every qubit into the classical bit of its number. Nothing
follows the measurements, so that the shots are drawn from the state before them.
-/
namespace QuantumSim

theorem Qubit.zip_tail_range (n : UInt32) :
    (range n).zip (range n).tail =
      (List.range (n.toNat - 1)).map fun i => (⟨i.toUInt32⟩, ⟨(i + 1).toUInt32⟩) := by
  apply List.ext_getElem
  · simp [range]
  · intro i _ _
    simp [range]

namespace Circuit

variable {R : Type}

/-- Qubit `i` hands its value on to the next one. -/
def catLink (i : ℕ) : Instruction R :=
  .standard (.plain .cx GateSymbol.arity_cx) [⟨i.toUInt32⟩, ⟨(i + 1).toUInt32⟩]

/-- A qubit is read into the classical bit of its number. -/
def catReading (q : Qubit) : Instruction R := .measure [q] [⟨q.id⟩]

def catInstructions (n : UInt32) : List (Instruction R) :=
  .standard (.plain .h GateSymbol.arity_h) [⟨0⟩] ::
    ((List.range (n.toNat - 1)).map catLink ++ (Qubit.range n).map catReading)

/-- The circuit that a register of this size gets. -/
def cat (n : UInt32) : Circuit R := ⟨"ghz", n, n, catInstructions n⟩

theorem fits_catInstructions {c : Circuit R} (hpos : 1 ≤ c.numQubits.toNat)
    (hclbits : c.numClbits = c.numQubits) :
    ∀ inst ∈ catInstructions c.numQubits, c.Fits inst := by
  intro inst hinst
  rcases List.mem_cons.1 hinst with rfl | hinst
  · apply fits_standard rfl (List.nodup_singleton _)
    rw [List.forall_mem_singleton]
    exact hpos
  rcases List.mem_append.1 hinst with hinst | hinst
  · obtain ⟨i, hi, rfl⟩ := List.mem_map.1 hinst
    have hi := List.mem_range.1 hi
    exact fits_pair rfl (by omega) (by omega) (by omega)
  · obtain ⟨q, hq, rfl⟩ := List.mem_map.1 hinst
    have hlt := Qubit.index_lt_of_mem_range hq
    constructor
    · exact nofun
    · exact fun _ => rfl
    · exact List.nodup_singleton q
    · simpa [catReading, Instruction.measure, Instruction.allQubits, Instruction.controls] using hlt
    · rw [hclbits]
      exact List.forall_mem_singleton.2 hlt

/-- A loop that appends one instruction in each step appends all of them. -/
theorem build_forM_append {α : Type} (inst : α → Instruction R) (l : List α) (c : Circuit R) :
    c.build (l.forM fun a => Builder.append (inst a)) = c.appendAll (l.map inst) := by
  rw [List.map_eq_flatMap]
  apply build_forM
  intro a _ c
  exact (appendAll_singleton c _).symm

theorem ghz_eq_ok {n : UInt32} (hpos : 1 ≤ n.toNat) :
    (ghz n : Except (CircuitError R) (Circuit R)) = .ok (cat n) := by
  have hne : n ≠ 0 := by
    rintro rfl
    exact absurd hpos (by decide)
  have hlinks (c : Circuit R) : c.build
      (((Qubit.range n).zip (Qubit.range n).tail).forM fun pair => Builder.cx pair.1 pair.2) =
        c.appendAll ((List.range (n.toNat - 1)).map catLink) := by
    rw [Qubit.zip_tail_range, List.forM_eq_forM, List.forM_map]
    exact build_forM_append catLink _ c
  have hreadings (c : Circuit R) : c.build
      ((Qubit.range n).forM fun q => Builder.measure q ⟨q.id⟩) =
        c.appendAll ((Qubit.range n).map catReading) :=
    build_forM_append catReading _ c
  have happend : (ghz n : Except (CircuitError R) (Circuit R)) =
      (withSize "ghz" n n).appendAll (catInstructions n) := by
    unfold ghz
    rw [if_neg hne, build_seq, catInstructions, ← List.singleton_append, appendAll_append,
      appendAll_singleton]
    simp only [build_seq, hlinks, hreadings, appendAll_append]
    rfl
  exact happend.trans (appendAll_eq_ok (fits_catInstructions (c := withSize "ghz" n n) hpos rfl))

theorem validate_cat {n : UInt32} (hpos : 1 ≤ n.toNat) : (cat n : Circuit R).validate = .ok () :=
  (validate_eq_ok _).2 (fits_catInstructions (c := cat n) hpos rfl)

theorem measurementMap_cat (n : UInt32) :
    (cat n : Circuit R).measurementMap = (Qubit.range n).map fun q => (q, ⟨q.id⟩) := by
  have hlinks : ((List.range (n.toNat - 1)).map (catLink : ℕ → Instruction R)).filter
      (·.isMeasure) = [] := by
    simp [catLink, Instruction.isMeasure, Instruction.standard, Instruction.ofGate]
  have hreadings : ((Qubit.range n).map (catReading : Qubit → Instruction R)).filter
      (·.isMeasure) = (Qubit.range n).map catReading := by
    simp [catReading, Instruction.isMeasure, Instruction.measure]
  rw [measurementMap, cat, catInstructions, List.filter_cons_of_neg Bool.false_ne_true,
    List.filter_append, hlinks, hreadings, List.nil_append, List.flatMap_map]
  exact List.map_eq_flatMap.symm

theorem measuredQubits_cat (n : UInt32) : (cat n : Circuit R).measuredQubits = Qubit.range n := by
  rw [measuredQubits, measurementMap_cat, List.map_map]
  exact (congrArg _ (List.map_id _)).trans (distinctQubits_range n)

/-- Gates before the first measurement depend on no outcome. -/
theorem dependsOnOutcome_append {insts : List (Instruction R)}
    (h : ∀ inst ∈ insts, ∃ g, inst.operation = .gate g) (rest : List (Instruction R)) :
    dependsOnOutcome [] (insts ++ rest) = dependsOnOutcome [] rest := by
  induction insts with
  | nil => rfl
  | cons inst insts ih =>
    obtain ⟨⟨g, hgate⟩, hrest⟩ := List.forall_mem_cons.1 h
    simp [dependsOnOutcome, hgate, ih hrest]

/-- Measurements depend on no outcome. -/
theorem dependsOnOutcome_of_measure {insts : List (Instruction R)}
    (h : ∀ inst ∈ insts, inst.operation = .measure) (measured : List Qubit) :
    dependsOnOutcome measured insts = false := by
  induction insts generalizing measured with
  | nil => rfl
  | cons inst insts ih =>
    obtain ⟨hfirst, hrest⟩ := List.forall_mem_cons.1 h
    rw [dependsOnOutcome, hfirst]
    exact ih hrest _

theorem hasMidCircuitMeasurement_cat (n : UInt32) :
    (cat n : Circuit R).hasMidCircuitMeasurement = false := by
  have hgates : ∀ inst ∈ .standard (.plain .h) [⟨0⟩] ::
      (List.range (n.toNat - 1)).map (catLink : ℕ → Instruction R),
        ∃ g, inst.operation = .gate g := by
    intro inst hinst
    rcases List.mem_cons.1 hinst with rfl | hinst
    · exact ⟨_, rfl⟩
    · obtain ⟨i, -, rfl⟩ := List.mem_map.1 hinst
      exact ⟨_, rfl⟩
  have hreadings : ∀ inst ∈ (Qubit.range n).map (catReading : Qubit → Instruction R),
      inst.operation = .measure := by
    intro inst hinst
    obtain ⟨q, -, rfl⟩ := List.mem_map.1 hinst
    rfl
  rw [hasMidCircuitMeasurement, cat, catInstructions, ← List.cons_append,
    dependsOnOutcome_append hgates]
  exact dependsOnOutcome_of_measure hreadings []

/-- No gate of the circuit has an angle. -/
theorem exists_plain_of_cat {n : UInt32} {inst : Instruction R}
    (hinst : inst ∈ (cat n).instructions) {g : Gate R} (hop : inst.operation = .gate g) :
    ∃ symbol h, g = .ofStandard (.plain symbol h) := by
  rcases List.mem_cons.1 hinst with rfl | hinst
  · cases hop
    exact ⟨_, _, rfl⟩
  rcases List.mem_append.1 hinst with hinst | hinst
  · obtain ⟨i, -, rfl⟩ := List.mem_map.1 hinst
    cases hop
    exact ⟨_, _, rfl⟩
  · obtain ⟨q, -, rfl⟩ := List.mem_map.1 hinst
    cases hop

theorem isParameterized_cat (n : UInt32) : (cat n : Circuit R).isParameterized = false := by
  rw [isParameterized, List.any_eq_false]
  intro g hg
  obtain ⟨inst, hinst, hgate⟩ := List.mem_filterMap.1 hg
  have hop : inst.operation = .gate g := by
    unfold Instruction.gate? at hgate
    split at hgate
    next g' hop =>
      cases hgate
      exact hop
    next => cases hgate
  obtain ⟨symbol, h, rfl⟩ := exists_plain_of_cat hinst hop
  exact Bool.false_ne_true

section Steps

variable [Scalar R]

/-- The flip of a qubit by the one below it, as a step. -/
def catStep (i : ℕ) : Step R :=
  .gate ⟨.single .x, 1⟩ (.ofStandard (.plain .cx GateSymbol.arity_cx))
    [⟨i.toUInt32⟩, ⟨(i + 1).toUInt32⟩]

def catSteps (n : UInt32) : List (Step R) :=
  .gate ⟨.single .h, 0⟩ (.ofStandard (.plain .h GateSymbol.arity_h)) [⟨0⟩] ::
    ((List.range (n.toNat - 1)).map catStep ++
      (Qubit.range n).map fun q => .measure [(q, ⟨q.id⟩)])

theorem compile_cat (n : UInt32) : (cat n : Circuit R).compile = .ok (catSteps n) := by
  have hh : Step.ofInstruction (.standard (.plain .h) [⟨0⟩] : Instruction R) =
      .ok [.gate ⟨.single .h, 0⟩ (.ofStandard (.plain .h)) [⟨0⟩]] :=
    bind_eq_ok.2 ⟨_, GateKind.lower_plain .h rfl, rfl⟩
  have hlinks : ((List.range (n.toNat - 1)).map catLink).mapM Step.ofInstruction =
      .ok ((List.range (n.toNat - 1)).map fun i => [(catStep i : Step R)]) := by
    rw [List.mapM_map]
    apply mapM_eq_ok_map
    intro i _
    exact bind_eq_ok.2 ⟨_, GateKind.lower_plain .cx rfl, rfl⟩
  have hreadings : ((Qubit.range n).map catReading).mapM Step.ofInstruction =
      .ok ((Qubit.range n).map fun q => [(.measure [(q, ⟨q.id⟩)] : Step R)]) := by
    rw [List.mapM_map]
    apply mapM_eq_ok_map
    intro q _
    rfl
  have hall : (catInstructions n).mapM Step.ofInstruction =
      .ok ((catSteps n).map fun step => [(step : Step R)]) := by
    rw [catInstructions, List.mapM_cons, List.mapM_append, hh, hlinks, hreadings, catSteps,
      List.map_cons, List.map_append, List.map_map, List.map_map]
    rfl
  refine bind_eq_ok.2 ⟨_, hall, ?_⟩
  exact congrArg Except.ok (List.map_eq_flatMap.symm.trans (List.map_id _))

end Steps

end Circuit

end QuantumSim
