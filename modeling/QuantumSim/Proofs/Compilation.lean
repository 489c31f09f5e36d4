import Mathlib
import QuantumSim.Program
import QuantumSim.Proofs.Application

/-!
Compiled circuits. The steps of a valid circuit fit its registers, they measure what the circuit
measures, and no gate follows a measurement of one of its qubits unless the circuit says so.
-/
namespace QuantumSim

variable {R : Type}

namespace Step

/-- A step whose operands are in registers of the given sizes. -/
def Fits (n m : ℕ) : Step R → Prop
  | gate lowered g qubits => lowered.Accepts n g qubits
  | measure pairs => ∀ pair ∈ pairs, pair.1.index < n ∧ pair.2.index < m
  | reset q => q.index < n

/-- The measurements of a step. -/
def pairs : Step R → List (Qubit × Clbit)
  | measure pairs => pairs
  | _ => []

theorem mem_pairs_fits {n m : ℕ} {steps : List (Step R)} (hfits : ∀ step ∈ steps, step.Fits n m) :
    ∀ pair ∈ steps.flatMap pairs, pair.1.index < n ∧ pair.2.index < m := by
  intro pair hpair
  obtain ⟨step, hstep, hmem⟩ := List.mem_flatMap.1 hpair
  cases step with
  | gate lowered g qubits => simp [pairs] at hmem
  | measure ps => exact hfits _ hstep pair hmem
  | reset q => simp [pairs] at hmem

/-- Steps without reset, in which no gate acts on a qubit that is among `measured` or measured
before. -/
def Deferred : List Qubit → List (Step R) → Prop
  | _, [] => True
  | measured, gate _ g qubits :: rest =>
    (∀ q ∈ qubits ++ g.controls.map (·.qubit), q ∉ measured) ∧ Deferred measured rest
  | measured, measure pairs :: rest => Deferred (pairs.map (·.1) ++ measured) rest
  | _, reset _ :: _ => False

theorem Deferred.not_mem {measured : List Qubit} {steps : List (Step R)}
    (h : Deferred measured steps) {lowered : LoweredGate R} {g : Gate R} {qubits : List Qubit}
    (hmem : gate lowered g qubits ∈ steps) :
    ∀ q ∈ qubits ++ g.controls.map (·.qubit), q ∉ measured := by
  induction steps generalizing measured with
  | nil => simp at hmem
  | cons step steps ih =>
    cases step with
    | gate lowered' g' qubits' =>
      rcases List.mem_cons.1 hmem with heq | hmem
      · cases heq
        exact h.1
      · exact ih h.2 hmem
    | measure pairs =>
      have hmem : gate lowered g qubits ∈ steps := by simpa using hmem
      exact fun q hq hm => ih h hmem q hq (List.mem_append_right _ hm)
    | reset q => exact h.elim

theorem Deferred.tail {measured : List Qubit} {step : Step R} {rest : List (Step R)}
    (h : Deferred measured (step :: rest)) : ∃ measured', Deferred measured' rest := by
  cases step with
  | gate lowered g qubits => exact ⟨measured, h.2⟩
  | measure pairs => exact ⟨_, h⟩
  | reset q => exact h.elim

variable [Scalar R]

/-- The steps of an instruction, by its kind. -/
theorem ofInstruction_eq_ok {inst : Instruction R} {steps : List (Step R)}
    (h : ofInstruction inst = .ok steps) :
    (∃ g lowered, inst.operation = .gate g ∧ g.kind.lower = .ok lowered ∧
        steps = [gate lowered g inst.qubits]) ∨
      (inst.operation = .measure ∧ steps = [measure (inst.qubits.zip inst.clbits)]) ∨
      (inst.operation = .reset ∧ steps = inst.qubits.map reset) ∨
      (inst.operation = .barrier ∧ steps = []) := by
  unfold ofInstruction at h
  cases hop : inst.operation with
  | gate g =>
    rw [hop] at h
    obtain ⟨lowered, hlower, hsteps⟩ := bind_eq_ok.1 h
    exact .inl ⟨g, lowered, rfl, hlower, (Except.ok.inj hsteps).symm⟩
  | measure =>
    rw [hop] at h
    exact .inr (.inl ⟨rfl, (Except.ok.inj h).symm⟩)
  | reset =>
    rw [hop] at h
    exact .inr (.inr (.inl ⟨rfl, (Except.ok.inj h).symm⟩))
  | barrier =>
    rw [hop] at h
    exact .inr (.inr (.inr ⟨rfl, (Except.ok.inj h).symm⟩))

/-- The steps of an instruction that fits a circuit fit its registers. -/
theorem ofInstruction_fits {c : Circuit R} {inst : Instruction R} (hfits : c.Fits inst)
    {steps : List (Step R)} (h : ofInstruction inst = .ok steps) :
    ∀ step ∈ steps, step.Fits c.numQubits.toNat c.numClbits.toNat := by
  have hqubits (q : Qubit) (hq : q ∈ inst.qubits) : q.index < c.numQubits.toNat :=
    hfits.qubits q (List.mem_append_left _ hq)
  obtain ⟨g, lowered, hop, hlower, rfl⟩ | ⟨-, rfl⟩ | ⟨-, rfl⟩ | ⟨-, rfl⟩ := ofInstruction_eq_ok h
  · intro step hstep
    rw [List.mem_singleton.1 hstep]
    exact hfits.accepts hop hlower
  · intro step hstep
    rw [List.mem_singleton.1 hstep]
    intro pair hpair
    obtain ⟨hq, hb⟩ := List.of_mem_zip hpair
    exact ⟨hqubits _ hq, hfits.clbits _ hb⟩
  · intro step hstep
    obtain ⟨q, hq, rfl⟩ := List.mem_map.1 hstep
    exact hqubits q hq
  · simp

theorem ofInstruction_pairs {inst : Instruction R} {steps : List (Step R)}
    (h : ofInstruction inst = .ok steps) :
    steps.flatMap pairs = if inst.isMeasure then inst.qubits.zip inst.clbits else [] := by
  obtain ⟨g, lowered, hop, -, rfl⟩ | ⟨hop, rfl⟩ | ⟨hop, rfl⟩ | ⟨hop, rfl⟩ :=
    ofInstruction_eq_ok h <;>
    simp [Instruction.isMeasure, hop, pairs, List.flatMap_map]

end Step

namespace Circuit

variable [Scalar R]

theorem mapM_cons_eq_ok {inst : Instruction R} {insts : List (Instruction R)}
    {stepss : List (List (Step R))} (h : (inst :: insts).mapM Step.ofInstruction = .ok stepss) :
    ∃ steps rest, Step.ofInstruction inst = .ok steps ∧ insts.mapM Step.ofInstruction = .ok rest ∧
      stepss = steps :: rest := by
  rw [List.mapM_cons] at h
  obtain ⟨steps, hsteps, h⟩ := bind_eq_ok.1 h
  obtain ⟨rest, hrest, h⟩ := bind_eq_ok.1 h
  exact ⟨steps, rest, hsteps, hrest, (Except.ok.inj h).symm⟩

/-- Every step comes from an instruction. -/
theorem exists_instruction_of_mem {insts : List (Instruction R)} {stepss : List (List (Step R))}
    (h : insts.mapM Step.ofInstruction = .ok stepss) {step : Step R}
    (hstep : step ∈ stepss.flatten) :
    ∃ inst ∈ insts, ∃ steps, Step.ofInstruction inst = .ok steps ∧ step ∈ steps := by
  induction insts generalizing stepss with
  | nil =>
    cases h
    simp at hstep
  | cons inst insts ih =>
    obtain ⟨steps, rest, hsteps, hrest, rfl⟩ := mapM_cons_eq_ok h
    rcases List.mem_append.1 (List.flatten_cons ▸ hstep) with hstep | hstep
    · exact ⟨inst, by simp, steps, hsteps, hstep⟩
    · obtain ⟨inst', hinst', found⟩ := ih hrest hstep
      exact ⟨inst', List.mem_cons_of_mem _ hinst', found⟩

theorem mapM_pairs {insts : List (Instruction R)} {stepss : List (List (Step R))}
    (h : insts.mapM Step.ofInstruction = .ok stepss) : stepss.flatten.flatMap Step.pairs =
      (insts.filter (·.isMeasure)).flatMap fun inst => inst.qubits.zip inst.clbits := by
  induction insts generalizing stepss with
  | nil =>
    cases h
    rfl
  | cons inst insts ih =>
    obtain ⟨steps, rest, hsteps, hrest, rfl⟩ := mapM_cons_eq_ok h
    rw [List.flatten_cons, List.flatMap_append, ih hrest, Step.ofInstruction_pairs hsteps,
      List.filter_cons]
    split <;> simp

theorem compile_eq_ok {c : Circuit R} {steps : List (Step R)} (h : c.compile = .ok steps) :
    ∃ stepss, c.instructions.mapM Step.ofInstruction = .ok stepss ∧ steps = stepss.flatten := by
  obtain ⟨stepss, hstepss, h⟩ := bind_eq_ok.1 h
  exact ⟨stepss, hstepss, (Except.ok.inj h).symm⟩

/-- A circuit compiles if the operator of every gate can be formed. -/
theorem exists_compile_eq_ok {c : Circuit R}
    (h : ∀ inst ∈ c.instructions, ∀ g, inst.operation = .gate g → g.kind.Ready) :
    ∃ steps, c.compile = .ok steps := by
  have hinsts : ∀ inst ∈ c.instructions, ∃ steps, Step.ofInstruction inst = .ok steps := by
    intro inst hinst
    unfold Step.ofInstruction
    cases hop : inst.operation with
    | gate g =>
      obtain ⟨lowered, hlower⟩ := (h inst hinst g hop).exists_lower
      exact ⟨[.gate lowered g inst.qubits], bind_eq_ok.2 ⟨lowered, hlower, rfl⟩⟩
    | measure => exact ⟨_, rfl⟩
    | reset => exact ⟨_, rfl⟩
    | barrier => exact ⟨_, rfl⟩
  obtain ⟨stepss, hstepss⟩ := exists_mapM_eq_ok hinsts
  exact ⟨stepss.flatten, bind_eq_ok.2 ⟨stepss, hstepss, rfl⟩⟩

/-- The steps of a valid circuit fit its registers. -/
theorem compile_fits {c : Circuit R} (hvalid : c.validate = .ok ()) {steps : List (Step R)}
    (h : c.compile = .ok steps) :
    ∀ step ∈ steps, step.Fits c.numQubits.toNat c.numClbits.toNat := by
  obtain ⟨stepss, hstepss, rfl⟩ := compile_eq_ok h
  intro step hstep
  obtain ⟨inst, hinst, steps, hsteps, hmem⟩ := exists_instruction_of_mem hstepss hstep
  exact Step.ofInstruction_fits ((validate_eq_ok c).1 hvalid inst hinst) hsteps step hmem

/-- The steps measure what the circuit measures, in its order. -/
theorem compile_pairs {c : Circuit R} {steps : List (Step R)} (h : c.compile = .ok steps) :
    steps.flatMap Step.pairs = c.measurementMap := by
  obtain ⟨stepss, hstepss, rfl⟩ := compile_eq_ok h
  exact mapM_pairs hstepss

/-- Instructions of which none may depend on an outcome compile to deferred measurements. -/
theorem deferred_of_dependsOnOutcome {c : Circuit R} {insts : List (Instruction R)}
    (hfits : ∀ inst ∈ insts, c.Fits inst) {stepss : List (List (Step R))}
    (h : insts.mapM Step.ofInstruction = .ok stepss) {measured : List Qubit}
    (hdep : dependsOnOutcome measured insts = false) : Step.Deferred measured stepss.flatten := by
  induction insts generalizing stepss measured with
  | nil =>
    cases h
    trivial
  | cons inst insts ih =>
    obtain ⟨steps, rest, hsteps, hrest, rfl⟩ := mapM_cons_eq_ok h
    obtain ⟨hinst, hinsts⟩ := List.forall_mem_cons.1 hfits
    rw [List.flatten_cons]
    obtain ⟨g, lowered, hop, -, rfl⟩ | ⟨hop, rfl⟩ | ⟨hop, rfl⟩ | ⟨hop, rfl⟩ :=
      Step.ofInstruction_eq_ok hsteps
    · simp only [dependsOnOutcome, hop, Bool.or_eq_false_iff, List.any_eq_false] at hdep
      refine ⟨fun q hq => ?_, ih hinsts hrest hdep.2⟩
      simpa using hdep.1 q (by simpa [Instruction.allQubits, Instruction.controls, hop] using hq)
    · simp only [dependsOnOutcome, hop] at hdep
      have hfst : (inst.qubits.zip inst.clbits).map (·.1) = inst.qubits :=
        List.map_fst_zip (hinst.measure hop).le
      show Step.Deferred ((inst.qubits.zip inst.clbits).map (·.1) ++ measured) rest.flatten
      exact hfst.symm ▸ ih hinsts hrest hdep
    · simp [dependsOnOutcome, hop] at hdep
    · simp only [dependsOnOutcome, hop] at hdep
      exact ih hinsts hrest hdep

theorem compile_deferred {c : Circuit R} (hvalid : c.validate = .ok ()) {steps : List (Step R)}
    (h : c.compile = .ok steps) (hmid : c.hasMidCircuitMeasurement = false) :
    Step.Deferred [] steps := by
  obtain ⟨stepss, hstepss, rfl⟩ := compile_eq_ok h
  exact deferred_of_dependsOnOutcome ((validate_eq_ok c).1 hvalid) hstepss hmid

end Circuit

end QuantumSim
