import Mathlib
import QuantumSim.Proofs.BatchExecution
import QuantumSim.Proofs.Composition

/-!
Barriers and labels. They say nothing about what a circuit does: every reading of a circuit and
every run of it is the same once they are left out. Circuits that differ only in labels and in
barriers that fit are hence accepted alike and run alike.
-/
namespace QuantumSim

section Erasure

variable {R : Type}

def Gate.unlabelled (g : Gate R) : Gate R := { g with label := none }

/-- The instruction without the label of its gate. -/
def Instruction.unlabelled (inst : Instruction R) : Instruction R :=
  match inst.operation with
  | .gate g => { inst with operation := .gate g.unlabelled }
  | _ => inst

def Step.unlabelled : Step R → Step R
  | .gate lowered g qubits => .gate lowered g.unlabelled qubits
  | step => step

namespace Circuit

/-- The instructions without barriers and labels. -/
def bareInstructions (insts : List (Instruction R)) : List (Instruction R) :=
  (insts.filter fun inst => !inst.isBarrier).map Instruction.unlabelled

/-- The circuit without barriers and labels. -/
def bare (c : Circuit R) : Circuit R := { c with instructions := bareInstructions c.instructions }

/-- Lists of instructions that differ in labels, and in barriers that fit the circuit. -/
inductive SameWork (c : Circuit R) : List (Instruction R) → List (Instruction R) → Prop
  | nil : SameWork c [] []
  | relabel {a b : Instruction R} {as bs : List (Instruction R)}
      (hlabel : a.unlabelled = b.unlabelled) (h : SameWork c as bs) :
      SameWork c (a :: as) (b :: bs)
  | insert {a : Instruction R} {as bs : List (Instruction R)} (hbarrier : a.isBarrier = true)
      (hfits : c.check a = .ok ()) (h : SameWork c as bs) : SameWork c as (a :: bs)
  | remove {a : Instruction R} {as bs : List (Instruction R)} (hbarrier : a.isBarrier = true)
      (hfits : c.check a = .ok ()) (h : SameWork c as bs) : SameWork c (a :: as) bs

end Circuit

end Erasure

namespace Circuit

section Readings

variable {R : Type}

theorem bareInstructions_cons (inst : Instruction R) (insts : List (Instruction R)) :
    bareInstructions (inst :: insts) = if inst.isBarrier then bareInstructions insts
      else inst.unlabelled :: bareInstructions insts := by
  unfold bareInstructions
  rw [List.filter_cons]
  cases inst.isBarrier <;> rfl

@[simp] theorem gates_bare (c : Circuit R) : c.bare.gates = c.gates.map Gate.unlabelled := by
  unfold gates bare
  generalize c.instructions = insts
  induction insts with
  | nil => rfl
  | cons inst insts ih =>
    obtain ⟨operation, qubits, clbits⟩ := inst
    cases operation with
    | gate g => exact congrArg (g.unlabelled :: ·) ih
    | measure => exact ih
    | reset => exact ih
    | barrier => exact ih

theorem gateCount_eq (c : Circuit R) : c.gateCount = c.gates.length := by
  have hgate (inst : Instruction R) : inst.isGate = inst.gate?.isSome := by
    obtain ⟨operation, qubits, clbits⟩ := inst
    cases operation <;> rfl
  unfold gateCount gates
  rw [List.length_filterMap_eq_countP, ← List.countP_eq_length_filter]
  exact congrArg (List.countP · c.instructions) (funext hgate)

@[simp] theorem gateCount_bare (c : Circuit R) : c.bare.gateCount = c.gateCount := by
  rw [gateCount_eq, gateCount_eq, gates_bare, List.length_map]

@[simp] theorem isParameterized_bare (c : Circuit R) :
    c.bare.isParameterized = c.isParameterized := by
  unfold isParameterized
  rw [gates_bare, List.any_map]
  rfl

@[simp] theorem parameterNames_bare (c : Circuit R) : c.bare.parameterNames = c.parameterNames := by
  unfold parameterNames
  rw [gates_bare, List.flatMap_map]
  rfl

@[simp] theorem measurementMap_bare (c : Circuit R) : c.bare.measurementMap = c.measurementMap := by
  unfold measurementMap bare
  generalize c.instructions = insts
  induction insts with
  | nil => rfl
  | cons inst insts ih =>
    obtain ⟨operation, qubits, clbits⟩ := inst
    cases operation with
    | gate g => exact ih
    | measure => exact congrArg (qubits.zip clbits ++ ·) ih
    | reset => exact ih
    | barrier => exact ih

theorem dependsOnOutcome_bare (measured : List Qubit) (insts : List (Instruction R)) :
    dependsOnOutcome measured (bareInstructions insts) = dependsOnOutcome measured insts := by
  induction insts generalizing measured with
  | nil => rfl
  | cons inst insts ih =>
    obtain ⟨operation, qubits, clbits⟩ := inst
    cases operation with
    | gate g => exact congrArg (_ || ·) (ih measured)
    | measure => exact ih _
    | reset => rfl
    | barrier => exact ih measured

@[simp] theorem hasMidCircuitMeasurement_bare (c : Circuit R) :
    c.bare.hasMidCircuitMeasurement = c.hasMidCircuitMeasurement :=
  dependsOnOutcome_bare [] c.instructions

theorem depthFrom_bare (l : Levels) (depth : ℕ) (insts : List (Instruction R)) :
    depthFrom l depth (bareInstructions insts) = depthFrom l depth insts := by
  induction insts generalizing l depth with
  | nil => rfl
  | cons inst insts ih =>
    obtain ⟨operation, qubits, clbits⟩ := inst
    cases operation with
    | gate g => exact bind_congr fun level => ih _ _
    | measure => exact bind_congr fun level => ih _ _
    | reset => exact bind_congr fun level => ih _ _
    | barrier => exact ih l depth

@[simp] theorem depth_bare (c : Circuit R) : c.bare.depth = c.depth :=
  depthFrom_bare _ 0 c.instructions

end Readings

section Relation

variable {R : Type} {c : Circuit R} {as bs : List (Instruction R)}

@[simp] theorem isBarrier_unlabelled (inst : Instruction R) :
    inst.unlabelled.isBarrier = inst.isBarrier := by
  obtain ⟨operation, qubits, clbits⟩ := inst
  cases operation <;> rfl

@[simp] theorem check_unlabelled (c : Circuit R) (inst : Instruction R) :
    c.check inst.unlabelled = c.check inst := by
  obtain ⟨operation, qubits, clbits⟩ := inst
  cases operation <;> rfl

theorem SameWork.bareInstructions_eq (h : c.SameWork as bs) :
    bareInstructions bs = bareInstructions as := by
  induction h with
  | nil => rfl
  | @relabel a b as bs hlabel _ ih =>
    have hbarrier : a.isBarrier = b.isBarrier := by
      rw [← isBarrier_unlabelled a, hlabel, isBarrier_unlabelled]
    rw [bareInstructions_cons, bareInstructions_cons, ih, hbarrier, hlabel]
  | insert hbarrier _ _ ih => rw [bareInstructions_cons, if_pos hbarrier, ih]
  | remove hbarrier _ _ ih => rw [bareInstructions_cons, if_pos hbarrier, ih]

/-- A check passes over barriers that fit and does not look at labels, so that it finds the same
first problem. -/
theorem SameWork.checkAll_eq (h : c.SameWork as bs) : c.checkAll bs = c.checkAll as := by
  induction h with
  | nil => rfl
  | @relabel a b as bs hlabel _ ih =>
    have hcheck : c.check a = c.check b := by
      rw [← check_unlabelled c a, hlabel, check_unlabelled]
    rw [checkAll, checkAll, hcheck, ih]
  | insert _ hfits _ ih => rw [checkAll, hfits, ok_bind, ih]
  | remove _ hfits _ ih => rw [checkAll, hfits, ok_bind, ih]

end Relation

section Programs

variable {R : Type} [Scalar R]

theorem bindParameters_bare (c : Circuit R) (bindings : Bindings R) :
    c.bare.bindParameters bindings = (c.bindParameters bindings).bare := by
  unfold bindParameters bare
  congr 1
  dsimp only
  generalize c.instructions = insts
  induction insts with
  | nil => rfl
  | cons inst insts ih =>
    obtain ⟨operation, qubits, clbits⟩ := inst
    cases operation with
    | gate g =>
      obtain ⟨kind, controls, label⟩ := g
      cases kind <;> exact congrArg (_ :: ·) ih
    | measure => exact congrArg (_ :: ·) ih
    | reset => exact congrArg (_ :: ·) ih
    | barrier => exact ih

/-- A circuit is compiled one instruction after the other. -/
theorem compile_cons (c : Circuit R) (inst : Instruction R) (insts : List (Instruction R)) :
    compile { c with instructions := inst :: insts } = (do
      let first ← Step.ofInstruction inst
      let rest ← compile { c with instructions := insts }
      return first ++ rest) := by
  unfold compile
  dsimp only
  rw [List.mapM_cons]
  simp only [bind_assoc, pure_bind, List.flatten_cons]

theorem ofInstruction_unlabelled (inst : Instruction R) :
    Step.ofInstruction inst.unlabelled =
      (Step.ofInstruction inst).map (List.map Step.unlabelled) := by
  obtain ⟨operation, qubits, clbits⟩ := inst
  cases operation with
  | gate g =>
    show (g.kind.lower >>= _) = (g.kind.lower >>= _).map _
    cases g.kind.lower <;> rfl
  | measure => rfl
  | reset =>
    refine congrArg Except.ok ?_
    rw [List.map_map]
    rfl
  | barrier => rfl

/-- The steps of the bare circuit are those of the circuit without the labels. -/
theorem compile_bare (c : Circuit R) :
    c.bare.compile = c.compile.map (List.map Step.unlabelled) := by
  obtain ⟨name, numQubits, numClbits, insts⟩ := c
  unfold bare
  dsimp only
  induction insts with
  | nil => rfl
  | cons inst insts ih =>
    have htail := compile_cons (R := R) ⟨name, numQubits, numClbits, []⟩
    dsimp only at htail
    rw [bareInstructions_cons, htail]
    split
    next hbarrier =>
      -- only a barrier is left, and it has no steps
      obtain ⟨operation, qubits, clbits⟩ := inst
      cases operation <;> cases hbarrier
      rw [ih]
      exact congrArg (Except.map _) (bind_pure _).symm
    next =>
      rw [htail, ofInstruction_unlabelled, ih]
      cases Step.ofInstruction inst with
      | error e => rfl
      | ok first =>
        cases compile ⟨name, numQubits, numClbits, insts⟩ with
        | error e => rfl
        | ok rest => exact congrArg Except.ok List.map_append.symm

end Programs

end Circuit

section Runs

variable {R G : Type} [Scalar R] [RandomSource G]

omit [RandomSource G] [Scalar R] in
theorem Step.isGate_unlabelled : (fun step : Step R => step.isGate) ∘ Step.unlabelled =
    fun step => step.isGate := by
  funext step
  cases step <;> rfl

omit [RandomSource G] in
theorem Statevector.evolve_unlabelled (s : Statevector R) (steps : List (Step R)) :
    s.evolve (steps.map Step.unlabelled) = s.evolve steps := by
  unfold evolve
  rw [List.foldlM_map]
  refine foldlM_congr (fun step _ s => ?_) s
  cases step <;> rfl

namespace Sampler

theorem playSteps_unlabelled (t : Trajectory R) (steps : List (Step R)) :
    ((steps.map Step.unlabelled).foldlM playStep t : Sampling R G (Trajectory R)) =
      steps.foldlM playStep t := by
  have hstep : (fun (t : Trajectory R) (step : Step R) =>
      (playStep t step.unlabelled : Sampling R G (Trajectory R))) = playStep := by
    funext t step
    cases step <;> rfl
  rw [List.foldlM_map, hstep]

theorem playShots_bare (c : Circuit R) (base : Statevector R) (steps : List (Step R))
    (shots shot : ℕ) (counts : Counts) :
    (playShots c.bare base (steps.map Step.unlabelled) shots shot counts : Sampling R G Counts) =
      playShots c base steps shots shot counts := by
  have hshot (shot : ℕ) : (playShot c.bare base (steps.map Step.unlabelled) shot :
      Sampling R G String) = playShot c base steps shot := by
    unfold playShot
    rw [playSteps_unlabelled]
    rfl
  induction shots generalizing shot counts with
  | zero => rfl
  | succ shots ih =>
    unfold playShots
    simp only [hshot, ih]

variable (c : Circuit R) (steps : List (Step R)) (machine : Machine) (shots : ℕ)

theorem sampleTrajectories_bare :
    (sampleTrajectories c.bare (steps.map Step.unlabelled) machine shots :
      Sampling R G Counts) = sampleTrajectories c steps machine shots := by
  unfold sampleTrajectories
  simp only [List.takeWhile_map, List.dropWhile_map, Step.isGate_unlabelled,
    Statevector.evolve_unlabelled, playShots_bare]
  rfl

omit [RandomSource G] in
theorem finalState_bare : finalState c.bare (steps.map Step.unlabelled) machine =
    finalState c steps machine := by
  unfold finalState
  simp only [Statevector.evolve_unlabelled]
  rfl

theorem sampleFinalState_bare :
    (sampleFinalState c.bare (steps.map Step.unlabelled) machine shots :
      Sampling R G Counts) = sampleFinalState c steps machine shots := by
  have hmap : readoutMap c.bare = readoutMap c := by
    unfold readoutMap
    rw [Circuit.measurementMap_bare]
    rfl
  unfold sampleFinalState
  rw [finalState_bare, hmap]

theorem sample_bare :
    (sample c.bare (steps.map Step.unlabelled) machine shots :
      Sampling R G (Counts × String)) = sample c steps machine shots := by
  unfold sample
  rw [Circuit.hasMidCircuitMeasurement_bare, sampleTrajectories_bare, sampleFinalState_bare]

end Sampler

end Runs

namespace ExecutionRequest

variable {R : Type} [Scalar R]

omit [Scalar R] in
/-- The request for the circuit without barriers and labels. -/
def bare (r : ExecutionRequest R) : ExecutionRequest R := { r with circuit := r.circuit.bare }

theorem boundCircuit_bare (r : ExecutionRequest R) : r.bare.boundCircuit = r.boundCircuit.bare := by
  unfold boundCircuit bare
  dsimp only
  rw [Circuit.isParameterized_bare, Circuit.bindParameters_bare]
  split <;> rfl

theorem runExact_bare (r : ExecutionRequest R) (e : Engine) (index : ℕ) (c : Circuit R)
    (steps : List (Step R)) (given : Conditions) :
    e.runExact index c.bare (steps.map Step.unlabelled) r.bare given =
      e.runExact index c steps r given := by
  unfold Engine.runExact
  rw [Sampler.finalState_bare, Circuit.depth_bare, Circuit.gateCount_bare]
  rfl

theorem runSampled_bare (r : ExecutionRequest R) (e : Engine) (index : ℕ) (c : Circuit R)
    (steps : List (Step R)) (given : Conditions) :
    e.runSampled index c.bare (steps.map Step.unlabelled) r.bare given =
      e.runSampled index c steps r given := by
  unfold Engine.runSampled
  rw [Sampler.sample_bare, Circuit.gateCount_bare]
  rfl

/-- A request runs like that for the bare circuit. -/
theorem execute_bare (r : ExecutionRequest R) (e : Engine) (index : ℕ) (given : Conditions) :
    e.execute index r.bare given = e.execute index r given := by
  have hoptions : r.bare.options = r.options := rfl
  unfold Engine.execute
  dsimp only
  rw [boundCircuit_bare, Circuit.compile_bare, hoptions]
  cases r.boundCircuit.compile with
  | error cause => rfl
  | ok steps =>
    simp only [Except.map, ok_bind, runExact_bare, runSampled_bare]

omit [Scalar R] in
theorem checkObservables_bare (c : Circuit R) (observables : List (Observable R)) :
    checkObservables c.bare observables = checkObservables c observables := by
  induction observables with
  | nil => rfl
  | cons o rest ih =>
    unfold checkObservables
    rw [ih]
    rfl

/-- What a request asks for does not depend on labels, or on barriers that fit its circuit. It is
accepted or refused alike, and a run of it has the same outcome under the same conditions. If it
draws nothing from outside, then so do two runs whose reductions are divided alike. -/
theorem annotations_inert (r : ExecutionRequest R) {insts : List (Instruction R)}
    (h : r.circuit.SameWork r.circuit.instructions insts) :
    let c' : Circuit R := { r.circuit with instructions := insts }
    let r' : ExecutionRequest R := { r with circuit := c' }
    r'.validate = r.validate ∧
      (∀ (e : Engine) (index : ℕ) (given : Conditions),
        e.execute index r' given = e.execute index r given) ∧
      (∀ e : Engine, e.Determined r → ∀ (index : ℕ) (given given' : Conditions),
        e.DividesAlike r given given' →
          e.execute index r' given' = e.execute index r given) ∧
      c'.hasMidCircuitMeasurement = r.circuit.hasMidCircuitMeasurement ∧
      c'.measurementMap = r.circuit.measurementMap ∧ c'.depth = r.circuit.depth ∧
      c'.gateCount = r.circuit.gateCount ∧ c'.parameterNames = r.circuit.parameterNames := by
  intro c' r'
  have hbare : c'.bare = r.circuit.bare := by
    unfold Circuit.bare
    rw [h.bareInstructions_eq]
  have hread {α : Type} {f : Circuit R → α} (hf : ∀ c : Circuit R, f c.bare = f c) :
      f c' = f r.circuit := by
    rw [← hf, hbare, hf]
  have hmid := hread Circuit.hasMidCircuitMeasurement_bare
  have hnames := hread Circuit.parameterNames_bare
  have hexecute (e : Engine) (index : ℕ) (given : Conditions) :
      e.execute index r' given = e.execute index r given := by
    have hrequest : r'.bare = r.bare := congrArg (ExecutionRequest.mk · r.options) hbare
    rw [← execute_bare, hrequest, execute_bare]
  refine ⟨?_, hexecute, fun e hdetermined index given given' halike => ?_, hmid,
    hread Circuit.measurementMap_bare, hread Circuit.depth_bare, hread Circuit.gateCount_bare,
    hnames⟩
  · have hcircuit : c'.validate = r.circuit.validate :=
      (Circuit.checkAll_of_instructions ..).trans h.checkAll_eq
    have hobservables := hread (f := (checkObservables · r.options.observables)) fun c =>
      checkObservables_bare c r.options.observables
    unfold validate
    rw [hcircuit, hmid, hobservables, hnames]
  · rw [hexecute, hdetermined.execute_eq halike]

/-- A label on the first gate, barriers before it, on no qubit, and between a measurement and a
reset of its qubit, and a barrier at the end that is left out. -/
theorem annotations_inert_noted :
    let c : Circuit Float := ⟨"noted", 2, 1, [.standard (.plain .h) [⟨0⟩], .measure [⟨0⟩] [⟨0⟩],
      .reset ⟨0⟩, .standard (.plain .cx) [⟨1⟩, ⟨0⟩], .barrier [⟨1⟩]]⟩
    let insts : List (Instruction Float) := [.barrier [⟨1⟩, ⟨0⟩],
      .ofGate ⟨.standard (.plain .h), [], some "mix"⟩ [⟨0⟩], .barrier [], .measure [⟨0⟩] [⟨0⟩],
      .barrier [⟨0⟩], .reset ⟨0⟩, .standard (.plain .cx) [⟨1⟩, ⟨0⟩]]
    let r : ExecutionRequest Float := ⟨c, .sampled 5⟩
    let e : Engine := ⟨1024, some 7, true⟩
    let given : Conditions := { entropy := 2, divide := fun size => .cut (size / 2) .whole .whole }
    let given' : Conditions := { entropy := 1 }
    c.SameWork c.instructions insts ∧ e.Determined r ∧ e.DividesAlike r given given' ∧
      r.validate = .ok () ∧
      ExecutionRequest.validate { r with circuit := { c with instructions := insts } } = .ok () ∧
      e.execute 0 { r with circuit := { c with instructions := insts } } given' =
        e.execute 0 r given := by
  intro c insts r e given given'
  have hsame : c.SameWork c.instructions insts :=
    .insert rfl rfl (.relabel rfl (.insert rfl rfl (.relabel rfl (.insert rfl rfl
      (.relabel rfl (.relabel rfl (.remove rfl rfl .nil)))))))
  have hdetermined : e.Determined r := fun _ => rfl
  have halike : e.DividesAlike r given given' := .inl (by decide)
  have hvalid : r.validate = .ok () :=
    validate_eq_ok.2 ⟨⟨rfl, rfl, by decide⟩, rfl, by decide +kernel⟩
  obtain ⟨hvalidate, -, hexecute, -⟩ := annotations_inert r hsame
  exact ⟨hsame, hdetermined, halike, hvalid, hvalidate.trans hvalid,
    hexecute e hdetermined 0 given given' halike⟩

end ExecutionRequest

end QuantumSim
