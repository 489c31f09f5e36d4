import Mathlib
import QuantumSim.Simulator
import QuantumSim.Proofs.Outcome

/-!
What a submission is accepted for. Every request of an accepted batch passes the checks that need no
backend, and its register is no larger than the settings allow. A simulator that is asked about a
circuit alone looks at the size of the register and the names of the gates, so it calls a circuit
valid that it refuses at submission if an instruction does not fit the registers.
-/
namespace QuantumSim

namespace ExecutionRequest

variable {R : Type} [Scalar R]

/-- A request whose observables are looked at: its options and its circuit are valid, and in exact
mode it has a final state. -/
structure ReachesObservables (r : ExecutionRequest R) : Prop where
  options : r.options.validate = .ok ()
  circuit : r.circuit.validate = .ok ()
  state : ¬(r.options.mode = .exact ∧ r.circuit.hasMidCircuitMeasurement = true)

/-- A request that gives every symbol of its circuit a value. -/
def BindsAll {R : Type} (r : ExecutionRequest R) : Prop :=
  ∀ name ∈ r.circuit.parameterNames, r.options.parameters.contains name = true

instance {R : Type} (r : ExecutionRequest R) : Decidable r.BindsAll :=
  inferInstanceAs (Decidable (∀ name ∈ r.circuit.parameterNames, _ = true))

theorem missing_isEmpty_iff {R : Type} (r : ExecutionRequest R) :
    (r.circuit.parameterNames.filter fun name => !r.options.parameters.contains name).isEmpty
      = true ↔ r.BindsAll := by
  rw [List.isEmpty_iff, List.filter_eq_nil_iff]
  simp [BindsAll]

theorem validate_eq {r : ExecutionRequest R} (h : r.ReachesObservables) : r.validate =
    (do
      checkObservables r.circuit r.options.observables
      let missing := r.circuit.parameterNames.filter fun name => !r.options.parameters.contains name
      if missing.isEmpty then return () else throw (.unbound missing)) := by
  unfold validate
  rw [h.options, ok_bind, mapError_eq_ok.2 h.circuit, ok_bind, if_neg h.state]

theorem reachesObservables_of_validate {r : ExecutionRequest R} (h : r.validate = .ok ()) :
    r.ReachesObservables := by
  obtain ⟨_, hoptions, h⟩ := bind_eq_ok.1 h
  obtain ⟨_, hcircuit, h⟩ := bind_eq_ok.1 h
  split at h
  next => cases h
  next hstate => exact ⟨hoptions, mapError_eq_ok.1 hcircuit, hstate⟩

/-- What a valid request has passed. -/
theorem validate_eq_ok {r : ExecutionRequest R} : r.validate = .ok () ↔ r.ReachesObservables ∧
    checkObservables r.circuit r.options.observables = .ok () ∧ r.BindsAll := by
  constructor
  · intro h
    have hreaches := reachesObservables_of_validate h
    rw [validate_eq hreaches] at h
    obtain ⟨_, hobservables, h⟩ := bind_eq_ok.1 h
    dsimp only at h
    split at h
    next hbinds => exact ⟨hreaches, hobservables, r.missing_isEmpty_iff.1 hbinds⟩
    next => cases h
  · rintro ⟨hreaches, hobservables, hbinds⟩
    rw [validate_eq hreaches, hobservables, ok_bind]
    dsimp only
    rw [if_pos (r.missing_isEmpty_iff.2 hbinds)]
    rfl

/-- A request that asks the least of a circuit: one sample, no observable, and a finite value for
every symbol. -/
structure IsProbe (r : ExecutionRequest R) : Prop where
  mode : r.options.mode = .sampled
  shots : r.options.shots = 1
  observables : r.options.observables = []
  finite : ∀ e ∈ r.options.parameters.entries, Scalar.isFinite e.2 = true
  binds : r.BindsAll

theorem IsProbe.options_validate {r : ExecutionRequest R} (h : r.IsProbe) :
    r.options.validate = .ok () := by
  have hfinite : r.options.parameters.entries.find? (fun e => !Scalar.isFinite e.2) = none := by
    rw [List.find?_eq_none]
    intro e he
    simp [h.finite e he]
  unfold RunOptions.validate
  simp [h.shots, h.observables, hfinite]

/-- Nothing but its circuit can be wrong with a probe. -/
theorem IsProbe.validate_eq_ok {r : ExecutionRequest R} (h : r.IsProbe) :
    r.validate = .ok () ↔ r.circuit.validate = .ok () := by
  rw [ExecutionRequest.validate_eq_ok, h.observables]
  constructor
  · intro hvalid
    exact hvalid.1.circuit
  · intro hcircuit
    have hstate : ¬(r.options.mode = .exact ∧ r.circuit.hasMidCircuitMeasurement = true) := by
      simp [h.mode]
    exact ⟨⟨h.options_validate, hcircuit, hstate⟩, rfl, h.binds⟩

theorem IsProbe.validate_eq_error {r : ExecutionRequest R} {cause : CircuitError R}
    (h : r.IsProbe) (hcircuit : r.circuit.validate = .error cause) :
    r.validate = .error (.circuit cause) := by
  unfold validate
  rw [h.options_validate, ok_bind, hcircuit]
  rfl

end ExecutionRequest

theorem SimulatorConfig.maxQubits_le {c : SimulatorConfig} (h : c.validate = .ok ()) :
    c.maxQubits.toNat ≤ 34 := by
  unfold SimulatorConfig.validate at h
  split at h
  next => cases h
  next hrange =>
    rw [not_or, UInt32.not_lt, UInt32.le_iff_toNat_le] at hrange
    exact hrange.2

theorem SimulatorConfig.one_le_maxShots {c : SimulatorConfig} (h : c.validate = .ok ()) :
    1 ≤ c.maxShots := by
  unfold SimulatorConfig.validate at h
  split at h
  next => cases h
  next =>
    split at h
    next => cases h
    next hshots =>
      rw [UInt32.le_iff_toNat_le]
      have hpositive : c.maxShots.toNat ≠ 0 := fun hzero => hshots (UInt32.toNat_inj.1 hzero)
      show 1 ≤ c.maxShots.toNat
      omega

theorem SimulatorConfig.maxRetainedJobs_pos {c : SimulatorConfig} (h : c.validate = .ok ()) :
    0 < c.maxRetainedJobs.toNat := by
  unfold SimulatorConfig.validate at h
  split_ifs at h with _ _ _ hretained
  have hne : c.maxRetainedJobs.toNat ≠ 0 := fun hzero => hretained (UInt64.toNat_inj.1 hzero)
  omega

/-- Every gate that a circuit can name is in the gate set of a simulator. -/
theorem GateKind.supported {R : Type} (kind : GateKind R) :
    GateSet.universal.contains kind.name = true := by
  cases kind with
  | standard g =>
    obtain ⟨symbol, angles⟩ := g
    cases symbol <;> rfl
  | matrix g => rfl

namespace Simulator

/-- What a simulator asks of a request: that it is valid, that its register is no larger than the
settings allow, and a sampled one also that its shots are no more. -/
structure Takes (s : Simulator) (r : ExecutionRequest Float) : Prop where
  valid : r.validate = .ok ()
  width : r.circuit.numQubits ≤ s.config.maxQubits
  shots : r.options.mode = .sampled → r.options.shots ≤ s.config.maxShots

/-- The simulator with a queued job for a batch. -/
def enqueued (s : Simulator) (id : JobId) (now : Timestamp)
    (batch : List (ExecutionRequest Float)) : Simulator :=
  { s with
    table := s.table.submit ((Job.create id batch.length now).withBackend s.name)
    waiting := s.waiting ++ [(id, batch)] }

/-- The only problem that a circuit can have is its width. -/
theorem circuitProblems_eq_nil {s : Simulator} {c : Circuit Float} :
    s.circuitProblems c = [] ↔ c.numQubits ≤ s.config.maxQubits := by
  have hsupported : (c.gates.map (·.name)).filter (fun g => !s.capabilities.gateSet.contains g) =
      [] := by
    rw [List.filter_eq_nil_iff]
    intro name hname
    obtain ⟨g, -, rfl⟩ := List.mem_map.1 hname
    have hgate : s.capabilities.gateSet.contains g.name = true := g.kind.supported
    rw [hgate]
    decide
  unfold circuitProblems
  dsimp only
  rw [hsupported, List.append_eq_nil_iff, ← UInt32.not_lt]
  split
  next hwide => simp [hwide]
  next hfits => simp [hfits]

theorem validate_eq_valid {s : Simulator} {c : Circuit Float} :
    s.validate c = .valid ↔ c.numQubits ≤ s.config.maxQubits := by
  rw [← circuitProblems_eq_nil, ← List.isEmpty_iff]
  unfold validate Validation.ofReasons
  split
  next hempty => simp [hempty]
  next hsome => simp [hsome]

theorem validate_toExcept_eq_ok {s : Simulator} {c : Circuit Float} :
    (s.validate c).toExcept = .ok () ↔ c.numQubits ≤ s.config.maxQubits := by
  rw [← validate_eq_valid]
  cases s.validate c with
  | valid => simp [Validation.toExcept]
  | invalid reasons => simp [Validation.toExcept]

theorem checkRequest_eq_ok {s : Simulator} (index : ℕ) {r : ExecutionRequest Float} :
    s.checkRequest index r = .ok () ↔ s.Takes r := by
  constructor
  · intro h
    obtain ⟨_, hvalid, h⟩ := bind_eq_ok.1 h
    obtain ⟨_, hcircuit, h⟩ := bind_eq_ok.1 h
    split at h
    next => cases h
    next hshots =>
      refine ⟨mapError_eq_ok.1 hvalid, validate_toExcept_eq_ok.1 hcircuit, fun hmode => ?_⟩
      exact UInt32.not_lt.1 fun hmore => hshots ⟨hmode, hmore⟩
  · intro h
    have hshots : ¬(r.options.mode = .sampled ∧ s.config.maxShots < r.options.shots) :=
      fun hmore => UInt32.not_lt.2 (h.shots hmore.1) hmore.2
    unfold checkRequest
    rw [mapError_eq_ok.2 h.valid, ok_bind, validate_toExcept_eq_ok.2 h.width, ok_bind,
      if_neg hshots]
    rfl

theorem checkBatch_eq_ok {s : Simulator} (index : ℕ) {batch : List (ExecutionRequest Float)} :
    s.checkBatch index batch = .ok () ↔ ∀ r ∈ batch, s.Takes r := by
  induction batch generalizing index with
  | nil => simp [checkBatch]
  | cons r batch ih =>
    rw [checkBatch, bind_eq_ok, List.forall_mem_cons, ← checkRequest_eq_ok index,
      ← ih (index + 1)]
    exact ⟨fun ⟨(), h⟩ => h, fun h => ⟨(), h⟩⟩

/-- A batch is accepted exactly if it is not empty and the simulator takes every request of it. -/
theorem submit_eq_ok_iff {s : Simulator} {id : JobId} {now : Timestamp}
    {batch : List (ExecutionRequest Float)} {accepted : JobId × Simulator} :
    s.submit id now batch = .ok accepted ↔
      batch ≠ [] ∧ (∀ r ∈ batch, s.Takes r) ∧ accepted = (id, s.enqueued id now batch) := by
  unfold submit
  rw [← checkBatch_eq_ok 0]
  split
  next hempty => simp [List.isEmpty_iff.1 hempty, throw_eq]
  next hsome =>
    rw [List.isEmpty_iff] at hsome
    cases s.checkBatch 0 batch with
    | error e => simp
    | ok _ => simp [hsome, pure_eq, enqueued, eq_comm]

/-- An accepted batch holds valid requests on registers within the limit. -/
theorem submit_eq_ok {s : Simulator} {id : JobId} {now : Timestamp}
    {batch : List (ExecutionRequest Float)} {accepted : JobId × Simulator}
    (h : s.submit id now batch = .ok accepted) :
    ∀ r ∈ batch, r.validate = .ok () ∧ r.circuit.numQubits.toNat ≤ s.config.maxQubits.toNat := by
  intro r hr
  have htakes := (submit_eq_ok_iff.1 h).2.1 r hr
  exact ⟨htakes.valid, UInt32.le_iff_toNat_le.1 htakes.width⟩

theorem submit_eq_error {s : Simulator} {id : JobId} {now : Timestamp}
    {batch : List (ExecutionRequest Float)} {r : ExecutionRequest Float} (hr : r ∈ batch)
    (h : ¬s.Takes r) : ∃ e, s.submit id now batch = .error e := by
  cases hsubmit : s.submit id now batch with
  | error e => exact ⟨e, rfl⟩
  | ok accepted => exact absurd ((submit_eq_ok_iff.1 hsubmit).2.1 r hr) h

/-- The first check of a request is that it is valid, and its error is that of the batch. -/
theorem submit_of_invalid {s : Simulator} {id : JobId} {now : Timestamp}
    {r : ExecutionRequest Float} {batch : List (ExecutionRequest Float)} {e : RequestError Float}
    (h : r.validate = .error e) : s.submit id now (r :: batch) = .error e.toBackendError := by
  unfold submit checkBatch checkRequest
  rw [h]
  rfl

theorem takes_of_isProbe {s : Simulator} (hconfig : s.config.validate = .ok ())
    {r : ExecutionRequest Float} (hprobe : r.IsProbe) :
    s.Takes r ↔ s.validate r.circuit = .valid ∧ r.circuit.validate = .ok () := by
  rw [validate_eq_valid, ← hprobe.validate_eq_ok]
  constructor
  · intro h
    exact ⟨h.width, h.valid⟩
  · rintro ⟨hwidth, hvalid⟩
    refine ⟨hvalid, hwidth, fun _ => ?_⟩
    rw [hprobe.shots]
    exact SimulatorConfig.one_le_maxShots hconfig

/-- Asking a simulator about a circuit against submitting it. A circuit that the simulator calls
invalid is refused in every batch and under all options. For one that it calls valid the answer to
a probe is the check of the circuit itself: it is accepted exactly if every instruction fits the
registers, and otherwise refused with the error of that check. -/
theorem submit_eq_of_validate {s : Simulator} (hconfig : s.config.validate = .ok ())
    (c : Circuit Float) :
    (s.validate c = .valid ↔ c.numQubits ≤ s.config.maxQubits) ∧
    (s.validate c = .valid → ∀ r : ExecutionRequest Float, r.circuit = c → r.IsProbe →
      ∀ id now, s.submit id now [r] =
        (c.validate.mapError BackendError.ofCircuitError).map fun _ =>
          (id, s.enqueued id now [r])) ∧
    (∀ reasons, s.validate c = .invalid reasons →
      ∀ batch : List (ExecutionRequest Float), (∃ r ∈ batch, r.circuit = c) →
        ∀ id now, ∃ e, s.submit id now batch = .error e) := by
  refine ⟨validate_eq_valid, ?_, ?_⟩
  · rintro hanswer r rfl hprobe id now
    cases hcircuit : r.circuit.validate with
    | error cause => exact submit_of_invalid (hprobe.validate_eq_error hcircuit)
    | ok _ =>
      have htakes := (takes_of_isProbe hconfig hprobe).2 ⟨hanswer, hcircuit⟩
      show s.submit id now [r] = .ok (id, s.enqueued id now [r])
      simp [submit_eq_ok_iff, htakes]
  · rintro reasons hanswer batch ⟨r, hr, rfl⟩ id now
    have hrefused : ¬s.Takes r := by
      intro htakes
      rw [validate_eq_valid.2 htakes.width] at hanswer
      cases hanswer
    exact submit_eq_error hr hrefused

/-- A default simulator calls a circuit valid whose only gate is outside the register, and refuses
it. -/
theorem submit_eq_of_validate_misplaced :
    let c : Circuit Float := ⟨"part", 1, 0, [.standard (.plain .x) [⟨5⟩]]⟩
    let s := Simulator.default true
    s.config.validate = .ok () ∧ s.validate c = .valid ∧
      ∀ id now, s.submit id now [⟨c, .sampled 1⟩] =
        .error (.ofCircuitError (.qubitNotFound ⟨5⟩ 1 (some "x"))) := by
  intro c s
  have hconfig : s.config.validate = .ok () := rfl
  obtain ⟨hvalid, hprobe, -⟩ := submit_eq_of_validate hconfig c
  have hanswer : s.validate c = .valid := hvalid.2 (by decide)
  have hnames : c.parameterNames = [] := by decide +kernel
  have hleast : ExecutionRequest.IsProbe ⟨c, .sampled 1⟩ :=
    ⟨rfl, rfl, rfl, by simp [RunOptions.sampled, Dict.empty], by
      simp [ExecutionRequest.BindsAll, hnames]⟩
  exact ⟨hconfig, hanswer, fun id now => hprobe hanswer _ rfl hleast id now⟩

end Simulator

end QuantumSim
