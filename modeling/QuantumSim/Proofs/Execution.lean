import Mathlib
import QuantumSim.Proofs.Acceptance
import QuantumSim.Proofs.Binding
import QuantumSim.Proofs.CircuitDepth
import QuantumSim.Proofs.Robustness

/-!
Execution of accepted requests. Submission checks a request once and the engine trusts it: what was
accepted lowers, runs and is read out with every operand, index and shift in range.
-/
namespace QuantumSim

section Lowering

variable {R : Type} [Scalar R]

theorem Parameter.resolve_eq_error {bindings : Bindings R} {p : Parameter R}
    (hbound : p.isSymbolic = false) {e : ParameterError R} (h : p.resolve bindings = .error e) :
    e = .notFinite p := by
  cases p with
  | value v =>
    unfold resolve at h
    dsimp only at h
    split at h
    next => cases h
    next => exact (Except.error.inj h).symm
  | symbol name scale shift => cases hbound

theorem GateKind.robust_lower {g : Gate R} (hbound : ∀ p ∈ g.parameters, p.isSymbolic = false) :
    Robust g.kind.lower fun _ => True := by
  rcases g with ⟨kind, controls, label⟩
  cases kind with
  | standard s =>
    simp only [GateKind.lower]
    cases hs : s.resolve (Parameter.resolve .empty) with
    | ok resolved => trivial
    | error e =>
      have hangles : s.parameters.mapM (Parameter.resolve .empty) = .error e := by
        rw [← StandardGate.parameters_resolve, hs]
        rfl
      obtain ⟨p, hp, hfail⟩ := exists_eq_error_of_mapM hangles
      rw [Parameter.resolve_eq_error (hbound p hp) hfail]
      trivial
  | matrix m =>
    simp only [GateKind.lower]
    cases m.lower with
    | ok lowered => trivial
    | error e => trivial

namespace Circuit

theorem robust_compile {c : Circuit R} (hbound : c.IsBound) : Robust c.compile fun _ => True := by
  refine Robust.bind (P := fun _ => True) (robust_of_error fun e he => ?_) fun _ _ => trivial
  obtain ⟨inst, hinst, hfail⟩ := exists_eq_error_of_mapM he
  unfold Step.ofInstruction at hfail
  split at hfail
  next g hop =>
    have hgate : g ∈ c.gates :=
      List.mem_filterMap.2 ⟨inst, hinst, by rw [Instruction.gate?, hop]⟩
    rcases bind_eq_error.1 hfail with hlower | ⟨lowered, -, hfail⟩
    · exact (GateKind.robust_lower (hbound g hgate)).isNumeric hlower
    · cases hfail
  all_goals cases hfail

end Circuit

end Lowering

namespace Engine

variable {R : Type} [Scalar R]

/-- The failure of an observable of the request that has no value in the final state. -/
def StopsAtObservable (e : Engine) (r : ExecutionRequest R) (given : Conditions)
    (cause : SimulationError R) : Prop :=
  ∃ steps s fault, r.boundCircuit.compile = .ok steps ∧
    Sampler.finalState r.boundCircuit steps (e.machine given) = .ok s ∧
    (∃ o ∈ r.options.observables, s.expectation o = .error fault) ∧ cause = .fault fault

/-- A request that ends with a result or for a numeric reason, observables aside. -/
def RunsSoundly (e : Engine) (index : ℕ) (r : ExecutionRequest R) (given : Conditions) : Prop :=
  match e.execute index r given with
  | .ok _ => True
  | .error cause => cause.IsNumeric ∨ e.StopsAtObservable r given cause

theorem runsSoundly_iff {e : Engine} {index : ℕ} {r : ExecutionRequest R} {given : Conditions} :
    e.RunsSoundly index r given ↔ ∀ cause, e.execute index r given = .error cause →
      cause.IsNumeric ∨ e.StopsAtObservable r given cause := by
  unfold RunsSoundly
  cases e.execute index r given with
  | ok result => simp
  | error cause => simp

/-- A valid request whose symbols all have values runs soundly. -/
theorem runsSoundly_of_valid {r : ExecutionRequest R} (hvalid : r.circuit.validate = .ok ())
    (hbound : r.BindsAll) (hwidth : r.circuit.numQubits.toNat < 64) (e : Engine) (index : ℕ)
    (given : Conditions) : e.RunsSoundly index r given := by
  have hvalid' := ExecutionRequest.validate_boundCircuit hvalid
  have hwidth' : r.boundCircuit.numQubits.toNat < 64 := r.boundCircuit_numQubits ▸ hwidth
  rw [runsSoundly_iff]
  intro cause h
  rcases bind_eq_error.1 h with hcompile | ⟨steps, hcompile, h⟩
  · exact .inl ((Circuit.robust_compile (ExecutionRequest.isBound_boundCircuit hbound)).isNumeric
      hcompile)
  have hfits := Circuit.compile_fits hvalid' hcompile
  split at h
  next hexact =>
    rcases bind_eq_error.1 h with hfinal | ⟨s, hfinal, h⟩
    · exact .inl ((Sampler.robust_finalState hwidth' hfits (e.machine given)).isNumeric hfinal)
    rcases bind_eq_error.1 h with hvalues | ⟨values, hvalues, h⟩
    · right
      obtain ⟨o, ho, hfail⟩ := exists_eq_error_of_mapM hvalues
      cases hvalue : s.expectation o with
      | ok value =>
        rw [hvalue] at hfail
        cases hfail
      | error fault =>
        rw [hvalue] at hfail
        exact ⟨steps, s, fault, hcompile, hfinal, ⟨o, ho, hvalue⟩, (Except.error.inj hfail).symm⟩
    · obtain ⟨depth, hdepth⟩ := Circuit.exists_depth_eq_ok hvalid'
      rw [hdepth] at h
      cases h
  next hsampled =>
    rcases bind_eq_error.1 h with hsample | ⟨counts, hsample, h⟩
    · exact .inl ((Sampler.robustRun_sample hwidth' hcompile hfits _ _ _).isNumeric hsample)
    · cases h

end Engine

/-- Whatever a simulator with valid settings accepts, from wherever its circuits come, runs soundly:
no operand, classical bit, number of operands or symbol is found wrong, and no index or shift leaves
its range. -/
theorem Simulator.runsSoundly_of_submit {s : Simulator} (hconfig : s.config.validate = .ok ())
    {id : JobId} {now : Timestamp} {batch : List (ExecutionRequest Float)}
    {accepted : JobId × Simulator} (hsubmit : s.submit id now batch = .ok accepted) :
    ∀ r ∈ batch, ∀ index given, s.engine.RunsSoundly index r given := by
  intro r hr index given
  obtain ⟨hrequest, hlimit⟩ := submit_eq_ok hsubmit r hr
  obtain ⟨hreaches, -, hbound⟩ := ExecutionRequest.validate_eq_ok.1 hrequest
  have hmax := SimulatorConfig.maxQubits_le hconfig
  exact Engine.runsSoundly_of_valid hreaches.circuit hbound (by omega) s.engine index given

/-- A qubit used again after a reset, and an exact request, in one batch. -/
theorem Simulator.runsSoundly_of_submit_reused :
    let reused : Circuit Float := ⟨"reused", 1, 2, [.standard (.plain .h) [⟨0⟩],
      .measure [⟨0⟩] [⟨1⟩], .reset ⟨0⟩, .measure [⟨0⟩] [⟨0⟩]]⟩
    let flipped : Circuit Float := ⟨"flipped", 2, 0, [.standard (.plain .x) [⟨1⟩]]⟩
    let batch : List (ExecutionRequest Float) := [⟨reused, .sampled 10⟩, ⟨flipped, .exact⟩]
    let s := default true
    s.config.validate = .ok () ∧ (∃ accepted, s.submit ⟨"a"⟩ 0 batch = .ok accepted) ∧
      ∀ r ∈ batch, ∀ given, s.engine.RunsSoundly 0 r given := by
  intro reused flipped batch s
  have hconfig : s.config.validate = .ok () := rfl
  have hreused : (⟨reused, .sampled 10⟩ : ExecutionRequest Float).validate = .ok () :=
    ExecutionRequest.validate_eq_ok.2 ⟨⟨rfl, rfl, by decide⟩, rfl, by decide +kernel⟩
  have hflipped : (⟨flipped, .exact⟩ : ExecutionRequest Float).validate = .ok () :=
    ExecutionRequest.validate_eq_ok.2 ⟨⟨rfl, rfl, by decide⟩, rfl, by decide +kernel⟩
  have hbatch : s.checkBatch 0 batch = .ok () := by
    refine bind_eq_ok.2 ⟨(), bind_eq_ok.2 ⟨(), mapError_eq_ok.2 hreused, rfl⟩, ?_⟩
    exact bind_eq_ok.2 ⟨(), bind_eq_ok.2 ⟨(), mapError_eq_ok.2 hflipped, rfl⟩, rfl⟩
  have hsubmit : ∃ accepted, s.submit ⟨"a"⟩ 0 batch = .ok accepted :=
    ⟨_, bind_eq_ok.2 ⟨(), hbatch, rfl⟩⟩
  obtain ⟨accepted, haccepted⟩ := hsubmit
  exact ⟨hconfig, ⟨accepted, haccepted⟩,
    fun r hr given => runsSoundly_of_submit hconfig haccepted r hr 0 given⟩

end QuantumSim
