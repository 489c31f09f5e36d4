import Mathlib
import QuantumSim.Proofs.NormPreservation
import QuantumSim.Proofs.Robustness

/-!
Programs as passes. Over any scalar, rounding or not, a run of gates that succeeds leaves what the
passes of its gates make of the amplitudes one after the other. Over exact amplitudes the passes are
the maps of coefficients.
-/
namespace QuantumSim
open BasisIndex

section Passes

variable {R : Type} [Scalar R]

theorem Operator.rowAt_congr {op : Operator R} {targets : List ℕ} {n : ℕ}
    (hlen : targets.length = op.numTargets) (hlt : ∀ t ∈ targets, t < n) {f g : ℕ → Amplitude R}
    (hfg : ∀ j < 2 ^ n, f j = g j) {i : ℕ} (hi : i < 2 ^ n) :
    op.rowAt targets f i = op.rowAt targets g i := by
  cases op with
  | diagonal zero one =>
    obtain ⟨t, rfl⟩ := List.length_eq_one_iff.1 hlen
    rw [rowAt, rowAt, hfg i hi]
  | single m =>
    obtain ⟨t, rfl⟩ := List.length_eq_one_iff.1 hlen
    have hval (b : Bool) : f (withBit i t b) = g (withBit i t b) :=
      hfg _ (withBit_lt b hi (hlt t (by simp)))
    simp only [rowAt, Kernel.singleRow, hval]
  | double m =>
    obtain ⟨t0, t1, rfl⟩ := List.length_eq_two.1 hlen
    have hval (b0 b1 : Bool) :
        f (withBit (withBit i t0 b0) t1 b1) = g (withBit (withBit i t0 b0) t1 b1) :=
      hfg _ (withBit_lt b1 (withBit_lt b0 hi (hlt t0 (by simp))) (hlt t1 (by simp)))
    simp only [rowAt, Kernel.doubleRow, hval]

theorem Statevector.gatePass_congr {lowered : LoweredGate R} {n : ℕ} {gate : Gate R}
    {operands : List Qubit} (h : lowered.Accepts n gate operands) {f g : ℕ → Amplitude R}
    (hfg : ∀ j < 2 ^ n, f j = g j) {i : ℕ} (hi : i < 2 ^ n) :
    gatePass lowered gate operands f i = gatePass lowered gate operands g i := by
  rw [gatePass, gatePass, hfg i hi, Operator.rowAt_congr h.length_targets h.targets_lt hfg hi]

/-- The pass of a gate without extra controls. -/
theorem Statevector.gatePass_ofStandard (lowered : LoweredGate R) (g : StandardGate (Parameter R))
    (operands : List Qubit) (f : ℕ → Amplitude R) (i : ℕ) :
    gatePass lowered (.ofStandard g) operands f i =
      if ∀ q ∈ operands.take lowered.controls, i.testBit q.index then
        lowered.operator.rowAt (lowered.targets operands) f i else f i := by
  simp only [gatePass, Gate.ofStandard, Selected, List.not_mem_nil, false_implies, implies_true,
    and_true]

namespace Step

/-- What a step makes of the amplitudes of a register; only gates change them. -/
def pass : Step R → (ℕ → Amplitude R) → ℕ → Amplitude R
  | gate lowered g qubits, f => Statevector.gatePass lowered g qubits f
  | _, f => f

/-- The passes of a list of steps in order. -/
def passed (steps : List (Step R)) (f : ℕ → Amplitude R) : ℕ → Amplitude R :=
  steps.foldl (fun f step => step.pass f) f

theorem passed_append (steps steps' : List (Step R)) (f : ℕ → Amplitude R) :
    passed (steps ++ steps') f = passed steps' (passed steps f) := List.foldl_append

/-- Steps without a gate leave the amplitudes alone. -/
theorem passed_eq_self {steps : List (Step R)} (h : ∀ step ∈ steps, step.isGate = false)
    (f : ℕ → Amplitude R) : passed steps f = f := by
  induction steps with
  | nil => rfl
  | cons step steps ih =>
    obtain ⟨hstep, hsteps⟩ := List.forall_mem_cons.1 h
    cases step with
    | gate lowered g qubits => cases hstep
    | measure pairs => exact ih hsteps
    | reset q => exact ih hsteps

theorem pass_congr {step : Step R} {n m : ℕ} (h : step.Fits n m) {f g : ℕ → Amplitude R}
    (hfg : ∀ j < 2 ^ n, f j = g j) : ∀ i < 2 ^ n, step.pass f i = step.pass g i := by
  cases step with
  | gate lowered g qubits => exact fun i hi => Statevector.gatePass_congr h hfg hi
  | measure pairs => exact hfg
  | reset q => exact hfg

theorem passed_congr {steps : List (Step R)} {n m : ℕ} (h : ∀ step ∈ steps, step.Fits n m)
    {f g : ℕ → Amplitude R} (hfg : ∀ j < 2 ^ n, f j = g j) :
    ∀ i < 2 ^ n, passed steps f i = passed steps g i := by
  induction steps generalizing f g with
  | nil => exact hfg
  | cons step steps ih =>
    obtain ⟨hstep, hsteps⟩ := List.forall_mem_cons.1 h
    exact ih hsteps (pass_congr hstep hfg)

end Step

namespace Statevector

/-- A checked gate that succeeds leaves the register with its pass. -/
theorem eq_of_applyChecked {s t : Statevector R} {n : ℕ} (hs : s.HasWidth n)
    {lowered : LoweredGate R} {gate : Gate R} {qubits : List Qubit}
    (hfits : lowered.Accepts n gate qubits) (h : s.applyChecked lowered gate qubits = .ok t) :
    t.HasWidth n ∧ ∀ i < 2 ^ n, Kernel.valueAt t.amplitudes i =
      gatePass lowered gate qubits (Kernel.valueAt s.amplitudes) i := by
  have haccepts : lowered.Accepts s.numQubits gate qubits := hs.width ▸ hfits
  obtain ⟨u, happly, h⟩ := bind_eq_ok.1 h
  obtain ⟨-, -, h⟩ := bind_eq_ok.1 h
  cases h
  cases (applyLowered_eq hs.register haccepts).symm.trans happly
  refine ⟨⟨⟨hs.register.width, ?_⟩, hs.width⟩, fun i hi => ?_⟩
  · exact (Kernel.size_transform _ _).trans hs.register.size
  · exact Kernel.valueAt_transform _ (hs.size_eq.symm ▸ hi)

/-- A run of steps that succeeds leaves the register with their passes. -/
theorem eq_of_evolve {s t : Statevector R} {n m : ℕ} (hs : s.HasWidth n) {steps : List (Step R)}
    (hfits : ∀ step ∈ steps, step.Fits n m) (h : s.evolve steps = .ok t) :
    t.HasWidth n ∧ ∀ i < 2 ^ n,
      Kernel.valueAt t.amplitudes i = Step.passed steps (Kernel.valueAt s.amplitudes) i := by
  induction steps generalizing s with
  | nil =>
    cases h
    exact ⟨hs, fun _ _ => rfl⟩
  | cons step steps ih =>
    obtain ⟨hstep, hsteps⟩ := List.forall_mem_cons.1 hfits
    unfold evolve at h
    rw [List.foldlM_cons] at h
    obtain ⟨u, hu, h⟩ := bind_eq_ok.1 h
    have hpass : u.HasWidth n ∧ ∀ i < 2 ^ n,
        Kernel.valueAt u.amplitudes i = step.pass (Kernel.valueAt s.amplitudes) i := by
      cases step with
      | gate lowered g qubits => exact eq_of_applyChecked hs hstep hu
      | measure pairs =>
        cases hu
        exact ⟨hs, fun _ _ => rfl⟩
      | reset q =>
        cases hu
        exact ⟨hs, fun _ _ => rfl⟩
    obtain ⟨ht, hvalues⟩ := ih hpass.1 hsteps h
    exact ⟨ht, fun i hi => (hvalues i hi).trans (Step.passed_congr hsteps hpass.2 i hi)⟩

/-- The amplitudes with all qubits zero. -/
def ground (i : ℕ) : Amplitude R := if i = 0 then .one else .zero

theorem valueAt_of_zero {n : ℕ} {machine : Machine} {s : Statevector R}
    (h : zero n machine = .ok s) : s.HasWidth n ∧ Kernel.valueAt s.amplitudes = ground := by
  have hn := lt_of_zero_eq_ok h
  obtain ⟨s', hs', hwidth⟩ := exists_zero_hasWidth (R := R) hn machine
  cases h.symm.trans hs'
  refine ⟨hwidth, funext fun i => ?_⟩
  rw [zero, bitMask_eq hn] at h
  cases h
  rw [Kernel.valueAt_setIfInBounds (by simp), ground]
  by_cases hi : i < 2 ^ n <;> simp [Kernel.valueAt, hi]

end Statevector

namespace Sampler

theorem evolve_of_finalState {c : Circuit R} {steps : List (Step R)} {machine : Machine}
    {final : Statevector R} (h : finalState c steps machine = .ok final) :
    ∃ base, Statevector.zero c.numQubits.toNat machine = .ok base ∧
      base.evolve steps = .ok final := by
  obtain ⟨base, hbase, h⟩ := bind_eq_ok.1 h
  obtain ⟨reached, hreached, h⟩ := bind_eq_ok.1 h
  obtain ⟨-, -, h⟩ := bind_eq_ok.1 h
  cases h
  exact ⟨base, mapError_eq_ok.1 hbase, hreached⟩

/-- The final state of a circuit has the passes of its steps. -/
theorem eq_of_finalState {c : Circuit R} {steps : List (Step R)} {m : ℕ}
    (hfits : ∀ step ∈ steps, step.Fits c.numQubits.toNat m) {machine : Machine}
    {final : Statevector R} (h : finalState c steps machine = .ok final) :
    final.HasWidth c.numQubits.toNat ∧ ∀ i < 2 ^ c.numQubits.toNat,
      Kernel.valueAt final.amplitudes i = Step.passed steps Statevector.ground i := by
  obtain ⟨base, hbase, hevolve⟩ := evolve_of_finalState h
  obtain ⟨hwidth, hvalues⟩ := Statevector.valueAt_of_zero hbase
  rw [← hvalues]
  exact Statevector.eq_of_evolve hwidth hfits hevolve

end Sampler

end Passes

/-- Over exact amplitudes the passes of steps are their maps of coefficients. -/
theorem Step.toComplex_passed {n m : ℕ} {steps : List (Step ℝ)}
    (hfits : ∀ step ∈ steps, step.Fits n m) (f : ℕ → Amplitude ℝ) :
    (fun i => (passed steps f i).toComplex) = evolved steps fun i => (f i).toComplex := by
  induction steps generalizing f with
  | nil => rfl
  | cons step steps ih =>
    obtain ⟨hstep, hsteps⟩ := List.forall_mem_cons.1 hfits
    have himage : (fun i => (step.pass f i).toComplex) = step.image fun i => (f i).toComplex := by
      cases step with
      | gate lowered g qubits =>
        have haccepts : lowered.Accepts n g qubits := hstep
        funext i
        rw [pass, image, Statevector.gatePass, LoweredGate.image]
        split
        · exact Operator.toComplex_rowAt haccepts.length_targets haccepts.nodup_targets f i
        · rfl
      | measure pairs => rfl
      | reset q => rfl
    exact (ih hsteps (step.pass f)).trans (congrArg (evolved steps) himage)

end QuantumSim
