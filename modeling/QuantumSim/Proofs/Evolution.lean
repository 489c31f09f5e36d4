import Mathlib
import QuantumSim.Proofs.Compilation
import QuantumSim.Proofs.ExactReadout

/-!
Evolution by the gates of a program. Over exact amplitudes with unitary operators a run of steps
keeps the norm, never fails a norm check, and commutes with the projection onto a value of a qubit
that none of its gates touches.
-/
namespace QuantumSim

/-- Every user matrix of the circuit is unitary without rounding. -/
def Circuit.MatricesUnitary (c : Circuit ℝ) : Prop :=
  ∀ inst ∈ c.instructions, ∀ g m lowered, inst.operation = .gate g → g.kind = .matrix m →
    m.lower = .ok lowered → lowered.operator.IsUnitary

namespace Step

/-- A step whose gate, if it is one, has a unitary operator. -/
def IsExact : Step ℝ → Prop
  | gate lowered _ _ => lowered.operator.IsUnitary
  | _ => True

/-- What the gate of a step does to a vector of coefficients. -/
def image : Step ℝ → (ℕ → ℂ) → ℕ → ℂ
  | gate lowered g qubits, v => lowered.image g.controls qubits v
  | _, v => v

/-- A qubit that is no target of any gate among the steps. -/
def Untouched (q : ℕ) (steps : List (Step ℝ)) : Prop :=
  ∀ lowered g qubits, gate lowered g qubits ∈ steps → q ∉ lowered.targets qubits

theorem Deferred.untouched {measured : List Qubit} {steps : List (Step ℝ)}
    (h : Deferred measured steps) {q : Qubit} (hq : q ∈ measured) : Untouched q.index steps := by
  intro lowered g qubits hmem ht
  obtain ⟨t, htmem, heq⟩ := List.mem_map.1 ht
  have heq := Qubit.index_injective heq
  subst heq
  exact h.not_mem hmem t (List.mem_append_left _ (List.mem_of_mem_drop htmem)) hq

/-- The gates of the steps, applied to a vector of coefficients. -/
def evolved (steps : List (Step ℝ)) (v : ℕ → ℂ) : ℕ → ℂ :=
  steps.foldl (fun v step => step.image v) v

theorem evolved_congr {n m : ℕ} {steps : List (Step ℝ)} (hfits : ∀ step ∈ steps, step.Fits n m)
    {v w : ℕ → ℂ} (hvw : ∀ i < 2 ^ n, v i = w i) :
    ∀ i < 2 ^ n, evolved steps v i = evolved steps w i := by
  induction steps generalizing v w with
  | nil => exact hvw
  | cons step steps ih =>
    obtain ⟨hstep, hsteps⟩ := List.forall_mem_cons.1 hfits
    refine ih hsteps fun i hi => ?_
    cases step with
    | gate lowered g qubits => exact LoweredGate.Accepts.image_congr hstep hvw hi
    | measure pairs => exact hvw i hi
    | reset q => exact hvw i hi

theorem mass_evolved {n m : ℕ} {steps : List (Step ℝ)} (hfits : ∀ step ∈ steps, step.Fits n m)
    (hexact : ∀ step ∈ steps, step.IsExact) (v : ℕ → ℂ) : mass n (evolved steps v) = mass n v := by
  induction steps generalizing v with
  | nil => rfl
  | cons step steps ih =>
    obtain ⟨hstep, hsteps⟩ := List.forall_mem_cons.1 hfits
    obtain ⟨hunitary, hunitaries⟩ := List.forall_mem_cons.1 hexact
    apply (ih hsteps hunitaries (step.image v)).trans
    cases step with
    | gate lowered g qubits => exact LoweredGate.Accepts.mass_image hstep hunitary v
    | measure pairs => rfl
    | reset q => rfl

/-- Evolution commutes with the projection onto a value of an untouched qubit, and with scaling. -/
theorem evolved_onBit {q : ℕ} {steps : List (Step ℝ)} (hq : Untouched q steps) (b : Bool) (r : ℂ)
    (v : ℕ → ℂ) : evolved steps (fun i => r * onBit q b v i) =
      fun i => r * onBit q b (evolved steps v) i := by
  induction steps generalizing v with
  | nil => rfl
  | cons step steps ih =>
    have hrest : Untouched q steps := fun lowered g qubits hmem =>
      hq lowered g qubits (List.mem_cons_of_mem _ hmem)
    have hstep : step.image (fun i => r * onBit q b v i) =
        fun i => r * onBit q b (step.image v) i := by
      cases step with
      | gate lowered g qubits =>
        rw [image, LoweredGate.image_smul, LoweredGate.image_onBit (hq lowered g qubits (by simp))]
        rfl
      | measure pairs => rfl
      | reset q => rfl
    show evolved steps (step.image _) = _
    rw [hstep, ih hrest]
    rfl

end Step

/-- The gates of an exactly unitary circuit have unitary operators. -/
theorem Circuit.compile_isExact {c : Circuit ℝ} (hmatrices : c.MatricesUnitary)
    {steps : List (Step ℝ)} (h : c.compile = .ok steps) : ∀ step ∈ steps, step.IsExact := by
  obtain ⟨stepss, hstepss, rfl⟩ := compile_eq_ok h
  intro step hstep
  obtain ⟨inst, hinst, steps, hsteps, hmem⟩ := exists_instruction_of_mem hstepss hstep
  obtain ⟨g, lowered, hop, hlower, rfl⟩ | ⟨-, rfl⟩ | ⟨-, rfl⟩ | ⟨-, rfl⟩ :=
    Step.ofInstruction_eq_ok hsteps
  · rw [List.mem_singleton.1 hmem]
    cases hkind : g.kind with
    | standard s =>
      obtain ⟨resolved, -, rfl⟩ := GateKind.lower_standard_eq_ok.1 (hkind ▸ hlower)
      exact resolved.lower_isUnitary
    | matrix m =>
      exact hmatrices inst hinst g m lowered hop hkind
        (GateKind.lower_matrix_eq_ok.1 (hkind ▸ hlower))
  · rw [List.mem_singleton.1 hmem]
    trivial
  · obtain ⟨q, -, rfl⟩ := List.mem_map.1 hmem
    trivial
  · simp at hmem

namespace Statevector

/-- A register of the given width whose norm is one. -/
structure IsNormal (s : Statevector ℝ) (n : ℕ) : Prop where
  register : s.IsRegister
  width : s.numQubits = n
  norm : mass n s.coefficient = 1

theorem IsNormal.checkNorm {s : Statevector ℝ} {n : ℕ} (h : s.IsNormal n) (context : NormContext) :
    s.checkNorm context = .ok () :=
  checkNorm_eq_ok h.register (h.width ▸ h.norm) context

/-- A state collapsed to a possible outcome has norm one, whatever its norm was. -/
theorem isNormal_collapse {s : Statevector ℝ} (hs : s.IsRegister) {q : ℕ} {outcome : Bool}
    (hp : 0 < mass s.numQubits (onBit q outcome s.coefficient)) :
    (s.collapse (2 ^ q) outcome
      (mass s.numQubits (onBit q outcome s.coefficient))).IsNormal s.numQubits := by
  refine ⟨isRegister_collapse hs _ _ _, rfl, ?_⟩
  rw [funext (coefficient_collapse s q outcome _), mass_smul]
  have hone := mul_normSq_rescaled hp 1
  rw [mul_one, map_one] at hone
  rw [mul_comm, hone]

theorem IsNormal.collapse {s : Statevector ℝ} {n : ℕ} (h : s.IsNormal n) {q : ℕ} {outcome : Bool}
    (hp : 0 < mass n (onBit q outcome s.coefficient)) :
    (s.collapse (2 ^ q) outcome (mass n (onBit q outcome s.coefficient))).IsNormal n := by
  obtain ⟨rfl⟩ := h.width
  exact isNormal_collapse h.register hp

theorem IsNormal.assertNorm {s : Statevector ℝ} {n : ℕ} (h : s.IsNormal n) (context : NormContext) :
    s.assertNorm context = .ok () := by
  unfold Statevector.assertNorm
  rw [h.checkNorm, ite_self]

/-- A gate with a unitary operator takes a normal state to a normal one and passes the norm
check. -/
theorem IsNormal.exists_applyChecked_eq {s : Statevector ℝ} {n m : ℕ} (h : s.IsNormal n)
    {lowered : LoweredGate ℝ} {g : Gate ℝ} {qubits : List Qubit}
    (hfits : (Step.gate lowered g qubits).Fits n m)
    (hexact : (Step.gate lowered g qubits).IsExact) :
    ∃ t, s.applyChecked lowered g qubits = .ok t ∧ t.IsNormal n ∧
      ∀ i < 2 ^ n, t.coefficient i = (Step.gate lowered g qubits).image s.coefficient i := by
  obtain ⟨rfl⟩ := h.width
  have haccepts : lowered.Accepts s.numQubits g qubits := hfits
  obtain ⟨t, happly, hwidth, -, hsize, hcoeff⟩ := exists_applyLowered_eq h.register haccepts
  rw [h.register.size_eq] at hcoeff
  have hnormal : t.IsNormal s.numQubits := by
    refine ⟨⟨hwidth ▸ h.register.width, ?_⟩, hwidth, ?_⟩
    · rw [hwidth, ← h.register.size_eq]
      exact hsize
    · rw [mass_congr hcoeff, haccepts.mass_image hexact, h.norm]
  refine ⟨t, ?_, hnormal, hcoeff⟩
  unfold applyChecked
  rw [happly, ok_bind, hnormal.assertNorm]
  rfl

/-- Steps with unitary operators take a normal state to a normal one, gate by gate. -/
theorem IsNormal.exists_evolve_eq {s : Statevector ℝ} {n m : ℕ} (h : s.IsNormal n)
    {steps : List (Step ℝ)} (hfits : ∀ step ∈ steps, step.Fits n m)
    (hexact : ∀ step ∈ steps, step.IsExact) :
    ∃ t, s.evolve steps = .ok t ∧ t.IsNormal n ∧
      ∀ i < 2 ^ n, t.coefficient i = Step.evolved steps s.coefficient i := by
  induction steps generalizing s with
  | nil => exact ⟨s, rfl, h, fun _ _ => rfl⟩
  | cons step steps ih =>
    obtain ⟨hstep, hsteps⟩ := List.forall_mem_cons.1 hfits
    obtain ⟨hunitary, hunitaries⟩ := List.forall_mem_cons.1 hexact
    obtain ⟨u, happly, hu, hucoeff⟩ : ∃ u, (match step with
        | .gate lowered gate qubits => s.applyChecked lowered gate qubits
        | _ => .ok s) = .ok u ∧ u.IsNormal n ∧
          ∀ i < 2 ^ n, u.coefficient i = step.image s.coefficient i := by
      cases step with
      | gate lowered g qubits => exact h.exists_applyChecked_eq hstep hunitary
      | measure pairs => exact ⟨s, rfl, h, fun _ _ => rfl⟩
      | reset q => exact ⟨s, rfl, h, fun _ _ => rfl⟩
    obtain ⟨t, hevolve, ht, htcoeff⟩ := ih hu hsteps hunitaries
    refine ⟨t, ?_, ht, fun i hi => ?_⟩
    · unfold evolve
      rw [List.foldlM_cons]
      exact bind_eq_ok.2 ⟨u, by cases step <;> exact happly, hevolve⟩
    · rw [htcoeff i hi]
      exact Step.evolved_congr hsteps hucoeff i hi

/-- The state with all qubits zero is normal. -/
theorem exists_zero_eq {n : ℕ} (hn : n < 64) (machine : Machine) :
    ∃ s : Statevector ℝ, zero n machine = .ok s ∧ s.IsNormal n := by
  refine ⟨_, by rw [zero, bitMask_eq hn]; rfl, ⟨hn, by simp⟩, rfl, ?_⟩
  have hcoeff (i : ℕ) (hi : i ∈ Finset.range (2 ^ n)) :
      Complex.normSq (Kernel.valueAt ((Array.replicate (2 ^ n)
        (Amplitude.zero : Amplitude ℝ)).setIfInBounds 0 .one) i).toComplex =
        if i = 0 then 1 else 0 := by
    rw [Kernel.valueAt_setIfInBounds (by simp)]
    split
    · simp
    · simp [Kernel.valueAt, Finset.mem_range.1 hi]
  apply (Finset.sum_congr rfl hcoeff).trans
  simp

end Statevector

end QuantumSim
