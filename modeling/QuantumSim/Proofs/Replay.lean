import Mathlib
import QuantumSim.Proofs.SampledExecution

/-!
Replaying exact circuits. A draw lies in the unit interval and the probabilities of the two outcomes
add up to one, so that a measurement never hits an impossible outcome and its state can be rescaled.
Hence every exact circuit has counts, whatever the random source.
-/
namespace QuantumSim

/-- A sampled run that succeeds from every state of its random source and ends in `P`. -/
def Delivers {R G α : Type} (x : Sampling R G α) (P : α → Prop) : Prop :=
  ∀ g, ∃ a g', x.run g = (.ok a, g') ∧ P a

section Logic

variable {R G α β : Type} {P : α → Prop} {Q : β → Prop}

theorem delivers_pure {a : α} (ha : P a) : Delivers (pure a : Sampling R G α) P :=
  fun g => ⟨a, g, rfl, ha⟩

theorem Delivers.bind {x : Sampling R G α} {f : α → Sampling R G β} (hx : Delivers x P)
    (hf : ∀ a, P a → Delivers (f a) Q) : Delivers (x >>= f) Q := by
  intro g
  obtain ⟨a, g₁, hfirst, ha⟩ := hx g
  obtain ⟨b, g₂, hrest, hb⟩ := hf a ha g₁
  exact ⟨b, g₂, (run_bind_of_ok hfirst).trans hrest, hb⟩

theorem delivers_lift {e : Except (SimulationError R) α} {a : α} (he : e = .ok a) (ha : P a) :
    Delivers (Sampler.lift e : Sampling R G α) P :=
  fun g => ⟨a, g, congrArg (·, g) he, ha⟩

theorem delivers_foldlM {f : α → β → Sampling R G α} {l : List β}
    (hstep : ∀ a, P a → ∀ b ∈ l, Delivers (f a b) P) {a : α} (ha : P a) :
    Delivers (l.foldlM f a) P := by
  induction l generalizing a with
  | nil => exact delivers_pure ha
  | cons b l ih =>
    rw [List.foldlM_cons]
    exact (hstep a ha b (by simp)).bind fun a ha =>
      ih (fun a ha c hc => hstep a ha c (by simp [hc])) ha

end Logic

variable {G : Type} [RandomSource G]

namespace Statevector

variable {s : Statevector ℝ} {n q : ℕ}

/-- A draw from the unit interval selects an outcome that is possible. -/
theorem IsNormal.mass_selected_pos (h : s.IsNormal n) (q : ℕ) {draw : ℝ} (h0 : 0 ≤ draw)
    (h1 : draw < 1) : 0 < mass n
      (onBit q (decide (draw < mass n (onBit q true s.coefficient))) s.coefficient) := by
  have hsum := mass_onBit_add n q s.coefficient
  rw [h.norm] at hsum
  by_cases hdraw : draw < mass n (onBit q true s.coefficient)
  · rw [decide_eq_true hdraw]
    linarith
  · rw [decide_eq_false hdraw]
    linarith

/-- A draw that selects a possible outcome delivers it with the collapsed state. -/
theorem project_eq_ok (s : Statevector ℝ) (n q : ℕ) {draw : ℝ} {outcome : Bool}
    (hdraw : decide (draw < mass n (onBit q true s.coefficient)) = outcome)
    (hpos : 0 < mass n (onBit q outcome s.coefficient)) :
    s.project q (2 ^ q) (mass n (onBit q false s.coefficient))
      (mass n (onBit q true s.coefficient)) draw =
        .ok (outcome, s.collapse (2 ^ q) outcome (mass n (onBit q outcome s.coefficient))) := by
  have hselected : (if outcome = true then mass n (onBit q true s.coefficient) else
      mass n (onBit q false s.coefficient)) = mass n (onBit q outcome s.coefficient) := by
    cases outcome <;> rfl
  unfold project
  dsimp only
  rw [Scalar.lt_real, hdraw, hselected, Scalar.le_real, Scalar.zero_real,
    if_neg (by simpa using hpos)]

theorem IsNormal.project_eq (h : s.IsNormal n) (q : ℕ) {draw : ℝ} (h0 : 0 ≤ draw)
    (h1 : draw < 1) {outcome : Bool}
    (hdraw : decide (draw < mass n (onBit q true s.coefficient)) = outcome) :
    s.project q (2 ^ q) (mass n (onBit q false s.coefficient))
      (mass n (onBit q true s.coefficient)) draw =
        .ok (outcome, s.collapse (2 ^ q) outcome (mass n (onBit q outcome s.coefficient))) :=
  s.project_eq_ok n q hdraw (hdraw ▸ h.mass_selected_pos q h0 h1)

theorem IsNormal.exists_project_eq (h : s.IsNormal n) (q : ℕ) {draw : ℝ} (h0 : 0 ≤ draw)
    (h1 : draw < 1) : ∃ e, s.project q (2 ^ q) (mass n (onBit q false s.coefficient))
      (mass n (onBit q true s.coefficient)) draw = .ok e ∧ e.2.IsNormal n :=
  ⟨_, h.project_eq q h0 h1 rfl, h.collapse (h.mass_selected_pos q h0 h1)⟩

theorem IsNormal.delivers_measure (h : s.IsNormal n) (hq : q < n) :
    Delivers (s.measure q : Sampling ℝ G (Bool × Statevector ℝ)) (fun e => e.2.IsNormal n) := by
  have houtcomes := outcomes_eq_ok h.register (h.width ▸ h.norm) (h.width.symm ▸ hq)
  rw [h.width] at houtcomes
  have hdraw : Delivers (modifyGet (RandomSource.draw ℝ) : Sampling ℝ G ℝ)
      fun draw => 0 ≤ draw ∧ draw < 1 := fun g =>
    ⟨_, _, rfl, Scalar.ofUnitWord_nonneg _, Scalar.ofUnitWord_lt_one _⟩
  refine (delivers_lift (P := fun o => o = _) houtcomes rfl).bind ?_
  rintro _ rfl
  refine hdraw.bind fun draw hunit => ?_
  obtain ⟨e, hproject, he⟩ := h.exists_project_eq q hunit.1 hunit.2
  exact delivers_lift hproject he

/-- Flipping a qubit is the application of a gate. -/
theorem IsNormal.exists_flip_eq (h : s.IsNormal n) (hq : q < n) :
    ∃ t, s.flip q = .ok t ∧ t.IsNormal n := by
  have hn : n < 64 := h.width ▸ h.register.width
  have hindex : Qubit.index ⟨q.toUInt32⟩ = q :=
    UInt32.toNat_ofNat_of_lt' (hq.trans (hn.trans (by decide)))
  have hfits : (Step.gate (R := ℝ) ⟨.single .x, 0⟩ (.ofStandard (.plain .x)) [⟨q.toUInt32⟩]).Fits
      n 0 := ⟨rfl, by simp [Gate.ofStandard], by simp [Gate.ofStandard, hindex, hq]⟩
  obtain ⟨t, happly, ht, -⟩ := h.exists_applyChecked_eq hfits
    (Operator.equatorial_isUnitary GateMatrix.toMatrix_x)
  have hflip : s.applyLowered ⟨.single .x, 0⟩ (.ofStandard (.plain .x)) [⟨q.toUInt32⟩] =
      s.flip q := by
    simp [applyLowered, flip, controlMask, position, Gate.ofStandard, hindex, h.width, hq]
  obtain ⟨u, hu, hcheck⟩ := bind_eq_ok.1 happly
  obtain ⟨-, -, hsame⟩ := bind_eq_ok.1 hcheck
  cases hsame
  exact ⟨t, hflip ▸ hu, ht⟩

theorem IsNormal.delivers_reset (h : s.IsNormal n) (hq : q < n) :
    Delivers (s.reset q : Sampling ℝ G (Statevector ℝ)) (IsNormal · n) := by
  refine (h.delivers_measure hq).bind fun e he => ?_
  obtain ⟨outcome, u⟩ := e
  cases outcome with
  | false => exact delivers_lift rfl he
  | true =>
    obtain ⟨t, hflip, ht⟩ := IsNormal.exists_flip_eq he hq
    exact delivers_lift hflip ht

end Statevector

namespace Sampler

theorem delivers_playStep {t : Trajectory ℝ} {n m : ℕ} (ht : t.IsNormal n m) {step : Step ℝ}
    (hfits : step.Fits n m) (hexact : step.IsExact) :
    Delivers (playStep t step : Sampling ℝ G (Trajectory ℝ)) (Trajectory.IsNormal · n m) := by
  cases step with
  | gate lowered g qubits =>
    obtain ⟨s, happly, hs, -⟩ := ht.state.exists_applyChecked_eq hfits hexact
    exact (delivers_lift (P := (Statevector.IsNormal · n)) happly hs).bind fun s hs =>
      delivers_pure ⟨hs, ht.bits⟩
  | measure pairs =>
    refine delivers_foldlM (fun t ht pair hpair => ?_) ht
    obtain ⟨hq, hc⟩ := hfits pair hpair
    refine (ht.state.delivers_measure hq).bind fun (outcome, s) hs => ?_
    have hwrite := SimulationError.ofChecked_eq_ok (R := ℝ).2
      (writeBit_eq (ht.bits.symm ▸ hc) outcome)
    refine (delivers_lift (P := fun bits => bits.size = m) hwrite (by simpa using ht.bits)).bind
      fun bits hbits => ?_
    exact delivers_pure ⟨hs, hbits⟩
  | reset q =>
    exact (ht.state.delivers_reset hfits).bind fun s hs => delivers_pure ⟨hs, ht.bits⟩

theorem delivers_playShots (c : Circuit ℝ) {base : Statevector ℝ} {n : ℕ} (hbase : base.IsNormal n)
    {steps : List (Step ℝ)} (hfits : ∀ step ∈ steps, step.Fits n c.numClbits.toNat)
    (hexact : ∀ step ∈ steps, step.IsExact) (shots shot : ℕ) (counts : Counts) :
    Delivers (playShots c base steps shots shot counts : Sampling ℝ G Counts) fun _ => True := by
  induction shots generalizing shot counts with
  | zero => exact delivers_pure trivial
  | succ shots ih =>
    have hshot : Delivers (playShot c base steps shot : Sampling ℝ G String) fun _ => True := by
      refine (delivers_foldlM (fun t ht step hstep => delivers_playStep ht (hfits step hstep)
        (hexact step hstep)) (P := (Trajectory.IsNormal · n c.numClbits.toNat))
        ⟨hbase, by simp⟩).bind fun t ht => ?_
      refine (delivers_lift (P := fun _ => True) (ht.state.checkNorm _) trivial).bind fun _ _ => ?_
      exact delivers_pure trivial
    exact hshot.bind fun bits _ => ih _ _

/-- An exact circuit has counts, whatever the random source. -/
theorem exists_counts_of_isExact {c : Circuit ℝ} (hvalid : c.validate = .ok ())
    (hexact : c.IsExact) (hwidth : c.numQubits.toNat < 64) {steps : List (Step ℝ)}
    (hcompile : c.compile = .ok steps) (machine : Machine) (shots : ℕ) (g : G) :
    ∃ counts method g', (sample c steps machine shots : Sampling ℝ G (Counts × String)).run g =
      (.ok (counts, method), g') := by
  cases hmid : c.hasMidCircuitMeasurement with
  | false =>
    obtain ⟨counts, g', hrun⟩ :=
      exists_sample_eq_ok hvalid hexact hwidth hmid hcompile machine shots g
    exact ⟨counts, _, g', hrun⟩
  | true =>
    have hfits := Circuit.compile_fits hvalid hcompile
    have hsteps := Circuit.compile_isExact hexact.matricesUnitary hcompile
    obtain ⟨zero, hzero, hnormal⟩ := Statevector.exists_zero_eq hwidth machine
    obtain ⟨base, hevolve, hbase, -⟩ := hnormal.exists_evolve_eq
      (fun step hstep => hfits step (List.takeWhile_subset (·.isGate) hstep))
      (fun step hstep => hsteps step (List.takeWhile_subset (·.isGate) hstep))
    have hplayed : Delivers (sampleTrajectories c steps machine shots : Sampling ℝ G Counts)
        fun _ => True := by
      refine (delivers_lift (P := (· = zero)) (SimulationError.ofChecked_eq_ok.2 hzero) rfl).bind ?_
      rintro _ rfl
      refine (delivers_lift (P := (· = base)) hevolve rfl).bind ?_
      rintro _ rfl
      exact delivers_playShots c hbase
        (fun step hstep => hfits step (List.dropWhile_subset _ hstep))
        (fun step hstep => hsteps step (List.dropWhile_subset _ hstep)) _ _ _
    obtain ⟨counts, g', hrun, -⟩ := hplayed g
    refine ⟨counts, "trajectory", g', ?_⟩
    unfold sample
    rw [hmid]
    exact run_bind_of_ok hrun

end Sampler

/-- An accepted sampled request for an exact circuit of machine size has a result. -/
theorem Engine.exists_execute_eq_ok {r : ExecutionRequest ℝ} (hvalid : r.validate = .ok ())
    (hmode : r.options.mode = .sampled) (hexact : r.boundCircuit.IsExact)
    (hwidth : r.circuit.numQubits.toNat < 64) (e : Engine) (index : ℕ) (given : Conditions) :
    ∃ result, e.execute index r given = .ok result := by
  have hcircuit := ExecutionRequest.validate_boundCircuit
    (ExecutionRequest.reachesObservables_of_validate hvalid).circuit
  obtain ⟨steps, hcompile⟩ := hexact.exists_compile
  obtain ⟨counts, method, g', hrun⟩ := Sampler.exists_counts_of_isExact hcircuit hexact
    (r.boundCircuit_numQubits.symm ▸ hwidth) hcompile (e.machine given) r.options.shots.toNat
    (Random.Stream.ofSeed (e.seedFor r given.entropy))
  obtain ⟨result, hresult⟩ :
      ∃ result, e.runSampled index r.boundCircuit steps r given = .ok result :=
    ⟨_, bind_eq_ok.2 ⟨_, congrArg Prod.fst hrun, rfl⟩⟩
  refine ⟨result, bind_eq_ok.2 ⟨steps, hcompile, ?_⟩⟩
  simp only [hmode]
  exact hresult

end QuantumSim
