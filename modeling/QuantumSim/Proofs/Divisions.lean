import Mathlib
import QuantumSim.Proofs.DividedWork
import QuantumSim.Proofs.SampledReadout

/-!
Runs on machines that divide their work in different ways. A machine enters a run through the norms
that are checked and through the distribution that shots are drawn from, and nowhere else. Hence a
request comes to the same on two machines that divide these reductions alike, or not at all because
the register is small; and over exact numbers on any two machines.
-/
namespace QuantumSim

/-- Outcomes of two computations: the same failure, or results that `P` relates. -/
def Agree {ε α β : Type} (P : α → β → Prop) : Except ε α → Except ε β → Prop
  | .ok a, .ok b => P a b
  | .error e, .error e' => e = e'
  | _, _ => False

/-- Sampled runs that agree and leave the random source in the same state. -/
def AgreeRun {R G α β : Type} (P : α → β → Prop) (x : Sampling R G α) (y : Sampling R G β) : Prop :=
  ∀ g, Agree P (x.run g).1 (y.run g).1 ∧ (x.run g).2 = (y.run g).2

section Logic

variable {ε R G α β γ δ : Type} {P : α → β → Prop} {Q : γ → δ → Prop}

theorem Agree.error_or_ok {x : Except ε α} {y : Except ε β} (h : Agree P x y) :
    (∃ e, x = .error e ∧ y = .error e) ∨ ∃ a b, x = .ok a ∧ y = .ok b ∧ P a b := by
  cases x with
  | error e =>
    cases y with
    | error e' => exact .inl ⟨e, rfl, congrArg Except.error (Eq.symm h)⟩
    | ok b => cases h
  | ok a =>
    cases y with
    | error e' => cases h
    | ok b => exact .inr ⟨a, b, rfl, rfl, h⟩

theorem Agree.bind {x : Except ε α} {y : Except ε β} {f : α → Except ε γ} {g : β → Except ε δ}
    (h : Agree P x y) (hf : ∀ a b, P a b → Agree Q (f a) (g b)) : Agree Q (x >>= f) (y >>= g) := by
  obtain ⟨e, rfl, rfl⟩ | ⟨a, b, rfl, rfl, hab⟩ := h.error_or_ok
  · rfl
  · exact hf a b hab

/-- Both computations begin alike. -/
theorem agree_bind (x : Except ε α) {f : α → Except ε γ} {g : α → Except ε δ}
    (hf : ∀ a, x = .ok a → Agree Q (f a) (g a)) : Agree Q (x >>= f) (x >>= g) := by
  cases x with
  | error e => rfl
  | ok a => exact hf a rfl

theorem Agree.eq {x y : Except ε α} (h : Agree Eq x y) : x = y := by
  obtain ⟨e, rfl, rfl⟩ | ⟨a, b, rfl, rfl, rfl⟩ := h.error_or_ok
  · rfl
  · rfl

theorem Agree.bind_eq {x : Except ε α} {y : Except ε β} {f : α → Except ε γ} {g : β → Except ε γ}
    (h : Agree P x y) (hf : ∀ a b, P a b → f a = g b) : x >>= f = y >>= g := by
  obtain ⟨e, rfl, rfl⟩ | ⟨a, b, rfl, rfl, hab⟩ := h.error_or_ok
  · rfl
  · exact hf a b hab

theorem agree_foldlM {f : α → γ → Except ε α} {g : β → γ → Except ε β} {l : List γ}
    (hstep : ∀ a b, P a b → ∀ c ∈ l, Agree P (f a c) (g b c)) {a : α} {b : β} (h : P a b) :
    Agree P (l.foldlM f a) (l.foldlM g b) := by
  induction l generalizing a b with
  | nil => exact h
  | cons c l ih =>
    rw [List.foldlM_cons, List.foldlM_cons]
    exact (hstep a b h c (by simp)).bind fun a b h =>
      ih (fun a b h d hd => hstep a b h d (by simp [hd])) h

theorem AgreeRun.bind {x : Sampling R G α} {y : Sampling R G β} {f : α → Sampling R G γ}
    {k : β → Sampling R G δ} (h : AgreeRun P x y) (hf : ∀ a b, P a b → AgreeRun Q (f a) (k b)) :
    AgreeRun Q (x >>= f) (y >>= k) := by
  intro g
  obtain ⟨hfirst, hsource⟩ := h g
  obtain ⟨e, hx, hy⟩ | ⟨a, b, hx, hy, hab⟩ := hfirst.error_or_ok
  · have hfail : y.run g = (.error e, (x.run g).2) := Prod.ext hy hsource.symm
    rw [run_bind_of_error (Prod.ext hx rfl), run_bind_of_error hfail]
    exact ⟨rfl, rfl⟩
  · have hrun : y.run g = (.ok b, (x.run g).2) := Prod.ext hy hsource.symm
    rw [run_bind_of_ok (Prod.ext hx rfl), run_bind_of_ok hrun]
    exact hf a b hab _

/-- Both runs begin alike. -/
theorem agreeRun_bind (x : Sampling R G α) {f : α → Sampling R G γ} {k : α → Sampling R G δ}
    (hf : ∀ a, AgreeRun Q (f a) (k a)) : AgreeRun Q (x >>= f) (x >>= k) := by
  have hsame : AgreeRun Eq x x := fun g => ⟨by cases (x.run g).1 <;> rfl, rfl⟩
  apply hsame.bind
  rintro a _ rfl
  exact hf a

theorem agreeRun_pure {a : α} {b : β} (h : P a b) :
    AgreeRun P (pure a : Sampling R G α) (pure b) := fun _ => ⟨h, rfl⟩

theorem agreeRun_lift {x : Except (SimulationError R) α} {y : Except (SimulationError R) β}
    (h : Agree P x y) : AgreeRun P (Sampler.lift x : Sampling R G α) (Sampler.lift y) :=
  fun _ => ⟨h, rfl⟩

theorem agreeRun_foldlM {f : α → γ → Sampling R G α} {k : β → γ → Sampling R G β} {l : List γ}
    (hstep : ∀ a b, P a b → ∀ c ∈ l, AgreeRun P (f a c) (k b c)) {a : α} {b : β} (h : P a b) :
    AgreeRun P (l.foldlM f a) (l.foldlM k b) := by
  induction l generalizing a b with
  | nil => exact agreeRun_pure h
  | cons c l ih =>
    rw [List.foldlM_cons, List.foldlM_cons]
    exact (hstep a b h c (by simp)).bind fun a b h =>
      ih (fun a b h d hd => hstep a b h d (by simp [hd])) h

end Logic

section Machines

variable {R : Type} [Scalar R]

/-- The same state in the hands of another machine. -/
def Statevector.on (s : Statevector R) (m : Machine) : Statevector R := { s with machine := m }

/-- Two machines that nothing computed from a state of this size tells apart. -/
structure Machine.Interchangeable (R : Type) [Scalar R] (size : ℕ) (m m' : Machine) : Prop where
  debugAssertions : m.debugAssertions = m'.debugAssertions
  normSq (s : Statevector R) : s.size = size → (s.on m).normSq = (s.on m').normSq
  marginals (s : Statevector R) (qubits : List Qubit) : s.size = size →
    (s.on m).marginalProbabilities qubits = (s.on m').marginalProbabilities qubits

/-- Machines that divide a reduction over states of this size alike. -/
theorem Machine.interchangeable_of_split_eq {size : ℕ} {m m' : Machine}
    (hbuild : m.debugAssertions = m'.debugAssertions) (hsplit : m.split size = m'.split size) :
    Interchangeable R size m m' where
  debugAssertions := hbuild
  normSq s hs := by
    subst hs
    have hsame : (s.on m).split = (s.on m').split := hsplit
    rw [← Statevector.normSqOver_split, ← Statevector.normSqOver_split, hsame]
    rfl
  marginals s qubits hs := by
    subst hs
    have hsame : (s.on m).split = (s.on m').split := hsplit
    rw [← Statevector.marginalOver_split, ← Statevector.marginalOver_split, hsame]
    rfl

/-- Over exact numbers it does not matter how a machine divides its reductions. -/
theorem Machine.interchangeable_exact {size : ℕ} {m m' : Machine}
    (hbuild : m.debugAssertions = m'.debugAssertions) : Interchangeable ℝ size m m' where
  debugAssertions := hbuild
  normSq s _ := by
    rw [← Statevector.normSq_sequential, ← (s.on m').normSq_sequential]
    rfl
  marginals s qubits _ := by
    rw [← Statevector.marginalProbabilities_sequential,
      ← (s.on m').marginalProbabilities_sequential]
    rfl

end Machines

namespace Kernel

variable {R : Type} [Scalar R]

omit [Scalar R] in
/-- A loop of updates that keep the size of an array keeps it. -/
theorem size_of_foldlM {α : Type} {f : Array (Amplitude R) → α → Checked (Array (Amplitude R))}
    (hstep : ∀ amps a out, f amps a = .ok out → out.size = amps.size) {l : List α}
    {amps out : Array (Amplitude R)} (h : l.foldlM f amps = .ok out) : out.size = amps.size := by
  induction l generalizing amps with
  | nil =>
    cases h
    rfl
  | cons a l ih =>
    rw [List.foldlM_cons] at h
    obtain ⟨next, hfirst, hrest⟩ := bind_eq_ok.1 h
    rw [ih hrest, hstep amps a next hfirst]

theorem size_of_updatePair {m : GateMatrix R 2} {i j : ℕ} {amps out : Array (Amplitude R)}
    (h : updatePair m i j amps = .ok out) : out.size = amps.size := by
  obtain ⟨a, -, h⟩ := bind_eq_ok.1 h
  obtain ⟨b, -, h⟩ := bind_eq_ok.1 h
  cases h
  simp

theorem size_of_updateQuad {m : GateMatrix R 4} {i j k l : ℕ} {amps out : Array (Amplitude R)}
    (h : updateQuad m i j k l amps = .ok out) : out.size = amps.size := by
  obtain ⟨a, -, h⟩ := bind_eq_ok.1 h
  obtain ⟨b, -, h⟩ := bind_eq_ok.1 h
  obtain ⟨c, -, h⟩ := bind_eq_ok.1 h
  obtain ⟨d, -, h⟩ := bind_eq_ok.1 h
  cases h
  simp

theorem size_of_applySingle {m : GateMatrix R 2} {t : ℕ} {ctrl : ControlMask}
    {amps out : Array (Amplitude R)} (h : applySingle m t ctrl amps = .ok out) :
    out.size = amps.size := by
  obtain ⟨stride, -, h⟩ := bind_eq_ok.1 h
  refine size_of_foldlM (fun amps k out hchunk => ?_) h
  refine size_of_foldlM (fun amps j out hpair => ?_) hchunk
  split at hpair
  · exact size_of_updatePair hpair
  · cases hpair
    rfl

theorem size_of_applyDouble {m : GateMatrix R 4} {t0 t1 : ℕ} {ctrl : ControlMask}
    {amps out : Array (Amplitude R)} (h : applyDouble m t0 t1 ctrl amps = .ok out) :
    out.size = amps.size := by
  obtain ⟨m0, -, h⟩ := bind_eq_ok.1 h
  obtain ⟨m1, -, h⟩ := bind_eq_ok.1 h
  refine size_of_foldlM (fun amps k out hchunk => ?_) h
  refine size_of_foldlM (fun amps j out hquad => ?_) hchunk
  split at hquad
  · exact size_of_updateQuad hquad
  · cases hquad
    rfl

theorem size_of_applyDiagonal {zero one : Amplitude R} {t : ℕ} {ctrl : ControlMask}
    {amps out : Array (Amplitude R)} (h : applyDiagonal zero one t ctrl amps = .ok out) :
    out.size = amps.size := by
  obtain ⟨mask, -, h⟩ := bind_eq_ok.1 h
  rw [← List.foldlM_pure] at h
  refine size_of_foldlM (fun amps i out hphase => ?_) h
  cases hphase
  unfold phaseAt
  split
  · exact Array.size_modify ..
  · rfl

end Kernel

namespace Statevector

variable {R G : Type} [Scalar R] [RandomSource G] {size : ℕ} {m m' : Machine} {s t : Statevector R}

/-- One state of the given size in the hands of two machines. -/
inductive Twin (size : ℕ) (m m' : Machine) : Statevector R → Statevector R → Prop
  | intro (u : Statevector R) (hsize : u.size = size) : Twin size m m' (u.on m) (u.on m')

omit [Scalar R] [RandomSource G] in
/-- Its amplitudes are replaced by as many others. -/
theorem agree_amplitudes {u : Statevector R} (hu : u.size = size)
    {amps : Checked (Array (Amplitude R))}
    (hsize : ∀ out, amps = .ok out → out.size = u.amplitudes.size) :
    Agree (Twin size m m')
      (do return { u.on m with amplitudes := ← (SimulationError.ofChecked amps :
        Except (SimulationError R) (Array (Amplitude R))) })
      (do return { u.on m' with amplitudes := ← SimulationError.ofChecked amps }) :=
  agree_bind _ fun out hout =>
    .intro { u with amplitudes := out }
      ((hsize out (SimulationError.ofChecked_eq_ok.1 hout)).trans hu)

/-- A gate does not look at the machine. -/
theorem agree_applyLowered (h : Twin size m m' s t) (lowered : LoweredGate R) (gate : Gate R)
    (operands : List Qubit) : Agree (Twin size m m') (s.applyLowered lowered gate operands)
      (t.applyLowered lowered gate operands) := by
  obtain ⟨u, hu⟩ := h
  obtain ⟨operator, controls⟩ := lowered
  unfold applyLowered
  refine agree_bind (u.controlMask gate.name (operands.take controls) gate.controls)
    fun ctrl _ => ?_
  dsimp only
  generalize operands.drop controls = targets
  cases operator with
  | diagonal zero one =>
    match targets with
    | [q] =>
      exact agree_bind (u.position gate.name q) fun k _ =>
        agree_amplitudes hu fun out => Kernel.size_of_applyDiagonal
    | [] | _ :: _ :: _ => rfl
  | single mat =>
    match targets with
    | [q] =>
      exact agree_bind (u.position gate.name q) fun k _ =>
        agree_amplitudes hu fun out => Kernel.size_of_applySingle
    | [] | _ :: _ :: _ => rfl
  | double mat =>
    match targets with
    | [q, q'] =>
      exact agree_bind (u.position gate.name q) fun k _ =>
        agree_bind (u.position gate.name q') fun k' _ =>
          agree_amplitudes hu fun out => Kernel.size_of_applyDouble
    | [] | [_] | _ :: _ :: _ :: _ => rfl

theorem agree_clear (h : Twin size m m' s t) (q : ℕ) (outcome : Bool) :
    Agree (Twin size m m') (s.clear q outcome) (t.clear q outcome) := by
  cases outcome with
  | false => exact h
  | true =>
    obtain ⟨u, hu⟩ := h
    exact agree_amplitudes hu fun out => Kernel.size_of_applySingle

/-- Nor does a measurement. -/
theorem agreeRun_measure (h : Twin size m m' s t) (q : ℕ) :
    AgreeRun (fun e e' => e.1 = e'.1 ∧ Twin size m m' e.2 e'.2)
      (s.measure q : Sampling R G (Bool × Statevector R)) (t.measure q) := by
  obtain ⟨u, hu⟩ := h
  refine agreeRun_bind (Sampler.lift (u.outcomes q)) fun (mask, p0, p1) => ?_
  refine agreeRun_bind (modifyGet (RandomSource.draw R)) fun draw => ?_
  refine agreeRun_lift (G := G) ?_
  unfold project
  dsimp only
  generalize (if Scalar.lt draw p1 = true then p1 else p0) = p
  split
  · rfl
  · exact ⟨rfl, .intro (u.collapse mask _ p) (by simpa [Statevector.size, collapse] using hu)⟩

theorem agreeRun_reset (h : Twin size m m' s t) (q : ℕ) :
    AgreeRun (Twin size m m') (s.reset q : Sampling R G (Statevector R)) (t.reset q) := by
  apply (agreeRun_measure h q).bind
  rintro ⟨outcome, s⟩ ⟨_, t⟩ ⟨rfl, h⟩
  exact agreeRun_lift (agree_clear h q outcome)

/-- A check of the norm fails on both machines, or on none. -/
theorem Twin.checkNorm_eq (h : Twin size m m' s t) (hm : Machine.Interchangeable R size m m')
    (context : NormContext) : s.checkNorm context = t.checkNorm context := by
  obtain ⟨u, hu⟩ := h
  unfold checkNorm
  rw [hm.normSq u hu]

theorem Twin.assertNorm_eq (h : Twin size m m' s t) (hm : Machine.Interchangeable R size m m')
    (context : NormContext) : s.assertNorm context = t.assertNorm context := by
  have hcheck := h.checkNorm_eq hm context
  obtain ⟨u, hu⟩ := h
  have hbuild : (u.on m).machine.debugAssertions = (u.on m').machine.debugAssertions :=
    hm.debugAssertions
  unfold assertNorm
  rw [hcheck, hbuild]

theorem agree_applyChecked (h : Twin size m m' s t) (hm : Machine.Interchangeable R size m m')
    (lowered : LoweredGate R) (gate : Gate R) (qubits : List Qubit) :
    Agree (Twin size m m') (s.applyChecked lowered gate qubits)
      (t.applyChecked lowered gate qubits) := by
  apply (agree_applyLowered h lowered gate qubits).bind
  intro s t h
  rw [h.assertNorm_eq hm]
  exact agree_bind _ fun _ _ => h

theorem agree_evolve (h : Twin size m m' s t) (hm : Machine.Interchangeable R size m m')
    (steps : List (Step R)) : Agree (Twin size m m') (s.evolve steps) (t.evolve steps) := by
  refine agree_foldlM (fun s t h step _ => ?_) h
  cases step with
  | gate lowered gate qubits => exact agree_applyChecked h hm lowered gate qubits
  | measure pairs => exact h
  | reset q => exact h

end Statevector

namespace Sampler

variable {R G : Type} [Scalar R] [RandomSource G] {size : ℕ} {m m' : Machine}

/-- One trajectory on two machines. -/
structure Trajectory.Twin (size : ℕ) (m m' : Machine) (t t' : Trajectory R) : Prop where
  state : t.state.Twin size m m' t'.state
  bits : t.bits = t'.bits

theorem agreeRun_measurePairs {t t' : Trajectory R} (h : t.Twin size m m' t')
    (pairs : List (Qubit × Clbit)) : AgreeRun (Trajectory.Twin size m m')
      (measurePairs t pairs : Sampling R G (Trajectory R)) (measurePairs t' pairs) := by
  refine agreeRun_foldlM (fun t t' h pair _ => ?_) h
  apply (Statevector.agreeRun_measure h.state pair.1.index).bind
  rintro ⟨outcome, s⟩ ⟨_, s'⟩ ⟨rfl, hs⟩
  rw [h.bits]
  exact agreeRun_bind _ fun bits => agreeRun_pure ⟨hs, rfl⟩

theorem agreeRun_playStep {t t' : Trajectory R} (h : t.Twin size m m' t')
    (hm : Machine.Interchangeable R size m m') (step : Step R) :
    AgreeRun (Trajectory.Twin size m m') (playStep t step : Sampling R G (Trajectory R))
      (playStep t' step) := by
  cases step with
  | gate lowered gate qubits =>
    exact (agreeRun_lift (Statevector.agree_applyChecked h.state hm lowered gate qubits)).bind
      fun s s' hs => agreeRun_pure ⟨hs, h.bits⟩
  | measure pairs => exact agreeRun_measurePairs h pairs
  | reset q =>
    exact (Statevector.agreeRun_reset h.state q.index).bind
      fun s s' hs => agreeRun_pure ⟨hs, h.bits⟩

theorem agreeRun_playShots (c : Circuit R) {base base' : Statevector R}
    (h : base.Twin size m m' base') (hm : Machine.Interchangeable R size m m')
    (steps : List (Step R)) (shots shot : ℕ) (counts : Counts) :
    AgreeRun Eq (playShots c base steps shots shot counts : Sampling R G Counts)
      (playShots c base' steps shots shot counts) := by
  induction shots generalizing shot counts with
  | zero => exact agreeRun_pure rfl
  | succ shots ih =>
    have hshot : AgreeRun Eq (playShot c base steps shot : Sampling R G String)
        (playShot c base' steps shot) := by
      have hfirst : Trajectory.Twin size m m' ⟨base, .replicate c.numClbits.toNat false⟩
          ⟨base', .replicate c.numClbits.toNat false⟩ := ⟨h, rfl⟩
      refine (agreeRun_foldlM (fun t t' h step _ => agreeRun_playStep h hm step) hfirst).bind
        fun t t' h => ?_
      rw [h.state.checkNorm_eq hm, h.bits]
      exact agreeRun_bind _ fun _ => agreeRun_pure rfl
    apply hshot.bind
    rintro bits _ rfl
    exact ih (shot + 1) _

variable (c : Circuit R) (steps : List (Step R)) (shots : ℕ)

/-- The first state of a run has an amplitude for every index of the register. -/
theorem agree_zero (n : ℕ) : Agree (Statevector.Twin (2 ^ n) m m')
    (SimulationError.ofChecked (Statevector.zero n m) : Except (SimulationError R) (Statevector R))
    (SimulationError.ofChecked (Statevector.zero n m')) := by
  unfold Statevector.zero bitMask
  split
  · refine .intro ⟨n, (Array.replicate (1 <<< n) Amplitude.zero).setIfInBounds 0 .one, m⟩ ?_
    simp [Statevector.size, Nat.one_shiftLeft]
  · rfl

theorem agree_finalState (hm : Machine.Interchangeable R (2 ^ c.numQubits.toNat) m m') :
    Agree (Statevector.Twin (2 ^ c.numQubits.toNat) m m') (finalState c steps m)
      (finalState c steps m') := by
  apply (agree_zero c.numQubits.toNat).bind
  intro s t h
  apply (Statevector.agree_evolve h hm steps).bind
  intro s t h
  rw [h.checkNorm_eq hm]
  exact agree_bind _ fun _ _ => h

theorem agreeRun_sampleFinalState
    (hm : Machine.Interchangeable R (2 ^ c.numQubits.toNat) m m') :
    AgreeRun Eq (sampleFinalState c steps m shots : Sampling R G Counts)
      (sampleFinalState c steps m' shots) := by
  apply (agreeRun_lift (agree_finalState c steps hm)).bind
  rintro _ _ ⟨u, hu⟩
  dsimp only
  rw [hm.marginals u _ hu]
  exact agreeRun_bind _ fun marginal => agreeRun_bind _ fun dist =>
    agreeRun_bind _ fun histogram => agreeRun_lift (by cases histogramCounts .. <;> rfl)

theorem agreeRun_sampleTrajectories
    (hm : Machine.Interchangeable R (2 ^ c.numQubits.toNat) m m') :
    AgreeRun Eq (sampleTrajectories c steps m shots : Sampling R G Counts)
      (sampleTrajectories c steps m' shots) := by
  apply (agreeRun_lift (agree_zero c.numQubits.toNat)).bind
  intro s t h
  apply (agreeRun_lift (Statevector.agree_evolve h hm _)).bind
  intro base base' h
  exact agreeRun_playShots c h hm _ shots 0 .empty

/-- Counts are the same on interchangeable machines. -/
theorem agreeRun_sample (hm : Machine.Interchangeable R (2 ^ c.numQubits.toNat) m m') :
    AgreeRun Eq (sample c steps m shots : Sampling R G (Counts × String))
      (sample c steps m' shots) := by
  unfold sample
  split
  · apply (agreeRun_sampleTrajectories c steps shots hm).bind
    rintro counts _ rfl
    exact agreeRun_pure rfl
  · apply (agreeRun_sampleFinalState c steps shots hm).bind
    rintro counts _ rfl
    exact agreeRun_pure rfl

end Sampler

namespace Engine

variable {R : Type} [Scalar R] {e : Engine} {r : ExecutionRequest R} {given given' : Conditions}

omit [Scalar R] in
/-- Two runs of a request whose reductions are divided alike, or not at all because the register is
small. -/
def DividesAlike (e : Engine) (r : ExecutionRequest R) (given given' : Conditions) : Prop :=
  2 ^ r.circuit.numQubits.toNat < e.parallelThreshold.toNat ∨
    given.divide (2 ^ r.circuit.numQubits.toNat) = given'.divide (2 ^ r.circuit.numQubits.toNat)

omit [Scalar R] in
theorem DividesAlike.split_eq (h : e.DividesAlike r given given') :
    (e.machine given).split (2 ^ r.circuit.numQubits.toNat) =
      (e.machine given').split (2 ^ r.circuit.numQubits.toNat) := by
  unfold Machine.split
  dsimp only [machine]
  rcases h with hsmall | hsame
  · rw [if_neg (Nat.not_le.2 hsmall), if_neg (Nat.not_le.2 hsmall)]
  · rw [hsame]

/-- What a run comes to depends on its conditions through its seed and its machine. -/
theorem execute_eq_of_interchangeable
    (hseed : r.options.mode = .sampled →
      e.seedFor r given.entropy = e.seedFor r given'.entropy)
    (hm : Machine.Interchangeable R (2 ^ r.circuit.numQubits.toNat) (e.machine given)
      (e.machine given')) (index : ℕ) : e.execute index r given = e.execute index r given' := by
  rw [← r.boundCircuit_numQubits] at hm
  refine bind_congr fun steps => ?_
  cases hmode : r.options.mode with
  | exact =>
    apply (Sampler.agree_finalState r.boundCircuit steps hm).bind_eq
    rintro _ _ ⟨u, -⟩
    rfl
  | sampled =>
    dsimp only
    unfold runSampled
    have hcounts := (Sampler.agreeRun_sample r.boundCircuit steps r.options.shots.toNat hm
      (Random.Stream.ofSeed (e.seedFor r given'.entropy))).1.eq
    rw [hseed hmode]
    dsimp only
    rw [hcounts]

/-- Runs of a request with the same seed come to the same if their reductions are divided alike. -/
theorem DividesAlike.execute_eq (h : e.DividesAlike r given given')
    (hseed : r.options.mode = .sampled →
      e.seedFor r given.entropy = e.seedFor r given'.entropy) (index : ℕ) :
    e.execute index r given = e.execute index r given' :=
  execute_eq_of_interchangeable hseed (Machine.interchangeable_of_split_eq rfl h.split_eq) index

/-- Over exact numbers runs of a request with the same seed come to the same, however their
reductions are divided. -/
theorem execute_eq_exact {r : ExecutionRequest ℝ}
    (hseed : r.options.mode = .sampled →
      e.seedFor r given.entropy = e.seedFor r given'.entropy) (index : ℕ) :
    e.execute index r given = e.execute index r given' :=
  execute_eq_of_interchangeable hseed (Machine.interchangeable_exact rfl) index

end Engine

end QuantumSim
