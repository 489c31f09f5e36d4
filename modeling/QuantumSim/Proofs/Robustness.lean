import Mathlib
import QuantumSim.Proofs.Compilation
import QuantumSim.Proofs.Distinct
import QuantumSim.Proofs.Readout

/-!
Runs that fail for numeric reasons only. On a register whose steps fit it, gates, measurements,
resets and readouts never leave the range of an array or a word and never find an operand wrong;
what is left are norms and probabilities that are off.
-/
namespace QuantumSim

/-- A failure that is due to the numbers of a run: a matrix that is not unitary, a norm or a
probability that is off, weights that give no distribution, or an angle that is not finite. -/
def SimulationError.IsNumeric {R : Type} : SimulationError R → Prop
  | nonUnitary _ | normViolation .. | inconsistentMeasurement .. | sampling _ => True
  | circuit (.parameter (.notFinite _)) => True
  | _ => False

/-- A computation that ends in `P` or fails for a numeric reason. -/
def Robust {R α : Type} (x : Except (SimulationError R) α) (P : α → Prop) : Prop :=
  match x with
  | .ok a => P a
  | .error e => e.IsNumeric

/-- A sampled run that is robust from every state of its random source. -/
def RobustRun {R G α : Type} (x : Sampling R G α) (P : α → Prop) : Prop :=
  ∀ g, Robust (x.run g).1 P

section Logic

variable {R G α β : Type} {P Q : α → Prop} {T : β → Prop}

theorem Robust.mono {x : Except (SimulationError R) α} (hx : Robust x P) (h : ∀ a, P a → Q a) :
    Robust x Q := by
  cases x with
  | error e => exact hx
  | ok a => exact h a hx

theorem Robust.bind {x : Except (SimulationError R) α} {f : α → Except (SimulationError R) β}
    (hx : Robust x P) (hf : ∀ a, P a → Robust (f a) T) : Robust (x >>= f) T := by
  cases x with
  | error e => exact hx
  | ok a => exact hf a hx

theorem Robust.of_eq_ok {x : Except (SimulationError R) α} (hx : Robust x P) {a : α}
    (h : x = .ok a) : P a := by
  subst h
  exact hx

theorem Robust.isNumeric {x : Except (SimulationError R) α} (hx : Robust x P)
    {e : SimulationError R} (he : x = .error e) : e.IsNumeric := by
  subst he
  exact hx

theorem robust_of_error {x : Except (SimulationError R) α}
    (h : ∀ e, x = .error e → e.IsNumeric) : Robust x fun _ => True := by
  cases x with
  | error e => exact h e rfl
  | ok a => trivial

theorem robust_ofChecked {x : Checked α} {a : α} (hx : x = .ok a) (ha : P a) :
    Robust (SimulationError.ofChecked x : Except (SimulationError R) α) P := by
  subst hx
  exact ha

theorem robust_foldlM {f : α → β → Except (SimulationError R) α} {l : List β}
    (hstep : ∀ a, P a → ∀ b ∈ l, Robust (f a b) P) {a : α} (ha : P a) :
    Robust (l.foldlM f a) P := by
  induction l generalizing a with
  | nil => exact ha
  | cons b l ih =>
    rw [List.foldlM_cons]
    exact (hstep a ha b (by simp)).bind fun a ha =>
      ih (fun a ha c hc => hstep a ha c (by simp [hc])) ha

theorem RobustRun.mono {x : Sampling R G α} (hx : RobustRun x P) (h : ∀ a, P a → Q a) :
    RobustRun x Q :=
  fun g => (hx g).mono h

theorem robustRun_pure {a : α} (ha : P a) : RobustRun (pure a : Sampling R G α) P := fun _ => ha

theorem RobustRun.bind {x : Sampling R G α} {f : α → Sampling R G β} (hx : RobustRun x P)
    (hf : ∀ a, P a → RobustRun (f a) T) : RobustRun (x >>= f) T := by
  intro g
  have hfirst := hx g
  have hrun : (x >>= f).run g = match x.run g with
      | (.ok a, g) => (f a).run g
      | (.error e, g) => (.error e, g) := by
    show ExceptT.bindCont f (x.run g).1 (x.run g).2 = _
    rcases x.run g with ⟨a | e, g'⟩ <;> rfl
  rw [hrun]
  cases hxg : x.run g with
  | mk result g' =>
    rw [hxg] at hfirst
    cases result with
    | error e => exact hfirst
    | ok a => exact hf a hfirst g'

theorem robustRun_lift {e : Except (SimulationError R) α} (he : Robust e P) :
    RobustRun (Sampler.lift e : Sampling R G α) P := fun _ => he

theorem robustRun_foldlM {f : α → β → Sampling R G α} {l : List β}
    (hstep : ∀ a, P a → ∀ b ∈ l, RobustRun (f a b) P) {a : α} (ha : P a) :
    RobustRun (l.foldlM f a) P := by
  induction l generalizing a with
  | nil => exact robustRun_pure ha
  | cons b l ih =>
    rw [List.foldlM_cons]
    exact (hstep a ha b (by simp)).bind fun a ha =>
      ih (fun a ha c hc => hstep a ha c (by simp [hc])) ha

end Logic

namespace Statevector

variable {R : Type} [Scalar R]

/-- A register of the given width. -/
structure HasWidth (s : Statevector R) (n : ℕ) : Prop where
  register : s.IsRegister
  width : s.numQubits = n

omit [Scalar R] in
theorem HasWidth.size_eq {s : Statevector R} {n : ℕ} (hs : s.HasWidth n) :
    s.amplitudes.size = 2 ^ n :=
  hs.width ▸ hs.register.size

theorem exists_zero_hasWidth {n : ℕ} (hn : n < 64) (machine : Machine) :
    ∃ s : Statevector R, zero n machine = .ok s ∧ s.HasWidth n :=
  ⟨_, by rw [zero, bitMask_eq hn]; rfl, ⟨hn, by simp⟩, rfl⟩

theorem robust_checkNorm (s : Statevector R) (context : NormContext) :
    Robust (s.checkNorm context) fun _ => True := by
  unfold checkNorm
  dsimp only
  split <;> trivial

theorem robust_assertNorm (s : Statevector R) (context : NormContext) :
    Robust (s.assertNorm context) fun _ => True := by
  unfold assertNorm
  split
  · exact s.robust_checkNorm context
  · trivial

theorem robust_applyChecked {s : Statevector R} {n m : ℕ} (hs : s.HasWidth n)
    {lowered : LoweredGate R} {g : Gate R} {qubits : List Qubit}
    (hfits : (Step.gate lowered g qubits).Fits n m) :
    Robust (s.applyChecked lowered g qubits) (HasWidth · n) := by
  have haccepts : lowered.Accepts s.numQubits g qubits := hs.width ▸ hfits
  unfold applyChecked
  rw [applyLowered_eq hs.register haccepts, ok_bind]
  refine (robust_assertNorm _ _).bind fun _ _ => ?_
  exact ⟨⟨hs.register.width, (Kernel.size_transform _ _).trans hs.register.size⟩, hs.width⟩

theorem robust_evolve {s : Statevector R} {n m : ℕ} (hs : s.HasWidth n) {steps : List (Step R)}
    (hfits : ∀ step ∈ steps, step.Fits n m) : Robust (s.evolve steps) (HasWidth · n) := by
  refine robust_foldlM (fun s hs step hstep => ?_) hs
  cases step with
  | gate lowered g qubits => exact robust_applyChecked hs (hfits _ hstep)
  | measure pairs => exact hs
  | reset q => exact hs

theorem robust_outcomes {s : Statevector R} {n : ℕ} (hs : s.HasWidth n) {q : ℕ} (hq : q < n) :
    Robust (s.outcomes q) fun _ => True := by
  have hq64 : q < 64 := hq.trans (hs.width ▸ hs.register.width)
  unfold outcomes
  rw [bitMask_eq hq64]
  refine (robust_ofChecked (P := fun _ => True) rfl trivial).bind fun mask _ => ?_
  dsimp only
  split <;> trivial

theorem robust_project {s : Statevector R} {n : ℕ} (hs : s.HasWidth n) (q mask : ℕ)
    (p0 p1 draw : R) :
    Robust (s.project q mask p0 p1 draw) (fun e => HasWidth e.2 n) := by
  unfold project
  dsimp only
  generalize (if Scalar.lt draw p1 = true then p1 else p0) = p
  split
  · trivial
  · exact ⟨⟨hs.register.width, by simpa [collapse] using hs.register.size⟩, hs.width⟩

theorem robust_clear {s : Statevector R} {n : ℕ} (hs : s.HasWidth n) {q : ℕ} (hq : q < n)
    (outcome : Bool) : Robust (s.clear q outcome) (HasWidth · n) := by
  cases outcome with
  | false => exact hs
  | true =>
    have hflip := Kernel.applySingle_eq (GateMatrix.x : GateMatrix R 2) (hs.width ▸ hq)
      hs.register.width {} hs.register.size
    show Robust (s.flip q) _
    unfold flip
    rw [hflip]
    exact ⟨⟨hs.register.width, (Kernel.size_transform _ _).trans hs.register.size⟩, hs.width⟩

variable {G : Type} [RandomSource G]

theorem robustRun_measure {s : Statevector R} {n : ℕ} (hs : s.HasWidth n) {q : ℕ} (hq : q < n) :
    RobustRun (s.measure q : Sampling R G (Bool × Statevector R)) (fun e => HasWidth e.2 n) := by
  refine (robustRun_lift (robust_outcomes hs hq)).bind fun (mask, p0, p1) _ => ?_
  have hdraw : RobustRun (modifyGet (RandomSource.draw R) : Sampling R G R) fun _ => True :=
    fun _ => trivial
  exact hdraw.bind fun draw _ => robustRun_lift (robust_project hs q mask p0 p1 draw)

theorem robustRun_reset {s : Statevector R} {n : ℕ} (hs : s.HasWidth n) {q : ℕ} (hq : q < n) :
    RobustRun (s.reset q : Sampling R G (Statevector R)) (HasWidth · n) :=
  (robustRun_measure hs hq).bind fun e he => robustRun_lift (robust_clear he hq e.1)

end Statevector

namespace Sampler

section Readout

variable {R : Type} {c : Circuit R}

/-- Every pair that is read out names a qubit and a place in the text. -/
theorem readoutMap_inRange
    (h : ∀ pair ∈ c.measurementMap,
      pair.1.index < c.numQubits.toNat ∧ pair.2.index < c.numClbits.toNat) :
    ∀ pair ∈ (readoutMap c).1,
      pair.1.index < c.numQubits.toNat ∧ pair.2.index < (readoutMap c).2 := by
  intro pair hpair
  unfold readoutMap at hpair ⊢
  dsimp only at hpair ⊢
  split at hpair
  next hempty =>
    obtain ⟨q, hq, rfl⟩ := List.mem_map.1 hpair
    have hlt := Qubit.index_lt_of_mem_range hq
    rw [if_pos hempty]
    exact ⟨hlt, hlt⟩
  next hempty =>
    rw [if_neg hempty]
    exact h pair hpair

theorem exists_readoutText_eq_ok {map : List (Qubit × Clbit)} {width outcome : ℕ}
    (hlen : (Circuit.distinctQubits (map.map (·.1))).length ≤ 64)
    (hbits : ∀ pair ∈ map, pair.2.index < width)
    (houtcome : outcome < 2 ^ (Circuit.distinctQubits (map.map (·.1))).length) :
    ∃ text, readoutText map (Circuit.distinctQubits (map.map (·.1))) width outcome = .ok text := by
  have hnodup := (Circuit.nodup_distinctQubits (map.map (·.1))).map Qubit.index_injective
  have hread := readoutText_eq_ok hlen
    (fun pair hpair => Circuit.mem_distinctQubits.2 (List.mem_map_of_mem hpair)) hbits
    (BasisIndex.replaceBits ((Circuit.distinctQubits (map.map (·.1))).map Qubit.index) outcome 0)
  rw [BasisIndex.localIndex_replaceBits hnodup (by simpa using houtcome)] at hread
  exact ⟨_, hread⟩

theorem exists_histogramCounts_eq_ok {map : List (Qubit × Clbit)} {width : ℕ}
    (hlen : (Circuit.distinctQubits (map.map (·.1))).length ≤ 64)
    (hbits : ∀ pair ∈ map, pair.2.index < width) {histogram : List (UInt64 × ℕ)}
    (hentries : ∀ e ∈ histogram, e.2 < 2 ^ (Circuit.distinctQubits (map.map (·.1))).length) :
    ∃ counts, histogramCounts map (Circuit.distinctQubits (map.map (·.1))) width histogram =
      .ok counts := by
  unfold histogramCounts
  refine (exists_foldlM_eq_ok (fun _ => True) (fun counts _ entry hentry => ?_) trivial).imp
    fun _ h => h.1
  split
  · exact ⟨counts, rfl, trivial⟩
  · obtain ⟨text, htext⟩ := exists_readoutText_eq_ok hlen hbits (hentries entry hentry)
    exact ⟨_, bind_eq_ok.2 ⟨text, htext, rfl⟩, trivial⟩

/-- The measured qubits of a readout are at most as many as the register has. -/
theorem length_measured_le
    (h : ∀ pair ∈ c.measurementMap,
      pair.1.index < c.numQubits.toNat ∧ pair.2.index < c.numClbits.toNat) :
    (∀ q ∈ Circuit.distinctQubits ((readoutMap c).1.map (·.1)), q.index < c.numQubits.toNat) ∧
      (Circuit.distinctQubits ((readoutMap c).1.map (·.1))).length ≤ c.numQubits.toNat := by
  have hlt : ∀ q ∈ (readoutMap c).1.map (·.1), q.index < c.numQubits.toNat := by
    intro q hq
    obtain ⟨pair, hpair, rfl⟩ := List.mem_map.1 hq
    exact (readoutMap_inRange h pair hpair).1
  exact ⟨fun q hq => hlt q (Circuit.mem_distinctQubits.1 hq), Circuit.length_distinctQubits_le hlt⟩

end Readout

variable {R G : Type} [Scalar R] [RandomSource G]

/-- A trajectory on registers of the given sizes. -/
structure Trajectory.HasWidth (t : Trajectory R) (n m : ℕ) : Prop where
  state : t.state.HasWidth n
  bits : t.bits.size = m

theorem robustRun_playStep {t : Trajectory R} {n m : ℕ} (ht : t.HasWidth n m) {step : Step R}
    (hstep : step.Fits n m) :
    RobustRun (playStep t step : Sampling R G (Trajectory R)) (Trajectory.HasWidth · n m) := by
  cases step with
  | gate lowered g qubits =>
    refine (robustRun_lift (Statevector.robust_applyChecked ht.state hstep)).bind fun s hs => ?_
    exact robustRun_pure ⟨hs, ht.bits⟩
  | measure pairs =>
    refine robustRun_foldlM (fun t ht pair hpair => ?_) ht
    obtain ⟨hq, hc⟩ := hstep pair hpair
    refine (Statevector.robustRun_measure ht.state hq).bind fun (outcome, s) hs => ?_
    have hwrite := writeBit_eq (ht.bits.symm ▸ hc) outcome
    refine (robustRun_lift (robust_ofChecked (P := fun bits => bits.size = m) hwrite
      (by simpa using ht.bits))).bind fun bits hbits => ?_
    exact robustRun_pure ⟨hs, hbits⟩
  | reset q =>
    refine (Statevector.robustRun_reset ht.state hstep).bind fun s hs => ?_
    exact robustRun_pure ⟨hs, ht.bits⟩

theorem robustRun_playShots (c : Circuit R) {base : Statevector R} {n : ℕ} (hbase : base.HasWidth n)
    {steps : List (Step R)} (hfits : ∀ step ∈ steps, step.Fits n c.numClbits.toNat) (shots shot : ℕ)
    (counts : Counts) :
    RobustRun (playShots c base steps shots shot counts : Sampling R G Counts) fun _ => True := by
  induction shots generalizing shot counts with
  | zero => exact robustRun_pure trivial
  | succ shots ih =>
    have hshot : RobustRun (playShot c base steps shot : Sampling R G String) fun _ => True := by
      refine (robustRun_foldlM (fun t ht step hstep => robustRun_playStep ht (hfits step hstep))
        (P := (Trajectory.HasWidth · n c.numClbits.toNat)) ⟨hbase, by simp⟩).bind fun t _ => ?_
      refine (robustRun_lift (Statevector.robust_checkNorm _ _)).bind fun _ _ => ?_
      exact robustRun_pure trivial
    exact hshot.bind fun bits _ => ih _ _

theorem robust_finalState {c : Circuit R} (hn : c.numQubits.toNat < 64) {steps : List (Step R)}
    {m : ℕ} (hfits : ∀ step ∈ steps, step.Fits c.numQubits.toNat m) (machine : Machine) :
    Robust (finalState c steps machine) (Statevector.HasWidth · c.numQubits.toNat) := by
  obtain ⟨s, hzero, hs⟩ := Statevector.exists_zero_hasWidth (R := R) hn machine
  refine (robust_ofChecked (P := (Statevector.HasWidth · c.numQubits.toNat)) hzero hs).bind
    fun s hs => ?_
  refine (Statevector.robust_evolve hs hfits).bind fun s hs => ?_
  exact (Statevector.robust_checkNorm s _).bind fun _ _ => hs

theorem size_drawOutcomes (dist : WeightedIndex R) (shots : ℕ) (histogram : Array UInt64) (g : G) :
    (drawOutcomes dist shots histogram g).1.size = histogram.size := by
  induction shots generalizing histogram g with
  | zero => rfl
  | succ shots ih =>
    unfold drawOutcomes
    exact (ih _ _).trans (Array.size_modify ..)

theorem robustRun_sampleFinalState {c : Circuit R} (hn : c.numQubits.toNat < 64)
    {steps : List (Step R)} (hcompile : c.compile = .ok steps)
    (hfits : ∀ step ∈ steps, step.Fits c.numQubits.toNat c.numClbits.toNat)
    (machine : Machine) (shots : ℕ) :
    RobustRun (sampleFinalState c steps machine shots : Sampling R G Counts) fun _ => True := by
  have hmap := Step.mem_pairs_fits hfits
  rw [Circuit.compile_pairs hcompile] at hmap
  obtain ⟨hmeasured, hlength⟩ := length_measured_le hmap
  have hinRange := readoutMap_inRange hmap
  have hlen := hlength.trans_lt hn
  refine (robustRun_lift (robust_finalState hn hfits machine)).bind fun s hs => ?_
  obtain ⟨marginal, hmarginal, hsize⟩ :=
    Statevector.exists_marginalProbabilities_eq_ok hs.register hlen
    fun q hq => hs.width.symm ▸ hmeasured q hq
  refine (robustRun_lift (robust_ofChecked (P := fun m => m.size = 2 ^ _) hmarginal hsize)).bind
    fun marginal hsize => ?_
  have hdist : Robust (((WeightedIndex.create marginal.toList).mapError .sampling :
      Except (SimulationError R) (WeightedIndex R))) fun _ => True := by
    cases WeightedIndex.create marginal.toList <;> trivial
  refine (robustRun_lift hdist).bind fun dist _ => ?_
  have hdraw : RobustRun (modifyGet (drawOutcomes dist shots (Array.replicate marginal.size 0)) :
      Sampling R G (Array UInt64)) fun histogram => histogram.size = marginal.size := fun g =>
    (size_drawOutcomes dist shots _ g).trans Array.size_replicate
  refine hdraw.bind fun histogram hhist => robustRun_lift ?_
  have hentries : ∀ entry ∈ histogram.toList.zipIdx,
      entry.2 < 2 ^ (Circuit.distinctQubits ((readoutMap c).1.map (·.1))).length := by
    intro entry hentry
    rw [← hsize, ← hhist]
    simpa using List.snd_lt_of_mem_zipIdx hentry
  obtain ⟨counts, hcounts⟩ := exists_histogramCounts_eq_ok hlen.le
    (fun pair hpair => (hinRange pair hpair).2) hentries
  exact robust_ofChecked hcounts trivial

theorem robustRun_sampleTrajectories {c : Circuit R} (hn : c.numQubits.toNat < 64)
    {steps : List (Step R)} (hfits : ∀ step ∈ steps, step.Fits c.numQubits.toNat c.numClbits.toNat)
    (machine : Machine) (shots : ℕ) :
    RobustRun (sampleTrajectories c steps machine shots : Sampling R G Counts) fun _ => True := by
  obtain ⟨s, hzero, hs⟩ := Statevector.exists_zero_hasWidth (R := R) hn machine
  refine (robustRun_lift (robust_ofChecked (P := (Statevector.HasWidth · c.numQubits.toNat)) hzero
    hs)).bind fun s hs => ?_
  refine (robustRun_lift (Statevector.robust_evolve hs fun step hstep =>
    hfits step (List.takeWhile_subset _ hstep))).bind fun base hbase => ?_
  exact robustRun_playShots c hbase
    (fun step hstep => hfits step (List.dropWhile_subset _ hstep)) _ _ _

/-- Sampling the steps of a circuit whose operands are all in range fails for numeric reasons
only. -/
theorem robustRun_sample {c : Circuit R} (hn : c.numQubits.toNat < 64) {steps : List (Step R)}
    (hcompile : c.compile = .ok steps)
    (hfits : ∀ step ∈ steps, step.Fits c.numQubits.toNat c.numClbits.toNat)
    (machine : Machine) (shots : ℕ) :
    RobustRun (sample c steps machine shots : Sampling R G (Counts × String)) fun _ => True := by
  unfold sample
  split
  · exact (robustRun_sampleTrajectories hn hfits machine shots).bind fun _ _ =>
      robustRun_pure trivial
  · exact (robustRun_sampleFinalState hn hcompile hfits machine shots).bind fun _ _ =>
      robustRun_pure trivial

end Sampler

end QuantumSim
