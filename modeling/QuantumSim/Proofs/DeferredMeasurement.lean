import Mathlib
import QuantumSim.Proofs.Branching
import QuantumSim.Proofs.Distinct
import QuantumSim.Proofs.Evolution

/-!
Deferred measurement. Where no gate follows a measurement of its qubit, playing a circuit along all
outcomes gives every text of classical bits the weight that reading the final state gives it,
although the final state was never collapsed.
-/
namespace QuantumSim

namespace Sampler

/-- A trajectory in a normal state, with all classical bits present. -/
structure Trajectory.IsNormal (t : Trajectory ℝ) (n m : ℕ) : Prop where
  state : t.state.IsNormal n
  bits : t.bits.size = m

/-- The average of `f` over the classical bits that a trajectory ends with, if its state goes
through the remaining gates first and is read afterwards. -/
noncomputable def deferredAverage (n : ℕ) (f : Array Bool → ℝ) (steps : List (Step ℝ))
    (t : Trajectory ℝ) : ℝ :=
  ∑ i ∈ Finset.range (2 ^ n), Complex.normSq (Step.evolved steps t.state.coefficient i) *
    f (bitsAt (steps.flatMap Step.pairs) i t.bits)

theorem deferredAverage_nil {n m : ℕ} {t : Trajectory ℝ} (ht : t.IsNormal n m)
    (f : Array Bool → ℝ) :
    deferredAverage n f [] t = f t.bits := by
  show ∑ i ∈ Finset.range (2 ^ n), Complex.normSq (t.state.coefficient i) * f t.bits = f t.bits
  rw [← Finset.sum_mul, ← mass, ht.state.norm, one_mul]

/-- What an outcome contributes to the average, on the indices that show it. -/
theorem probability_mul_deferredAverage {n m q : ℕ} {t : Trajectory ℝ} (f : Array Bool → ℝ)
    {steps : List (Step ℝ)} (hfits : ∀ step ∈ steps, step.Fits n m)
    (hexact : ∀ step ∈ steps, step.IsExact) (hq : Step.Untouched q steps) (outcome : Bool)
    (bits : Array Bool) :
    mass n (onBit q outcome t.state.coefficient) * deferredAverage n f steps
        ⟨t.state.collapse (2 ^ q) outcome (mass n (onBit q outcome t.state.coefficient)), bits⟩ =
      ∑ i ∈ Finset.range (2 ^ n), if i.testBit q = outcome then
        Complex.normSq (Step.evolved steps t.state.coefficient i) *
          f (bitsAt (steps.flatMap Step.pairs) i bits) else 0 := by
  set v := t.state.coefficient
  set p := mass n (onBit q outcome v) with hp
  -- the outcome keeps its probability through the gates, which do not touch the qubit
  have hkeep : mass n (onBit q outcome (Step.evolved steps v)) = p := by
    have hpart : Step.evolved steps (onBit q outcome v) =
        onBit q outcome (Step.evolved steps v) := by
      simpa using Step.evolved_onBit hq outcome 1 v
    rw [← hpart, Step.mass_evolved hfits hexact]
  have hscale (i : ℕ) (hi : i ∈ Finset.range (2 ^ n)) :
      p * Complex.normSq (((1 / Real.sqrt p : ℝ) : ℂ) * onBit q outcome (Step.evolved steps v) i) =
        Complex.normSq (onBit q outcome (Step.evolved steps v) i) := by
    have hp0 : 0 ≤ p := mass_nonneg n _
    rcases hp0.eq_or_lt with hzero | hpos
    · have hnone := (Finset.sum_eq_zero_iff_of_nonneg fun _ _ => Complex.normSq_nonneg _).1
        (hkeep.trans hzero.symm) i hi
      rw [hnone, ← hzero, zero_mul]
    · exact mul_normSq_rescaled hpos _
  unfold deferredAverage
  rw [Finset.mul_sum]
  apply Finset.sum_congr rfl
  intro i hi
  have hcoeff : (t.state.collapse (2 ^ q) outcome p).coefficient =
      fun i => ((1 / Real.sqrt p : ℝ) : ℂ) * onBit q outcome v i :=
    funext fun i => Statevector.coefficient_collapse _ _ _ _ i
  rw [hcoeff, Step.evolved_onBit hq, ← mul_assoc, hscale i hi, normSq_onBit]
  split <;> simp

/-- A gate moves a trajectory along without changing the average. -/
theorem averages_gate {n m : ℕ} {t : Trajectory ℝ} (ht : t.IsNormal n m) (f : Array Bool → ℝ)
    {lowered : LoweredGate ℝ} {g : Gate ℝ} {qubits : List Qubit} {rest : List (Step ℝ)}
    (hfits : ∀ step ∈ .gate lowered g qubits :: rest, step.Fits n m)
    (hexact : (Step.gate lowered g qubits).IsExact) :
    Branching.Averages (playStep t (.gate lowered g qubits)) (fun t => Trajectory.IsNormal t n m)
      (deferredAverage n f rest) (deferredAverage n f (.gate lowered g qubits :: rest) t) := by
  obtain ⟨hstep, hrest⟩ := List.forall_mem_cons.1 hfits
  obtain ⟨u, happly, hu, hcoeff⟩ := ht.state.exists_applyChecked_eq hstep hexact
  have hvalue : deferredAverage n f (.gate lowered g qubits :: rest) t =
      deferredAverage n f rest { t with state := u } := by
    apply Finset.sum_congr rfl
    intro i hi
    rw [Step.evolved_congr hrest hcoeff i (Finset.mem_range.1 hi)]
    rfl
  rw [hvalue]
  refine (Branching.averages_lift (P := fun u => u.IsNormal n) happly hu
    fun u => deferredAverage n f rest { t with state := u }).bind fun u hu => ?_
  refine Branching.averages_pure ?_ _
  exact ⟨hu, ht.bits⟩

/-- Measuring one more pair splits the average by the outcome. -/
theorem deferredAverage_measure_cons {n m : ℕ} (t : Trajectory ℝ) (f : Array Bool → ℝ)
    {pair : Qubit × Clbit} {pairs : List (Qubit × Clbit)} {rest : List (Step ℝ)}
    (hfits : ∀ step ∈ .measure pairs :: rest, step.Fits n m)
    (hexact : ∀ step ∈ .measure pairs :: rest, step.IsExact)
    (hq : Step.Untouched pair.1.index (.measure pairs :: rest)) :
    let p (b : Bool) : ℝ := mass n (onBit pair.1.index b t.state.coefficient)
    let next (e : Bool × Statevector ℝ) : ℝ := deferredAverage n f (.measure pairs :: rest)
      ⟨e.2, t.bits.setIfInBounds pair.2.index e.1⟩
    deferredAverage n f (.measure (pair :: pairs) :: rest) t =
      p false * next (false, t.state.collapse (2 ^ pair.1.index) false (p false)) +
        p true * next (true, t.state.collapse (2 ^ pair.1.index) true (p true)) := by
  intro p next
  simp only [next, p]
  rw [probability_mul_deferredAverage f hfits hexact hq false,
    probability_mul_deferredAverage f hfits hexact hq true, ← Finset.sum_add_distrib]
  apply Finset.sum_congr rfl
  intro i _
  have hevolved : Step.evolved (.measure (pair :: pairs) :: rest) t.state.coefficient =
      Step.evolved (.measure pairs :: rest) t.state.coefficient := rfl
  have hbits : bitsAt ((Step.measure (pair :: pairs) :: rest).flatMap Step.pairs) i t.bits =
      bitsAt ((Step.measure pairs :: rest).flatMap Step.pairs) i
        (t.bits.setIfInBounds pair.2.index (i.testBit pair.1.index)) := rfl
  rw [hevolved, hbits]
  cases i.testBit pair.1.index <;> simp

/-- A measured pair moves a trajectory along without changing the average. -/
theorem averages_pair {n m : ℕ} {t : Trajectory ℝ} (ht : t.IsNormal n m) (f : Array Bool → ℝ)
    {pair : Qubit × Clbit} {pairs : List (Qubit × Clbit)} {rest : List (Step ℝ)}
    (hpair : pair.1.index < n ∧ pair.2.index < m)
    (hfits : ∀ step ∈ .measure pairs :: rest, step.Fits n m)
    (hexact : ∀ step ∈ rest, step.IsExact) (hq : Step.Untouched pair.1.index rest) :
    Branching.Averages
      (do
        let (outcome, s) ← Measuring.measure t.state pair.1.index
        let bits ← Measuring.lift (SimulationError.ofChecked (writeBit t.bits pair.2 outcome))
        return ⟨s, bits⟩ : Branching ℝ (Trajectory ℝ))
      (fun t => Trajectory.IsNormal t n m) (deferredAverage n f (.measure pairs :: rest))
      (deferredAverage n f (.measure (pair :: pairs) :: rest) t) := by
  have hexact' : ∀ step ∈ .measure pairs :: rest, step.IsExact := by
    simpa [Step.IsExact] using hexact
  have hq' : Step.Untouched pair.1.index (.measure pairs :: rest) := fun lowered g qubits hmem =>
    hq lowered g qubits (by simpa using hmem)
  have houtcomes := Statevector.outcomes_eq_ok ht.state.register (ht.state.width ▸ ht.state.norm)
    (ht.state.width.symm ▸ hpair.1)
  rw [ht.state.width] at houtcomes
  rw [deferredAverage_measure_cons t f hfits hexact' hq']
  refine (Branching.averages_measure (P := fun e => e.2.IsNormal n) houtcomes (mass_nonneg n _)
    (mass_nonneg n _) ht.state.collapse ht.state.collapse fun e =>
      deferredAverage n f (.measure pairs :: rest)
        ⟨e.2, t.bits.setIfInBounds pair.2.index e.1⟩).bind fun e he => ?_
  have hwrite : SimulationError.ofChecked (writeBit t.bits pair.2 e.1) =
      (.ok (t.bits.setIfInBounds pair.2.index e.1) : Except (SimulationError ℝ) (Array Bool)) := by
    rw [writeBit_eq (ht.bits.symm ▸ hpair.2)]
    rfl
  refine (Branching.averages_lift (P := fun bits => bits.size = m) hwrite (by simpa using ht.bits)
    fun bits => deferredAverage n f (.measure pairs :: rest) ⟨e.2, bits⟩).bind fun bits hbits => ?_
  refine Branching.averages_pure ?_ _
  exact ⟨he, hbits⟩

/-- A step that is no reset moves a trajectory along without changing the average, if no later gate
touches what it measures. -/
theorem averages_playStep {n m : ℕ} {t : Trajectory ℝ} (ht : t.IsNormal n m) (f : Array Bool → ℝ)
    {step : Step ℝ} {rest : List (Step ℝ)} (hfits : ∀ s ∈ step :: rest, s.Fits n m)
    (hexact : ∀ s ∈ step :: rest, s.IsExact) {measured : List Qubit}
    (hdeferred : Step.Deferred measured (step :: rest)) :
    Branching.Averages (playStep t step) (fun t => Trajectory.IsNormal t n m)
      (deferredAverage n f rest) (deferredAverage n f (step :: rest) t) := by
  obtain ⟨hstep, hrest⟩ := List.forall_mem_cons.1 hexact
  cases step with
  | gate lowered g qubits => exact averages_gate ht f hfits hstep
  | measure pairs =>
    obtain ⟨hmeasure, hfits⟩ := List.forall_mem_cons.1 hfits
    have hdeferred : Step.Deferred (pairs.map (·.1) ++ measured) rest := hdeferred
    have huntouched (pair : Qubit × Clbit) (hpair : pair ∈ pairs) :
        Step.Untouched pair.1.index rest :=
      hdeferred.untouched (List.mem_append_left _ (List.mem_map_of_mem hpair))
    -- the pairs that are left take the place of the measurement
    let P (left : List (Qubit × Clbit)) (t : Trajectory ℝ) : Prop := left ⊆ pairs ∧ t.IsNormal n m
    refine (Branching.averages_foldlM P (fun left => deferredAverage n f (.measure left :: rest))
      (fun pair left t ht => ?_) ⟨List.Subset.refl _, ht⟩).mono fun t ht => ⟨ht.2, rfl⟩
    obtain ⟨hpair, hleft⟩ := List.cons_subset.1 ht.1
    have hfits' : ∀ s ∈ .measure left :: rest, s.Fits n m :=
      List.forall_mem_cons.2 ⟨fun e he => hmeasure e (hleft he), hfits⟩
    exact (averages_pair ht.2 f (hmeasure pair hpair) hfits' hrest (huntouched pair hpair)).mono
      fun t ht => ⟨⟨hleft, ht⟩, rfl⟩
  | reset q => exact hdeferred.elim

/-- A whole run of deferred measurements ends with the bits that its final state shows. -/
theorem averages_run {n m : ℕ} {t : Trajectory ℝ} (ht : t.IsNormal n m) (f : Array Bool → ℝ)
    {steps : List (Step ℝ)} (hfits : ∀ s ∈ steps, s.Fits n m) (hexact : ∀ s ∈ steps, s.IsExact)
    {measured : List Qubit} (hdeferred : Step.Deferred measured steps) :
    Branching.Averages (steps.foldlM playStep t) (fun t => Trajectory.IsNormal t n m)
      (fun t => f t.bits) (deferredAverage n f steps t) := by
  let P (rest : List (Step ℝ)) (t : Trajectory ℝ) : Prop := (∀ s ∈ rest, s.Fits n m) ∧
    (∀ s ∈ rest, s.IsExact) ∧ (∃ measured, Step.Deferred measured rest) ∧ t.IsNormal n m
  refine (Branching.averages_foldlM P (deferredAverage n f) (fun step rest t ht => ?_)
    ⟨hfits, hexact, ⟨measured, hdeferred⟩, ht⟩).mono fun t ht =>
      ⟨ht.2.2.2, deferredAverage_nil ht.2.2.2 f⟩
  obtain ⟨hfits, hexact, ⟨measured, hdeferred⟩, ht⟩ := ht
  refine (averages_playStep ht f hfits hexact hdeferred).mono fun t ht => ⟨⟨?_, ?_, ?_, ht⟩, rfl⟩
  · exact (List.forall_mem_cons.1 hfits).2
  · exact (List.forall_mem_cons.1 hexact).2
  · exact hdeferred.tail

/-- Playing a shot from a normal state ends with the texts that the final state shows. -/
theorem averages_playShot {c : Circuit ℝ} {n : ℕ} {base : Statevector ℝ} (hbase : base.IsNormal n)
    (f : String → ℝ) {steps : List (Step ℝ)} (hfits : ∀ s ∈ steps, s.Fits n c.numClbits.toNat)
    (hexact : ∀ s ∈ steps, s.IsExact) (hdeferred : Step.Deferred [] steps) (shot : ℕ) :
    Branching.Averages (playShot c base steps shot) (fun _ => True) f
      (deferredAverage n (fun bits => f (bitText bits)) steps
        ⟨base, Array.replicate c.numClbits.toNat false⟩) := by
  refine (averages_run ⟨hbase, by simp⟩ _ hfits hexact hdeferred).bind fun t ht => ?_
  refine (Branching.averages_lift (P := fun _ => True) (ht.state.checkNorm _) trivial
    fun _ => f (bitText t.bits)).bind fun _ _ => ?_
  exact Branching.averages_pure trivial f

/-- Reading the final state gives the same average: a marginal outcome counts as often as the
indices that read as it. -/
theorem deferredAverage_eq_sum_marginal {c : Circuit ℝ} {s base : Statevector ℝ}
    {steps : List (Step ℝ)}
    (hcoeff : ∀ i < 2 ^ s.numQubits, s.coefficient i = Step.evolved steps base.coefficient i)
    {measured : List Qubit} (hlen : measured.length < 64)
    (hmeasured : ∀ pair ∈ steps.flatMap Step.pairs, pair.1 ∈ measured)
    (hclbits : ∀ pair ∈ steps.flatMap Step.pairs, pair.2.index < c.numClbits.toNat)
    (text : String) :
    deferredAverage s.numQubits (fun bits => if bitText bits = text then 1 else 0) steps
        ⟨base, Array.replicate c.numClbits.toNat false⟩ =
      ∑ k ∈ Finset.range (2 ^ measured.length),
        if readoutText (steps.flatMap Step.pairs) measured c.numClbits.toNat k = .ok text then
          ∑ i ∈ Finset.range (2 ^ s.numQubits), s.share measured k i else 0 := by
  have hread (k : ℕ) :
      (if readoutText (steps.flatMap Step.pairs) measured c.numClbits.toNat k = .ok text
        then ∑ i ∈ Finset.range (2 ^ s.numQubits), s.share measured k i else 0) =
      ∑ i ∈ Finset.range (2 ^ s.numQubits),
        if BasisIndex.localIndex (measured.map Qubit.index) i = k then
          Complex.normSq (s.coefficient i) * (if bitText (bitsAt (steps.flatMap Step.pairs) i
            (Array.replicate c.numClbits.toNat false)) = text then 1 else 0) else 0 := by
    rw [← boole_mul, Finset.mul_sum]
    apply Finset.sum_congr rfl
    intro i _
    unfold Statevector.share
    by_cases h : BasisIndex.localIndex (measured.map Qubit.index) i = k
    · simp only [← h, readoutText_eq_ok hlen.le hmeasured hclbits i, Except.ok.injEq, if_true,
        mul_comm]
    · simp only [if_neg h, mul_zero]
  rw [Finset.sum_congr rfl fun k _ => hread k, Finset.sum_comm, deferredAverage]
  apply Finset.sum_congr rfl
  intro i hi
  have hlt := BasisIndex.localIndex_lt (measured.map Qubit.index) i
  rw [List.length_map] at hlt
  rw [Finset.sum_ite_eq, if_pos (Finset.mem_range.2 hlt), hcoeff i (Finset.mem_range.1 hi)]

/-- The final state of exact steps, with the coefficients that they map the first one to. -/
theorem exists_finalState_eq {c : Circuit ℝ} (hwidth : c.numQubits.toNat < 64)
    {steps : List (Step ℝ)} {m : ℕ} (hfits : ∀ s ∈ steps, s.Fits c.numQubits.toNat m)
    (hexact : ∀ s ∈ steps, s.IsExact) (machine : Machine) :
    ∃ base final, Statevector.zero c.numQubits.toNat machine = .ok base ∧
      base.IsNormal c.numQubits.toNat ∧ finalState c steps machine = .ok final ∧
      final.IsNormal c.numQubits.toNat ∧ ∀ i < 2 ^ c.numQubits.toNat,
        final.coefficient i = Step.evolved steps base.coefficient i := by
  obtain ⟨base, hbase, hnormal⟩ := Statevector.exists_zero_eq hwidth machine
  obtain ⟨final, hevolve, hfinal, hcoeff⟩ := hnormal.exists_evolve_eq hfits hexact
  refine ⟨base, final, hbase, hnormal, ?_, hfinal, hcoeff⟩
  unfold finalState
  rw [hbase]
  refine bind_eq_ok.2 ⟨base, rfl, bind_eq_ok.2 ⟨final, hevolve, ?_⟩⟩
  rw [hfinal.checkNorm]
  rfl

/-- Where the engine samples from one final state, every text of classical bits has the same weight
there as among the trajectories of the circuit: the total weight of the trajectories that end with
the text is the sum of the marginal of the final state over the outcomes that are rendered as it. -/
theorem trajectory_weight_eq_marginal_sum {c : Circuit ℝ} (hvalid : c.validate = .ok ())
    (hwidth : c.numQubits.toNat < 64) (hmid : c.hasMidCircuitMeasurement = false)
    (hmeasured : c.measurementMap ≠ []) (hmatrices : c.MatricesUnitary) {steps : List (Step ℝ)}
    (hcompile : c.compile = .ok steps) (machine : Machine) (shot : ℕ) :
    ∃ base final marginal branches,
      Statevector.zero c.numQubits.toNat machine = .ok base ∧
      (playShot c base steps shot : Branching ℝ String) = .ok branches ∧
      finalState c steps machine = .ok final ∧
      final.marginalProbabilities (Circuit.distinctQubits ((readoutMap c).1.map (·.1))) =
        .ok marginal ∧
      ∀ text, Branching.weight branches text = ∑ k : Fin marginal.size,
        if readoutText (readoutMap c).1 (Circuit.distinctQubits ((readoutMap c).1.map (·.1)))
            (readoutMap c).2 k = .ok text then marginal[k] else 0 := by
  have hmap : readoutMap c = (c.measurementMap, c.numClbits.toNat) := by
    simp [readoutMap, hmeasured]
  rw [hmap]
  have hfits := Circuit.compile_fits hvalid hcompile
  have hexact := Circuit.compile_isExact hmatrices hcompile
  have hdeferred := Circuit.compile_deferred hvalid hcompile hmid
  have hpairs := Circuit.compile_pairs hcompile
  obtain ⟨base, final, hbase, hnormal, hrun, hfinal, hcoeff⟩ :=
    exists_finalState_eq hwidth hfits hexact machine
  have hinrange := Step.mem_pairs_fits hfits
  rw [hpairs] at hinrange
  have hlt : ∀ q ∈ c.measurementMap.map (·.1), q.index < c.numQubits.toNat := by
    intro q hq
    obtain ⟨pair, hpair, rfl⟩ := List.mem_map.1 hq
    exact (hinrange pair hpair).1
  have hlen : (Circuit.distinctQubits (c.measurementMap.map (·.1))).length < 64 :=
    (Circuit.length_distinctQubits_le hlt).trans_lt hwidth
  have hmarginal := Statevector.marginalProbabilities_eq hfinal.register hlen fun q hq =>
    hfinal.width.symm ▸ hlt q (Circuit.mem_distinctQubits.1 hq)
  obtain ⟨branches, hbranches, -⟩ :=
    averages_playShot hnormal (fun _ => 0) hfits hexact hdeferred shot
  refine ⟨base, final, _, branches, hbase, hbranches, hrun, hmarginal, fun text => ?_⟩
  obtain ⟨branches', hbranches', -, hsum⟩ := averages_playShot hnormal
    (fun t => if t = text then 1 else 0) hfits hexact hdeferred shot
  cases hbranches.symm.trans hbranches'
  rw [Branching.weight_eq_average, hsum, ← hfinal.width,
    deferredAverage_eq_sum_marginal (hfinal.width ▸ hcoeff) hlen]
  · rw [hpairs, ← Fin.sum_univ_eq_sum_range fun k =>
      if readoutText c.measurementMap (Circuit.distinctQubits (c.measurementMap.map (·.1)))
        c.numClbits.toNat k = .ok text then _ else _]
    exact Fintype.sum_equiv (finCongr Array.size_ofFn.symm) _ _ fun k => by simp
  · rw [hpairs]
    exact fun pair hpair => Circuit.mem_distinctQubits.2 (List.mem_map_of_mem hpair)
  · rw [hpairs]
    exact fun pair hpair => (hinrange pair hpair).2

/-- One qubit measured twice with a gate on the other in between, and both read into one bit at
last. -/
theorem trajectory_weight_eq_marginal_sum_of_overwritten :
    let c : Circuit ℝ := ⟨"overwritten", 2, 1, [.standard (.plain .h) [⟨0⟩], .measure [⟨0⟩] [⟨0⟩],
      .standard (.plain .x) [⟨1⟩], .measure [⟨0⟩, ⟨1⟩] [⟨0⟩, ⟨0⟩]]⟩
    c.validate = .ok () ∧ c.hasMidCircuitMeasurement = false ∧
      ∃ steps base final marginal branches, c.compile = .ok steps ∧
        Statevector.zero 2 {} = .ok base ∧
        (playShot c base steps 0 : Branching ℝ String) = .ok branches ∧
        finalState c steps {} = .ok final ∧
        final.marginalProbabilities (Circuit.distinctQubits ((readoutMap c).1.map (·.1))) =
          .ok marginal ∧
        ∀ text, Branching.weight branches text = ∑ k : Fin marginal.size,
          if readoutText (readoutMap c).1 (Circuit.distinctQubits ((readoutMap c).1.map (·.1)))
              (readoutMap c).2 k = .ok text then marginal[k] else 0 := by
  intro c
  have hvalid : c.validate = .ok () := rfl
  have hmid : c.hasMidCircuitMeasurement = false := rfl
  have hmeasured : c.measurementMap ≠ [] := List.cons_ne_nil _ _
  have hinsts {P : Instruction ℝ → Prop} (hh : P (.standard (.plain .h) [⟨0⟩]))
      (hm : P (.measure [⟨0⟩] [⟨0⟩])) (hx : P (.standard (.plain .x) [⟨1⟩]))
      (hmm : P (.measure [⟨0⟩, ⟨1⟩] [⟨0⟩, ⟨0⟩])) : ∀ inst ∈ c.instructions, P inst := by
    simpa [c] using ⟨hh, hm, hx, hmm⟩
  have hmatrices : c.MatricesUnitary := by
    refine hinsts ?_ ?_ ?_ ?_
    all_goals
      rintro g m lowered ⟨⟩ hkind
      try cases hkind
  obtain ⟨steps, hcompile⟩ : ∃ steps, c.compile = .ok steps := by
    refine Circuit.exists_compile_eq_ok (hinsts ?_ ?_ ?_ ?_)
    all_goals
      rintro g ⟨⟩
      try exact fun p hp => absurd hp List.not_mem_nil
  obtain ⟨base, final, marginal, branches, h⟩ :=
    trajectory_weight_eq_marginal_sum hvalid (by decide) hmid hmeasured hmatrices hcompile {} 0
  exact ⟨hvalid, hmid, steps, base, final, marginal, branches, hcompile, h⟩

end Sampler

end QuantumSim
