import Mathlib
import QuantumSim.Proofs.SampledReadout
import QuantumSim.Proofs.WeightedDraws

/-!
Sampled requests. Executing one ends with the counts of its shots, and over exact amplitudes a
circuit that is drawn from its final state always has counts.
-/
namespace QuantumSim

/-- Whatever an accepted sampled request with a measurement yields, from any random source and by
the engine, reads out every shot: each classical bit is in its place and has the value of the last
qubit that the request measures into it. -/
theorem ExecutionRequest.readsOut_of_sampled {R : Type} [Scalar R] {r : ExecutionRequest R}
    (hvalid : r.validate = .ok ()) (hmode : r.options.mode = .sampled)
    (hmeasured : r.circuit.measurementMap ≠ []) :
    r.boundCircuit.measurementMap = r.circuit.measurementMap ∧
      r.boundCircuit.numClbits = r.circuit.numClbits ∧
      (∀ q, q ∈ r.circuit.measuredQubits ↔ ∃ pair ∈ r.circuit.measurementMap, pair.1 = q) ∧
      r.circuit.measuredQubits.Pairwise (fun a b => a.id < b.id) ∧
      (∀ (G : Type) [RandomSource G] (machine : Machine) (steps : List (Step R)) (g g' : G)
          (counts : Counts) (method : String), r.boundCircuit.compile = .ok steps →
        (Sampler.sample r.boundCircuit steps machine r.options.shots.toNat :
          Sampling R G (Counts × String)).run g = (.ok (counts, method), g') →
        Sampler.ReadsOut r.boundCircuit steps machine r.options.shots.toNat g counts) ∧
      ∀ (e : Engine) (index : ℕ) (given : Conditions) (result : ExecutionResult R),
        e.execute index r given = .ok result →
          ∃ steps counts, r.boundCircuit.compile = .ok steps ∧ result.data = .counts counts ∧
            Sampler.ReadsOut r.boundCircuit steps (e.machine given) r.options.shots.toNat
              (Random.Stream.ofSeed (e.seedFor r given.entropy)) counts := by
  have hcircuit := validate_boundCircuit (reachesObservables_of_validate hvalid).circuit
  have hmap := r.boundCircuit_measurementMap
  have hshots : r.options.shots.toNat < UInt64.size :=
    r.options.shots.toNat_lt.trans (by decide)
  have hread {G : Type} [RandomSource G] {machine : Machine} {steps : List (Step R)} {g g' : G}
      {counts : Counts} {method : String} (hcompile : r.boundCircuit.compile = .ok steps)
      (hrun : (Sampler.sample r.boundCircuit steps machine r.options.shots.toNat :
        Sampling R G (Counts × String)).run g = (.ok (counts, method), g')) :
      Sampler.ReadsOut r.boundCircuit steps machine r.options.shots.toNat g counts :=
    Sampler.readsOut_of_sample hcircuit hcompile (hmap.symm ▸ hmeasured) hshots hrun
  refine ⟨hmap, r.boundCircuit_numClbits, fun q => ?_, Circuit.pairwise_distinctQubits _,
    fun G _ machine steps g g' counts method hcompile hrun => hread hcompile hrun,
    fun e index given result h => ?_⟩
  · rw [Circuit.measuredQubits, Circuit.mem_distinctQubits, List.mem_map]
  · obtain ⟨steps, hcompile, h⟩ := bind_eq_ok.1 h
    simp only [hmode] at h
    obtain ⟨⟨counts, method⟩, hrun, h⟩ := bind_eq_ok.1 h
    cases h
    exact ⟨steps, counts, hcompile, rfl, hread hcompile (Prod.ext hrun rfl)⟩

section Exact

namespace Statevector

/-- A marginal over distinct qubits splits the norm. -/
theorem sum_share (s : Statevector ℝ) (qubits : List Qubit) :
    ∑ k ∈ Finset.range (2 ^ qubits.length), ∑ i ∈ Finset.range (2 ^ s.numQubits),
      s.share qubits k i = mass s.numQubits s.coefficient := by
  rw [Finset.sum_comm]
  apply Finset.sum_congr rfl
  intro i _
  have hlt := BasisIndex.localIndex_lt (qubits.map Qubit.index) i
  rw [List.length_map] at hlt
  unfold share
  rw [Finset.sum_ite_eq, if_pos (Finset.mem_range.2 hlt)]

/-- The marginal of a normal state gives a distribution. -/
theorem IsNormal.exists_marginal_dist {s : Statevector ℝ} {n : ℕ} (h : s.IsNormal n)
    {qubits : List Qubit} (hlen : qubits.length < 64) (hq : ∀ q ∈ qubits, q.index < n) :
    ∃ marginal dist, s.marginalProbabilities qubits = .ok marginal ∧
      marginal.size = 2 ^ qubits.length ∧ WeightedIndex.create marginal.toList = .ok dist := by
  obtain rfl := h.width
  have hmarginal := marginalProbabilities_eq h.register hlen hq
  have hone : (List.ofFn fun k : Fin (2 ^ qubits.length) =>
      ∑ i ∈ Finset.range (2 ^ s.numQubits), s.share qubits k i).sum = 1 := by
    rw [List.sum_ofFn, Fin.sum_univ_eq_sum_range fun k =>
      ∑ i ∈ Finset.range (2 ^ s.numQubits), s.share qubits k i, sum_share, h.norm]
  have hnonneg : ∀ w ∈ List.ofFn fun k : Fin (2 ^ qubits.length) =>
      ∑ i ∈ Finset.range (2 ^ s.numQubits), s.share qubits k i, 0 ≤ w := by
    intro w hw
    obtain ⟨k, rfl⟩ := List.mem_ofFn.1 hw
    refine Finset.sum_nonneg fun i _ => ?_
    unfold share
    split
    · exact Complex.normSq_nonneg _
    · exact le_rfl
  obtain ⟨dist, hdist⟩ := WeightedIndex.exists_create_eq_ok hnonneg (hone ▸ one_ne_zero)
  exact ⟨_, dist, hmarginal, by simp, by rw [Array.toList_ofFn, hdist]⟩

end Statevector

namespace Sampler

/-- An exact circuit that is drawn from its final state has counts, whatever the random source. -/
theorem exists_sample_eq_ok {G : Type} [RandomSource G] {c : Circuit ℝ}
    (hvalid : c.validate = .ok ()) (hexact : c.IsExact) (hwidth : c.numQubits.toNat < 64)
    (hmid : c.hasMidCircuitMeasurement = false) {steps : List (Step ℝ)}
    (hcompile : c.compile = .ok steps) (machine : Machine) (shots : ℕ) (g : G) :
    ∃ counts g', (sample c steps machine shots : Sampling ℝ G (Counts × String)).run g =
      (.ok (counts, "statevector"), g') := by
  have hfits := Circuit.compile_fits hvalid hcompile
  have hpairs := Step.mem_pairs_fits hfits
  rw [Circuit.compile_pairs hcompile] at hpairs
  obtain ⟨hmeasured, hlength⟩ := length_measured_le hpairs
  have hlen := hlength.trans_lt hwidth
  obtain ⟨_, final, -, -, hfinal, hnormal, -⟩ := exists_finalState_eq hwidth hfits
    (Circuit.compile_isExact hexact.matricesUnitary hcompile) machine
  obtain ⟨marginal, dist, hmarginal, -, hdist⟩ := hnormal.exists_marginal_dist hlen hmeasured
  obtain ⟨counts, g', hrun⟩ :=
    exists_sampleFinalState_eq_ok hvalid hcompile rfl hfinal hmarginal hdist shots g
  refine ⟨counts, g', ?_⟩
  unfold sample
  rw [hmid]
  exact run_bind_of_ok hrun

end Sampler

/-- One qubit read twice, a classical bit that is overwritten and one that is never written, so that
two outcomes of the measured qubits are counted under one text. -/
theorem ExecutionRequest.readsOut_of_sampled_shared :
    let c : Circuit ℝ := ⟨"shared", 3, 3, [.standard (.plain .h) [⟨0⟩],
      .standard (.plain .h) [⟨2⟩], .measure [⟨2⟩, ⟨0⟩] [⟨0⟩, ⟨2⟩], .measure [⟨2⟩] [⟨2⟩]]⟩
    let r : ExecutionRequest ℝ := ⟨c, .sampled 10⟩
    let e : Engine := ⟨1024, none, true⟩
    let given : Conditions := { entropy := 7, divide := fun _ => .cut 3 .whole .whole }
    r.validate = .ok () ∧ r.options.mode = .sampled ∧ c.measurementMap ≠ [] ∧
      c.hasMidCircuitMeasurement = false ∧ c.measuredQubits = [⟨0⟩, ⟨2⟩] ∧
      ((List.range 4).map fun k => Sampler.textOf 3
        (Sampler.outcomeBit c.measurementMap c.measuredQubits k)) = ["000", "000", "101", "101"] ∧
      ∃ result steps counts, e.execute 0 r given = .ok result ∧ c.compile = .ok steps ∧
        result.data = .counts counts ∧
        Sampler.ReadsOut c steps (e.machine given) 10 (Random.Stream.ofSeed 7) counts := by
  intro c r e given
  have hvalid : r.validate = .ok () :=
    validate_eq_ok.2 ⟨⟨rfl, rfl, by decide⟩, rfl, by decide +kernel⟩
  have hmap : c.measurementMap = [(⟨2⟩, ⟨0⟩), (⟨0⟩, ⟨2⟩), (⟨2⟩, ⟨2⟩)] := rfl
  have hmeasured : c.measurementMap ≠ [] := by simp [hmap]
  have hqubits : c.measuredQubits = [⟨0⟩, ⟨2⟩] := by
    rw [Circuit.measuredQubits, hmap]
    cbv
  have htexts : ((List.range 4).map fun k => Sampler.textOf 3
      (Sampler.outcomeBit c.measurementMap c.measuredQubits k)) = ["000", "000", "101", "101"] := by
    rw [hmap, hqubits]
    decide +kernel
  have hmid : c.hasMidCircuitMeasurement = false := rfl
  have hexact : c.IsExact := by
    intro inst hinst g hop
    fin_cases hinst <;> cases hop
    all_goals exact fun p hp => absurd hp List.not_mem_nil
  obtain ⟨steps, hcompile⟩ := hexact.exists_compile
  obtain ⟨counts, g, hrun⟩ := Sampler.exists_sample_eq_ok rfl hexact (by decide) hmid hcompile
    (e.machine given) 10 (Random.Stream.ofSeed 7)
  obtain ⟨result, hresult⟩ : ∃ result, e.execute 0 r given = .ok result :=
    ⟨_, bind_eq_ok.2 ⟨steps, hcompile, bind_eq_ok.2 ⟨_, congrArg Prod.fst hrun, rfl⟩⟩⟩
  obtain ⟨-, -, -, -, -, hread⟩ := readsOut_of_sampled hvalid rfl hmeasured
  obtain ⟨steps', counts', hcompile', hdata, hreads⟩ := hread e 0 given result hresult
  exact ⟨hvalid, rfl, hmeasured, hmid, hqubits, htexts, result, steps', counts', hresult,
    hcompile', hdata, hreads⟩

end Exact

end QuantumSim
