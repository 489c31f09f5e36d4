import Mathlib
import QuantumSim.Proofs.Replay

/-!
Sampled circuits without a measured pair. They are meant to show the whole register, and do so where
the shots are drawn from the final state: each shows the bits of the basis index drawn. A reset
anywhere has the circuit replayed for each shot. Nothing is read there, and every shot shows the
classical bits as they were at first.
-/
namespace QuantumSim

section Register

open BasisIndex

theorem localIndex_range {n i : ℕ} (hi : i < 2 ^ n) : localIndex (List.range n) i = i := by
  refine Nat.eq_of_testBit_eq fun p => ?_
  rw [testBit_localIndex]
  by_cases hp : p < n
  · simp [hp]
  · simp [hp, testBit_eq_false_of_lt hi (not_lt.1 hp)]

/-- The marginal over the whole register lists the squared magnitudes of the amplitudes. -/
theorem Statevector.marginalProbabilities_range {s : Statevector ℝ} {n : UInt32}
    (hs : s.HasWidth n.toNat) :
    s.marginalProbabilities (Qubit.range n) =
      .ok (Array.ofFn fun k : Fin (2 ^ n.toNat) => Complex.normSq (s.coefficient k)) := by
  have hlength : (Qubit.range n).length = n.toNat := by simp [Qubit.range]
  have hlt : ∀ q ∈ Qubit.range n, q.index < s.numQubits := fun q hq =>
    hs.width.symm ▸ Qubit.index_lt_of_mem_range hq
  have hn : n.toNat < 64 := hs.width ▸ hs.register.width
  rw [marginalProbabilities_eq hs.register (hlength ▸ hn) hlt, hlength, hs.width]
  refine congrArg (fun f => Except.ok (Array.ofFn f)) (funext fun k => ?_)
  have hshare : ∀ i ∈ Finset.range (2 ^ n.toNat), s.share (Qubit.range n) k i =
      if i = k then Complex.normSq (s.coefficient i) else 0 := by
    intro i hi
    rw [share, Qubit.map_index_range, localIndex_range (Finset.mem_range.1 hi)]
  rw [Finset.sum_congr rfl hshare, Finset.sum_ite_eq' _ _ _, if_pos (Finset.mem_range.2 k.isLt)]

theorem Qubit.idxOf_range {n : UInt32} {q : Qubit} (hq : q ∈ range n) :
    (range n).idxOf q = q.index := by
  obtain ⟨k, hk, rfl⟩ := List.getElem_of_mem hq
  have hindex : ((range n).map index)[k]? = some k := by
    rw [map_index_range, List.getElem?_range (by simpa [range] using hk)]
  rw [List.getElem?_map, List.getElem?_eq_getElem hk] at hindex
  rw [(nodup_range n).idxOf_getElem k hk]
  exact (Option.some.inj hindex).symm

end Register

namespace Circuit

variable {R : Type}

def hasReset (c : Circuit R) : Bool := c.instructions.any (·.isReset)

/-- Where nothing is measured, outcomes matter only to resets. -/
theorem hasMidCircuitMeasurement_of_unmeasured {c : Circuit R} (hvalid : c.validate = .ok ())
    (hunmeasured : c.measurementMap = []) : c.hasMidCircuitMeasurement = c.hasReset := by
  have hempty : ∀ inst ∈ c.instructions, inst.operation = .measure → inst.qubits = [] := by
    intro inst hinst hop
    have hlength := ((validate_eq_ok c).1 hvalid inst hinst).measure hop
    have hzip : inst.qubits.zip inst.clbits = [] := by
      refine List.flatMap_eq_nil_iff.1 hunmeasured inst (List.mem_filter.2 ⟨hinst, ?_⟩)
      simp [Instruction.isMeasure, hop]
    rcases List.zip_eq_nil_iff.1 hzip with hnone | hnone
    · exact hnone
    · rwa [hnone, List.length_nil, List.length_eq_zero_iff] at hlength
  unfold hasMidCircuitMeasurement hasReset
  generalize c.instructions = insts at hempty
  induction insts with
  | nil => rfl
  | cons inst insts ih =>
    obtain ⟨hfirst, hrest⟩ := List.forall_mem_cons.1 hempty
    rw [List.any_cons, dependsOnOutcome, ← ih hrest]
    cases hop : inst.operation with
    | gate g => simp [Instruction.isReset, hop]
    | measure => simp [Instruction.isReset, hop, hfirst hop]
    | reset => simp [Instruction.isReset, hop]
    | barrier => simp [Instruction.isReset, hop]

end Circuit

namespace Sampler

theorem readoutMap_of_unmeasured {R : Type} {c : Circuit R} (hunmeasured : c.measurementMap = []) :
    readoutMap c =
      ((Qubit.range c.numQubits).map fun q => (q, ⟨q.id⟩), c.numQubits.toNat) := by
  simp [readoutMap, hunmeasured]

/-- Where every qubit is read into the bit of its own number, an outcome reads as it is. -/
theorem outcomeBit_range {n : UInt32} {b : ℕ} (hb : b < n.toNat) (outcome : ℕ) :
    outcomeBit ((Qubit.range n).map fun q => (q, ⟨q.id⟩)) (Qubit.range n) outcome b =
      outcome.testBit b := by
  have hwriter : ∃ q ∈ Qubit.range n, q.index = b ∧
      lastWriter? ((Qubit.range n).map fun q => (q, ⟨q.id⟩)) b = some q := by
    cases hlast : lastWriter? ((Qubit.range n).map fun q => (q, ⟨q.id⟩)) b with
    | none =>
      obtain ⟨q, hq, rfl⟩ := List.mem_map.1
        (Qubit.map_index_range n ▸ List.mem_range.2 hb : b ∈ (Qubit.range n).map Qubit.index)
      have hnone := List.find?_eq_none.1 (Option.map_eq_none_iff.1 hlast) (q, ⟨q.id⟩)
        (List.mem_reverse.2 (List.mem_map_of_mem hq))
      exact absurd (beq_self_eq_true q.index) hnone
    | some q =>
      obtain ⟨pair, hpair, rfl⟩ := Option.map_eq_some_iff.1 hlast
      obtain ⟨q, hq, rfl⟩ := List.mem_map.1 (List.mem_reverse.1 (List.mem_of_find?_eq_some hpair))
      have hbit := List.find?_some hpair
      exact ⟨q, hq, beq_iff_eq.1 hbit, rfl⟩
  obtain ⟨q, hq, rfl, hlast⟩ := hwriter
  rw [outcomeBit, hlast]
  exact congrArg outcome.testBit (Qubit.idxOf_range hq)

variable {R G : Type} [Scalar R] [RandomSource G]

/-- How the counts of an unmeasured circuit come about that was sampled from a random source. -/
structure ReadsRegister (c : Circuit R) (steps : List (Step R)) (machine : Machine) (shots : ℕ)
    (g : G) (counts : Counts) : Prop where
  /-- Every shot is counted. -/
  total : counts.total = shots
  /-- Without a reset, every text has a character for each qubit. -/
  width : c.hasReset = false → ∀ text ∈ counts.table.keys, text.length = c.numQubits.toNat
  /-- Every basis index drawn from the final state is then counted once, under the text of its
  bits. -/
  drawn : c.hasReset = false → ∃ final marginal dist,
    finalState c steps machine = .ok final ∧
      final.marginalProbabilities (Qubit.range c.numQubits) = .ok marginal ∧
      WeightedIndex.create marginal.toList = .ok dist ∧
      (∀ k ∈ Sampler.drawn dist shots g, k < 2 ^ c.numQubits.toNat) ∧
      counts.Tallies
        ((Sampler.drawn dist shots g).map fun k => textOf c.numQubits.toNat k.testBit)
  /-- With a reset, every shot is counted under a zero for each classical bit, whatever the
  register holds. -/
  blank : c.hasReset = true →
    counts.Tallies (List.replicate shots (textOf c.numClbits.toNat fun _ => false))

section Unread

variable {c : Circuit R} {steps : List (Step R)} {machine : Machine} {shots : ℕ} {g g' : G}
  {counts : Counts}

/-- A step that reads nothing leaves the classical bits alone. -/
theorem bits_playStep {t t' : Trajectory R} {step : Step R} (hpairs : step.pairs = [])
    (h : (playStep t step : Sampling R G (Trajectory R)).run g = (.ok t', g')) :
    t'.bits = t.bits := by
  cases step with
  | gate lowered gate qubits =>
    obtain ⟨s, g₁, -, h⟩ := run_bind_eq_ok h
    cases h
    rfl
  | measure pairs =>
    obtain rfl : pairs = [] := hpairs
    cases h
    rfl
  | reset q =>
    obtain ⟨s, g₁, -, h⟩ := run_bind_eq_ok h
    cases h
    rfl

theorem bits_playSteps {t t' : Trajectory R} (hpairs : steps.flatMap Step.pairs = [])
    (h : (steps.foldlM playStep t : Sampling R G (Trajectory R)).run g = (.ok t', g')) :
    t'.bits = t.bits := by
  induction steps generalizing t g with
  | nil =>
    cases h
    rfl
  | cons step steps ih =>
    rw [List.flatMap_cons, List.append_eq_nil_iff] at hpairs
    rw [List.foldlM_cons] at h
    obtain ⟨u, g₁, hstep, h⟩ := run_bind_eq_ok h
    rw [ih hpairs.2 h, bits_playStep hpairs.1 hstep]

theorem Plays.bits {start : Trajectory R} {ends : List (Trajectory R)}
    (hpairs : steps.flatMap Step.pairs = []) (h : Plays start steps g ends) :
    ∀ t ∈ ends, t.bits = start.bits := by
  induction ends generalizing g with
  | nil => simp
  | cons t ends ih =>
    obtain ⟨g₁, hplay, hrest⟩ := h
    exact List.forall_mem_cons.2 ⟨bits_playSteps hpairs hplay, ih hrest⟩

theorem readsRegister_of_sample (hvalid : c.validate = .ok ()) (hcompile : c.compile = .ok steps)
    (hunmeasured : c.measurementMap = []) (hshots : shots < UInt64.size) {method : String}
    (h : (sample c steps machine shots : Sampling R G (Counts × String)).run g =
      (.ok (counts, method), g')) : ReadsRegister c steps machine shots g counts := by
  unfold sample at h
  rw [Circuit.hasMidCircuitMeasurement_of_unmeasured hvalid hunmeasured] at h
  split at h
  next hreset =>
    obtain ⟨counts', _, hrun, h⟩ := run_bind_eq_ok h
    cases h
    obtain ⟨zero, base, ends, -, -, hlength, hplays, -, htallies⟩ :=
      tallies_sampleTrajectories hvalid hcompile hshots hrun
    have hpairs : (steps.dropWhile (·.isGate)).flatMap Step.pairs = [] := by
      have hall := (Circuit.compile_pairs hcompile).trans hunmeasured
      rw [List.flatMap_eq_nil_iff] at hall ⊢
      exact fun step hstep => hall step (List.dropWhile_subset _ hstep)
    have hblank : ends.map (fun t => textOf c.numClbits.toNat fun b => t.bits.getD b false) =
        List.replicate shots (textOf c.numClbits.toNat fun _ => false) := by
      rw [← hlength, ← List.map_const']
      refine List.map_congr_left fun t ht => textOf_congr fun b hb => ?_
      simp [hplays.bits hpairs t ht, hb]
    rw [hblank] at htallies
    exact ⟨by rw [htallies.total_eq, List.length_replicate], by simp [hreset], by simp [hreset],
      fun _ => htallies⟩
  next hreset =>
    obtain ⟨counts', _, hrun, h⟩ := run_bind_eq_ok h
    cases h
    obtain ⟨final, marginal, dist, hfinal, hmarginal, hsize, hdist, hlt, htallies⟩ :=
      tallies_sampleFinalState hvalid hcompile (readoutMap_of_unmeasured hunmeasured) hshots hrun
    have hqubits : Circuit.distinctQubits (((Qubit.range c.numQubits).map fun q =>
        (q, (⟨q.id⟩ : Clbit))).map (·.1)) = Qubit.range c.numQubits := by
      rw [List.map_map]
      exact (congrArg _ (List.map_id _)).trans (Circuit.distinctQubits_range _)
    rw [hqubits] at hmarginal hsize htallies
    have htexts : (Sampler.drawn dist shots g).map (fun k => textOf c.numQubits.toNat (outcomeBit
        ((Qubit.range c.numQubits).map fun q => (q, ⟨q.id⟩)) (Qubit.range c.numQubits) k)) =
        (Sampler.drawn dist shots g).map fun k => textOf c.numQubits.toNat k.testBit :=
      List.map_congr_left fun k _ => textOf_congr fun b hb => outcomeBit_range hb k
    rw [htexts] at htallies
    have hlength : (Qubit.range c.numQubits).length = c.numQubits.toNat := by simp [Qubit.range]
    rw [hsize, hlength] at hlt
    refine ⟨by rw [htallies.total_eq, List.length_map, length_drawn], fun _ text htext => ?_,
      fun _ => ⟨final, marginal, dist, hfinal, hmarginal, hdist, hlt, htallies⟩,
      fun hyes => absurd hyes hreset⟩
    obtain ⟨k, -, rfl⟩ := List.mem_map.1 ((htallies.mem_keys text).1 htext)
    exact length_textOf _ _

end Unread

end Sampler

namespace ExecutionRequest

theorem boundCircuit_hasReset {R : Type} [Scalar R] (r : ExecutionRequest R) :
    r.boundCircuit.hasReset = r.circuit.hasReset := by
  unfold boundCircuit
  split
  · unfold Circuit.hasReset Circuit.bindParameters
    rw [List.any_map]
    exact congrArg _ (funext fun inst => inst.bind_isReset _)
  · rfl

/-- The result of a sampled request holds the counts of a run from the stream of its seed. -/
theorem exists_run_of_execute {R : Type} [Scalar R] {r : ExecutionRequest R}
    (hmode : r.options.mode = .sampled) {e : Engine} {index : ℕ} {given : Conditions}
    {result : ExecutionResult R} (h : e.execute index r given = .ok result) :
    ∃ steps counts method g', r.boundCircuit.compile = .ok steps ∧ result.data = .counts counts ∧
      (Sampler.sample r.boundCircuit steps (e.machine given) r.options.shots.toNat :
        Sampling R Random.Stream (Counts × String)).run (.ofSeed (e.seedFor r given.entropy)) =
          (.ok (counts, method), g') := by
  obtain ⟨steps, hcompile, h⟩ := bind_eq_ok.1 h
  simp only [hmode] at h
  obtain ⟨⟨counts, method⟩, hrun, h⟩ := bind_eq_ok.1 h
  cases h
  exact ⟨steps, counts, method, _, hcompile, rfl, Prod.ext hrun rfl⟩

/-- Whatever an accepted sampled request without a measured pair yields, from any random source and
by the engine, shows the whole register in every shot if the circuit has no reset, and nothing of it
if it has one. The character of a qubit stands at its distance from the end, and over exact
amplitudes an index is drawn with the squared magnitude of its amplitude. -/
theorem readsRegister_of_unmeasured {R : Type} [Scalar R] {r : ExecutionRequest R}
    (hvalid : r.validate = .ok ()) (hmode : r.options.mode = .sampled)
    (hunmeasured : r.circuit.measurementMap = []) :
    r.boundCircuit.numQubits = r.circuit.numQubits ∧
      r.boundCircuit.numClbits = r.circuit.numClbits ∧
      r.boundCircuit.hasReset = r.circuit.hasReset ∧
      (∀ (G : Type) [RandomSource G] (machine : Machine) (steps : List (Step R)) (g g' : G)
          (counts : Counts) (method : String), r.boundCircuit.compile = .ok steps →
        (Sampler.sample r.boundCircuit steps machine r.options.shots.toNat :
          Sampling R G (Counts × String)).run g = (.ok (counts, method), g') →
        Sampler.ReadsRegister r.boundCircuit steps machine r.options.shots.toNat g counts) ∧
      (∀ (e : Engine) (index : ℕ) (given : Conditions) (result : ExecutionResult R),
        e.execute index r given = .ok result →
          ∃ steps counts, r.boundCircuit.compile = .ok steps ∧ result.data = .counts counts ∧
            Sampler.ReadsRegister r.boundCircuit steps (e.machine given) r.options.shots.toNat
              (Random.Stream.ofSeed (e.seedFor r given.entropy)) counts) ∧
      (∀ k j : ℕ, j < r.circuit.numQubits.toNat →
        (Sampler.textOf r.circuit.numQubits.toNat k.testBit).toList[
          r.circuit.numQubits.toNat - 1 - j]? = some (if k.testBit j then '1' else '0')) ∧
      ∀ final : Statevector ℝ, final.HasWidth r.circuit.numQubits.toNat →
        final.marginalProbabilities (Qubit.range r.circuit.numQubits) =
          .ok (Array.ofFn fun k : Fin (2 ^ r.circuit.numQubits.toNat) =>
            Complex.normSq (final.coefficient k)) := by
  have hcircuit := validate_boundCircuit (reachesObservables_of_validate hvalid).circuit
  have hmap := r.boundCircuit_measurementMap.trans hunmeasured
  have hshots : r.options.shots.toNat < UInt64.size :=
    r.options.shots.toNat_lt.trans (by decide)
  refine ⟨r.boundCircuit_numQubits, r.boundCircuit_numClbits, r.boundCircuit_hasReset,
    fun G _ machine steps g g' counts method hcompile hrun =>
      Sampler.readsRegister_of_sample hcircuit hcompile hmap hshots hrun,
    fun e index given result h => ?_, fun k j hj => Sampler.getElem?_textOf hj k.testBit,
    fun final hfinal => Statevector.marginalProbabilities_range hfinal⟩
  obtain ⟨steps, counts, method, g', hcompile, hdata, hrun⟩ := exists_run_of_execute hmode h
  exact ⟨steps, counts, hcompile, hdata,
    Sampler.readsRegister_of_sample hcircuit hcompile hmap hshots hrun⟩

/-- One qubit of two is flipped, and there are no classical bits. The shots show both qubits, but
once the other qubit is reset they show nothing. -/
theorem readsRegister_of_unmeasured_cleared :
    let plain : Circuit ℝ := ⟨"plain", 2, 0, [.standard (.plain .x) [⟨1⟩]]⟩
    let cleared : Circuit ℝ := ⟨"cleared", 2, 0, [.standard (.plain .x) [⟨1⟩], .reset ⟨0⟩]⟩
    let request (c : Circuit ℝ) : ExecutionRequest ℝ := ⟨c, .sampled 5⟩
    let e : Engine := ⟨1024, none, true⟩
    let given : Conditions := { entropy := 7 }
    (request plain).validate = .ok () ∧ (request cleared).validate = .ok () ∧
      (∀ c, (request c).options.mode = .sampled) ∧
      plain.measurementMap = [] ∧ cleared.measurementMap = [] ∧
      (∃ result counts, e.execute 0 (request plain) given = .ok result ∧
        result.data = .counts counts ∧
        counts.total = 5 ∧ ∀ text ∈ counts.table.keys, text.length = 2) ∧
      ∃ result counts, e.execute 0 (request cleared) given = .ok result ∧
        result.data = .counts counts ∧ counts.total = 5 ∧ ∀ text, text ∈ counts.table.keys ↔
          text = "" := by
  intro plain cleared request e given
  have hplain : (request plain).validate = .ok () :=
    validate_eq_ok.2 ⟨⟨rfl, rfl, by decide⟩, rfl, by decide +kernel⟩
  have hcleared : (request cleared).validate = .ok () :=
    validate_eq_ok.2 ⟨⟨rfl, rfl, by decide⟩, rfl, by decide +kernel⟩
  have hexact : cleared.IsExact := by
    intro inst hinst g hop
    fin_cases hinst <;> cases hop
    exact fun p hp => absurd hp List.not_mem_nil
  have hprefix : plain.IsExact := fun inst hinst => hexact inst (List.mem_append_left _ hinst)
  obtain ⟨shown, hshown⟩ := e.exists_execute_eq_ok hplain rfl hprefix (by decide) 0 given
  obtain ⟨hidden, hhidden⟩ := e.exists_execute_eq_ok hcleared rfl hexact (by decide) 0 given
  obtain ⟨-, -, -, -, hread, -, -⟩ := readsRegister_of_unmeasured hplain rfl rfl
  obtain ⟨_, counts, -, hdata, hreads⟩ := hread e 0 given shown hshown
  obtain ⟨-, -, -, -, hread', -, -⟩ := readsRegister_of_unmeasured hcleared rfl rfl
  obtain ⟨_, counts', -, hdata', hreads'⟩ := hread' e 0 given hidden hhidden
  refine ⟨hplain, hcleared, fun _ => rfl, rfl, rfl,
    ⟨shown, counts, hshown, hdata, hreads.total, hreads.width rfl⟩,
    hidden, counts', hhidden, hdata', hreads'.total, fun text => ?_⟩
  have hblank : counts'.Tallies (List.replicate 5 (Sampler.textOf 0 fun _ => false)) :=
    hreads'.blank rfl
  have hempty : Sampler.textOf 0 (fun _ => false) = "" := by decide
  rw [hblank.mem_keys, List.mem_replicate, hempty]
  exact and_iff_right (by decide)

end ExecutionRequest

end QuantumSim
