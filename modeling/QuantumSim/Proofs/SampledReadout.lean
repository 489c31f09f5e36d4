import Mathlib
import QuantumSim.Proofs.Drawing
import QuantumSim.Proofs.Execution
import QuantumSim.Proofs.NormPreservation

/-!
What a sampled run counts. Every shot is counted once, under a text that shows each classical bit in
its place: the value of the qubit that was read into it last, or of the trajectory that was played.
-/
namespace QuantumSim

section Runs

variable {R G α β : Type}

theorem SimulationError.ofChecked_eq_ok {x : Checked α} {a : α} :
    (SimulationError.ofChecked x : Except (SimulationError R) α) = .ok a ↔ x = .ok a :=
  mapError_eq_ok

theorem run_bind_of_ok {x : Sampling R G α} {f : α → Sampling R G β} {g g' : G} {a : α}
    (h : x.run g = (.ok a, g')) : (x >>= f).run g = (f a).run g' := by
  show ExceptT.bindCont f (x.run g).1 (x.run g).2 = _
  rw [h]
  rfl

theorem run_bind_of_error {x : Sampling R G α} {f : α → Sampling R G β} {g g' : G}
    {e : SimulationError R} (h : x.run g = (.error e, g')) :
    (x >>= f).run g = (.error e, g') := by
  show ExceptT.bindCont f (x.run g).1 (x.run g).2 = _
  rw [h]
  rfl

theorem run_bind_eq_ok {x : Sampling R G α} {f : α → Sampling R G β} {g g' : G} {b : β}
    (h : (x >>= f).run g = (.ok b, g')) :
    ∃ a g₁, x.run g = (.ok a, g₁) ∧ (f a).run g₁ = (.ok b, g') := by
  cases hx : x.run g with
  | mk result g₁ =>
    cases result with
    | ok a => exact ⟨a, g₁, rfl, run_bind_of_ok hx ▸ h⟩
    | error e => cases (run_bind_of_error hx).symm.trans h

/-- A step that does not draw leaves the source alone. -/
theorem run_lift_bind_eq_ok {e : Except (SimulationError R) α} {f : α → Sampling R G β} {g g' : G}
    {b : β} (h : (Sampler.lift e >>= f).run g = (.ok b, g')) :
    ∃ a, e = .ok a ∧ (f a).run g = (.ok b, g') := by
  cases e with
  | ok a => exact ⟨a, rfl, h⟩
  | error cause => cases h

end Runs

namespace Sampler

section Texts

/-- The text of the bits below a width, bit 0 last. -/
def textOf (width : ℕ) (bit : ℕ → Bool) : String :=
  String.ofList (List.ofFn fun p : Fin width => if bit (width - 1 - p) then '1' else '0')

theorem length_textOf (width : ℕ) (bit : ℕ → Bool) : (textOf width bit).length = width := by
  simp [textOf]

/-- The character of a bit stands at its distance from the end. -/
theorem getElem?_textOf {width b : ℕ} (hb : b < width) (bit : ℕ → Bool) :
    (textOf width bit).toList[width - 1 - b]? = some (if bit b then '1' else '0') := by
  have hp : width - 1 - b < width := by omega
  have hback : width - 1 - (width - 1 - b) = b := by omega
  simp [textOf, hp, hback]

theorem textOf_congr {width : ℕ} {f g : ℕ → Bool} (h : ∀ b < width, f b = g b) :
    textOf width f = textOf width g := by
  refine congrArg String.ofList (congrArg List.ofFn (funext fun p => ?_))
  rw [h _ (by omega)]

theorem bitText_eq_textOf (bits : Array Bool) :
    bitText bits = textOf bits.size fun b => bits.getD b false := by
  refine congrArg String.ofList (List.ext_getElem (by simp) fun p hp _ => ?_)
  have hp : p < bits.size := by simpa using hp
  have hback : bits.size - 1 - p < bits.size := by omega
  simp [hback]

/-- The qubit that is read into a classical bit last. -/
def lastWriter? (map : List (Qubit × Clbit)) (b : ℕ) : Option Qubit :=
  (map.reverse.find? fun pair => pair.2.index == b).map (·.1)

/-- The value that a marginal outcome over the measured qubits gives a classical bit: the bit of the
outcome at the place of the qubit read into it last, and nothing else is set. -/
def outcomeBit (map : List (Qubit × Clbit)) (measured : List Qubit) (outcome b : ℕ) : Bool :=
  match lastWriter? map b with
  | some q => outcome.testBit (measured.idxOf q)
  | none => false

theorem lastWriter?_append (map : List (Qubit × Clbit)) (pair : Qubit × Clbit) (b : ℕ) :
    lastWriter? (map ++ [pair]) b =
      if pair.2.index = b then some pair.1 else lastWriter? map b := by
  by_cases h : pair.2.index = b <;> simp [lastWriter?, h]

theorem mem_of_lastWriter? {map : List (Qubit × Clbit)} {b : ℕ} {q : Qubit}
    (h : lastWriter? map b = some q) : ∃ pair ∈ map, pair.1 = q := by
  obtain ⟨pair, hpair, rfl⟩ := Option.map_eq_some_iff.1 h
  exact ⟨pair, List.mem_reverse.1 (List.mem_of_find?_eq_some hpair), rfl⟩

theorem size_bitsAt (map : List (Qubit × Clbit)) (i : ℕ) (bits : Array Bool) :
    (bitsAt map i bits).size = bits.size := by
  unfold bitsAt
  induction map generalizing bits with
  | nil => rfl
  | cons pair map ih => rw [List.foldl_cons, ih, Array.size_setIfInBounds]

theorem getD_bitsAt (map : List (Qubit × Clbit)) (i : ℕ) {bits : Array Bool} {b : ℕ}
    (hb : b < bits.size) :
    (bitsAt map i bits).getD b false =
      ((lastWriter? map b).map fun q => i.testBit q.index).getD (bits.getD b false) := by
  induction map using List.reverseRecOn with
  | nil => rfl
  | append_singleton map pair ih =>
    have hstep : bitsAt (map ++ [pair]) i bits =
        (bitsAt map i bits).setIfInBounds pair.2.index (i.testBit pair.1.index) := by
      simp [bitsAt]
    have hin : b < (bitsAt map i bits).size := size_bitsAt map i bits ▸ hb
    rw [hstep, lastWriter?_append, Array.getD_eq_getD_getElem?, Array.getElem?_setIfInBounds]
    by_cases h : pair.2.index = b
    · simp [h, hin]
    · simp only [if_neg h]
      rw [← Array.getD_eq_getD_getElem?, ih]

/-- A marginal outcome reads as the text of the bits it gives. -/
theorem readoutText_eq_textOf {map : List (Qubit × Clbit)} {measured : List Qubit} {width : ℕ}
    (hlen : measured.length ≤ 64) (hnodup : measured.Nodup)
    (hmeasured : ∀ pair ∈ map, pair.1 ∈ measured) (hbits : ∀ pair ∈ map, pair.2.index < width)
    {outcome : ℕ} (houtcome : outcome < 2 ^ measured.length) :
    readoutText map measured width outcome =
      .ok (textOf width (outcomeBit map measured outcome)) := by
  -- some basis index has the bits of the outcome at the measured qubits
  obtain ⟨i, hi⟩ : ∃ i, BasisIndex.localIndex (measured.map Qubit.index) i = outcome :=
    ⟨_, BasisIndex.localIndex_replaceBits (hnodup.map Qubit.index_injective)
      (by simpa using houtcome) 0⟩
  rw [← hi, readoutText_eq_ok hlen hmeasured hbits, bitText_eq_textOf, size_bitsAt,
    Array.size_replicate]
  refine congrArg Except.ok (textOf_congr fun b hb => ?_)
  rw [getD_bitsAt map i (by simpa using hb), outcomeBit]
  cases h : lastWriter? map b with
  | none => simp [hb]
  | some q =>
    obtain ⟨pair, hpair, rfl⟩ := mem_of_lastWriter? h
    have hbit : (BasisIndex.localIndex (measured.map Qubit.index) i).testBit
        (measured.idxOf pair.1) = i.testBit pair.1.index := by
      rw [BasisIndex.testBit_localIndex, List.getElem?_map,
        List.getElem?_idxOf (hmeasured pair hpair)]
      rfl
    exact hbit.symm

end Texts

variable {R G : Type} [Scalar R] [RandomSource G]

theorem readoutMap_eq {R : Type} {c : Circuit R} (hmeasured : c.measurementMap ≠ []) :
    readoutMap c = (c.measurementMap, c.numClbits.toNat) := by
  simp [readoutMap, hmeasured]

/-- The shots that play steps from a trajectory one after the other, from a random source, end in
the listed trajectories. -/
def Plays (start : Trajectory R) (steps : List (Step R)) : G → List (Trajectory R) → Prop
  | _, [] => True
  | g, t :: ends => ∃ g', (steps.foldlM playStep start : Sampling R G (Trajectory R)).run g =
      (.ok t, g') ∧ Plays start steps g' ends

/-- How the counts of a measured circuit come about that was sampled from a random source. -/
structure ReadsOut (c : Circuit R) (steps : List (Step R)) (machine : Machine) (shots : ℕ)
    (g : G) (counts : Counts) : Prop where
  /-- Every shot is counted. -/
  total : counts.total = shots
  /-- Every text has a character for each classical bit. -/
  width : ∀ text ∈ counts.table.keys, text.length = c.numClbits.toNat
  /-- Where the shots are drawn from one final state, every drawn outcome of the measured qubits is
  counted once, under the text of the bits it gives. -/
  drawn : c.hasMidCircuitMeasurement = false → ∃ final marginal dist,
    finalState c steps machine = .ok final ∧
      final.marginalProbabilities c.measuredQubits = .ok marginal ∧
      WeightedIndex.create marginal.toList = .ok dist ∧
      (∀ k ∈ Sampler.drawn dist shots g, k < marginal.size) ∧
      counts.Tallies ((Sampler.drawn dist shots g).map fun k =>
        textOf c.numClbits.toNat (outcomeBit c.measurementMap c.measuredQubits k))
  /-- Elsewhere every shot plays the steps after the first gates, and is counted once, under the
  text of the bits that its trajectory wrote. -/
  played : c.hasMidCircuitMeasurement = true → ∃ zero base ends,
    Statevector.zero c.numQubits.toNat machine = .ok zero ∧
      zero.evolve (steps.takeWhile (·.isGate)) = .ok base ∧ ends.length = shots ∧
      Plays ⟨base, .replicate c.numClbits.toNat false⟩ (steps.dropWhile (·.isGate)) g ends ∧
      (∀ t ∈ ends, t.bits.size = c.numClbits.toNat) ∧
      counts.Tallies (ends.map fun t => textOf c.numClbits.toNat fun b => t.bits.getD b false)

/-- The steps of a final-state run that succeeded. -/
theorem sampleFinalState_eq_ok {c : Circuit R} {steps : List (Step R)} {machine : Machine}
    {shots : ℕ} {g g' : G} {counts : Counts} {map : List (Qubit × Clbit)} {width : ℕ}
    (hmap : readoutMap c = (map, width))
    (h : (sampleFinalState c steps machine shots : Sampling R G Counts).run g =
      (.ok counts, g')) :
    ∃ final marginal dist,
      finalState c steps machine = .ok final ∧
        final.marginalProbabilities (Circuit.distinctQubits (map.map (·.1))) = .ok marginal ∧
        WeightedIndex.create marginal.toList = .ok dist ∧
        histogramCounts map (Circuit.distinctQubits (map.map (·.1))) width
          (drawOutcomes dist shots (Array.replicate marginal.size 0) g).1.toList.zipIdx =
            .ok counts := by
  simp only [sampleFinalState, hmap] at h
  obtain ⟨final, hfinal, h⟩ := run_lift_bind_eq_ok h
  obtain ⟨marginal, hmarginal, h⟩ := run_lift_bind_eq_ok h
  obtain ⟨dist, hdist, h⟩ := run_lift_bind_eq_ok h
  obtain ⟨histogram, _, hdraw, h⟩ := run_bind_eq_ok h
  cases hdraw
  exact ⟨final, marginal, dist, hfinal, SimulationError.ofChecked_eq_ok.1 hmarginal,
    mapError_eq_ok.1 hdist, SimulationError.ofChecked_eq_ok.1 (congrArg Prod.fst h)⟩

theorem lt_of_finalState {c : Circuit R} {steps : List (Step R)} {machine : Machine}
    {final : Statevector R} (h : finalState c steps machine = .ok final) :
    c.numQubits.toNat < 64 := by
  obtain ⟨zero, hzero, -⟩ := bind_eq_ok.1 h
  exact Statevector.lt_of_zero_eq_ok (SimulationError.ofChecked_eq_ok.1 hzero)

section Measured

variable {c : Circuit R} {steps : List (Step R)} {machine : Machine} {shots : ℕ} {g g' : G}
  {counts : Counts}

/-- The marginal that is drawn from has an entry for every outcome of the measured qubits. -/
theorem size_marginal (hvalid : c.validate = .ok ()) (hcompile : c.compile = .ok steps)
    {map : List (Qubit × Clbit)} {width : ℕ} (hmap : readoutMap c = (map, width))
    {final : Statevector R} (hfinal : finalState c steps machine = .ok final) {marginal : Array R}
    (hmarginal : final.marginalProbabilities (Circuit.distinctQubits (map.map (·.1))) =
      .ok marginal) :
    marginal.size = 2 ^ (Circuit.distinctQubits (map.map (·.1))).length ∧
      (Circuit.distinctQubits (map.map (·.1))).length < 64 ∧
      ∀ pair ∈ map, pair.2.index < width := by
  have hfits := Circuit.compile_fits hvalid hcompile
  have hpairs := Step.mem_pairs_fits hfits
  rw [Circuit.compile_pairs hcompile] at hpairs
  have hinRange := readoutMap_inRange hpairs
  obtain ⟨hlt, hle⟩ := length_measured_le hpairs
  rw [hmap] at hinRange hlt hle
  have hn := lt_of_finalState hfinal
  have hwidth := (robust_finalState hn hfits machine).of_eq_ok hfinal
  have hlen := hle.trans_lt hn
  obtain ⟨marginal', hmarginal', hsize⟩ := Statevector.exists_marginalProbabilities_eq_ok
    hwidth.register hlen fun q hq => hwidth.width.symm ▸ hlt q hq
  cases hmarginal.symm.trans hmarginal'
  exact ⟨hsize, hlen, fun pair hpair => (hinRange pair hpair).2⟩

/-- Once the final state gives a distribution, any number of shots can be drawn. -/
theorem exists_sampleFinalState_eq_ok (hvalid : c.validate = .ok ())
    (hcompile : c.compile = .ok steps) {map : List (Qubit × Clbit)} {width : ℕ}
    (hmap : readoutMap c = (map, width)) {final : Statevector R}
    (hfinal : finalState c steps machine = .ok final) {marginal : Array R}
    (hmarginal : final.marginalProbabilities (Circuit.distinctQubits (map.map (·.1))) =
      .ok marginal)
    {dist : WeightedIndex R} (hdist : WeightedIndex.create marginal.toList = .ok dist) (shots : ℕ)
    (g : G) :
    ∃ counts g', (sampleFinalState c steps machine shots : Sampling R G Counts).run g =
      (.ok counts, g') := by
  obtain ⟨hsize, hlen, hbits⟩ := size_marginal hvalid hcompile hmap hfinal hmarginal
  set drawing := drawOutcomes dist shots (Array.replicate marginal.size 0) g with hdrawing
  have hentries : ∀ e ∈ drawing.1.toList.zipIdx,
      e.2 < 2 ^ (Circuit.distinctQubits (map.map (·.1))).length := by
    intro e he
    rw [← hsize]
    simpa [hdrawing, size_drawOutcomes] using List.snd_lt_of_mem_zipIdx he
  obtain ⟨counts, hcounts⟩ := exists_histogramCounts_eq_ok hlen.le hbits hentries
  have hdraw : (modifyGet (drawOutcomes dist shots (Array.replicate marginal.size 0)) :
      Sampling R G (Array UInt64)).run g = (.ok drawing.1, drawing.2) := rfl
  refine ⟨counts, drawing.2, ?_⟩
  simp only [sampleFinalState, hmap]
  refine (run_bind_of_ok (congrArg (·, g) hfinal)).trans ?_
  refine (run_bind_of_ok (congrArg (·, g) (SimulationError.ofChecked_eq_ok.2 hmarginal))).trans ?_
  refine (run_bind_of_ok (congrArg (·, g) (mapError_eq_ok.2 hdist))).trans ?_
  refine (run_bind_of_ok hdraw).trans ?_
  exact congrArg (·, drawing.2) (SimulationError.ofChecked_eq_ok.2 hcounts)

/-- Every draw from the final state is counted once, under the text of what is read out. -/
theorem tallies_sampleFinalState (hvalid : c.validate = .ok ()) (hcompile : c.compile = .ok steps)
    {map : List (Qubit × Clbit)} {width : ℕ} (hmap : readoutMap c = (map, width))
    (hshots : shots < UInt64.size)
    (h : (sampleFinalState c steps machine shots : Sampling R G Counts).run g =
      (.ok counts, g')) :
    ∃ final marginal dist,
      finalState c steps machine = .ok final ∧
        final.marginalProbabilities (Circuit.distinctQubits (map.map (·.1))) = .ok marginal ∧
        marginal.size = 2 ^ (Circuit.distinctQubits (map.map (·.1))).length ∧
        WeightedIndex.create marginal.toList = .ok dist ∧
        (∀ k ∈ drawn dist shots g, k < marginal.size) ∧
        counts.Tallies ((drawn dist shots g).map fun k =>
          textOf width (outcomeBit map (Circuit.distinctQubits (map.map (·.1))) k)) := by
  obtain ⟨final, marginal, dist, hfinal, hmarginal, hdist, hcounts⟩ := sampleFinalState_eq_ok hmap h
  obtain ⟨hsize, hlen, hbits⟩ := size_marginal hvalid hcompile hmap hfinal hmarginal
  have hselect (x : R) : dist.select x < marginal.size := by
    simpa using WeightedIndex.select_lt hdist x
  have hholds := holds_drawOutcomes (by simpa using hselect) (holds_replicate marginal.size) shots g
    (by simpa using hshots)
  have hperm := hholds.perm
  rw [List.nil_append] at hperm
  refine ⟨final, marginal, dist, hfinal, hmarginal, hsize, hdist, ?_, ?_⟩
  · simpa using drawn_lt hdist shots g
  · refine (tallies_histogramCounts (fun e he => ?_) ?_ hcounts).perm (hperm.map _)
    · refine readoutText_eq_textOf hlen.le (Circuit.nodup_distinctQubits _) (fun pair hpair =>
        Circuit.mem_distinctQubits.2 (List.mem_map_of_mem hpair)) hbits ?_
      rw [← hsize]
      simpa [size_drawOutcomes] using List.snd_lt_of_mem_zipIdx he
    · rwa [hperm.length_eq, length_drawn]

/-- A shot that was played is the text of the bits of a trajectory. -/
theorem exists_trajectory_of_playShot {base : Statevector R} {n : ℕ} (hbase : base.HasWidth n)
    (hfits : ∀ step ∈ steps, step.Fits n c.numClbits.toNat) {shot : ℕ} {text : String}
    (h : (playShot c base steps shot : Sampling R G String).run g = (.ok text, g')) :
    ∃ t, (steps.foldlM playStep ⟨base, .replicate c.numClbits.toNat false⟩ :
        Sampling R G (Trajectory R)).run g = (.ok t, g') ∧ t.bits.size = c.numClbits.toNat ∧
      text = textOf c.numClbits.toNat fun b => t.bits.getD b false := by
  obtain ⟨t, g₁, ht, h⟩ := run_bind_eq_ok h
  have hrobust : RobustRun (steps.foldlM playStep ⟨base, Array.replicate c.numClbits.toNat false⟩ :
      Sampling R G (Trajectory R)) (Trajectory.HasWidth · n c.numClbits.toNat) :=
    robustRun_foldlM (fun t ht step hstep => robustRun_playStep ht (hfits step hstep))
      ⟨hbase, by simp⟩
  have hwidth := (hrobust g).of_eq_ok (congrArg Prod.fst ht)
  obtain ⟨_, -, h⟩ := run_lift_bind_eq_ok h
  cases h
  exact ⟨t, ht, hwidth.bits, by rw [bitText_eq_textOf, hwidth.bits]⟩

/-- Every shot that is played is counted once, on top of those counted before. -/
theorem tallies_playShots {base : Statevector R} {n : ℕ} (hbase : base.HasWidth n)
    (hfits : ∀ step ∈ steps, step.Fits n c.numClbits.toNat) {shot : ℕ} {start : Counts}
    {seen : List String} (hstart : start.Tallies seen)
    (hsmall : seen.length + shots < UInt64.size)
    (h : (playShots c base steps shots shot start : Sampling R G Counts).run g =
      (.ok counts, g')) :
    ∃ ends, ends.length = shots ∧
      Plays ⟨base, .replicate c.numClbits.toNat false⟩ steps g ends ∧
      (∀ t ∈ ends, t.bits.size = c.numClbits.toNat) ∧
      counts.Tallies (seen ++ ends.map fun t =>
        textOf c.numClbits.toNat fun b => t.bits.getD b false) := by
  induction shots generalizing shot start seen g with
  | zero =>
    cases h
    exact ⟨[], rfl, trivial, by simp, by simpa using hstart⟩
  | succ shots ih =>
    obtain ⟨text, g₁, hshot, h⟩ := run_bind_eq_ok h
    obtain ⟨t, hplay, hbits, rfl⟩ := exists_trajectory_of_playShot hbase hfits hshot
    have hnext := hstart.insert (textOf c.numClbits.toNat fun b => t.bits.getD b false)
      (show (1 : UInt64) ≠ 0 by decide) (by
      have hone : (1 : UInt64).toNat = 1 := rfl
      omega)
    obtain ⟨ends, hlength, hplays, hall, htallies⟩ := ih hnext (by
      simp only [List.length_append, List.length_replicate, UInt64.toNat_one]
      omega) h
    refine ⟨t :: ends, by rw [List.length_cons, hlength], ⟨g₁, hplay, hplays⟩,
      List.forall_mem_cons.2 ⟨hbits, hall⟩, ?_⟩
    simpa using htallies

/-- The steps of a trajectory run that succeeded. -/
theorem sampleTrajectories_eq_ok (hvalid : c.validate = .ok ()) (hcompile : c.compile = .ok steps)
    (h : (sampleTrajectories c steps machine shots : Sampling R G Counts).run g =
      (.ok counts, g')) :
    ∃ zero base, Statevector.zero c.numQubits.toNat machine = .ok zero ∧
      zero.evolve (steps.takeWhile (·.isGate)) = .ok base ∧ base.HasWidth c.numQubits.toNat ∧
      (playShots c base (steps.dropWhile (·.isGate)) shots 0 .empty : Sampling R G Counts).run g =
        (.ok counts, g') := by
  have hfits := Circuit.compile_fits hvalid hcompile
  obtain ⟨zero, hzero, h⟩ := run_lift_bind_eq_ok h
  obtain ⟨base, hbase, h⟩ := run_lift_bind_eq_ok h
  have hzero := SimulationError.ofChecked_eq_ok.1 hzero
  obtain ⟨zero', hzero', hwidth⟩ :=
    Statevector.exists_zero_hasWidth (R := R) (Statevector.lt_of_zero_eq_ok hzero) machine
  cases hzero.symm.trans hzero'
  have hbaseWidth := (Statevector.robust_evolve hwidth fun step hstep =>
    hfits step (List.takeWhile_subset _ hstep)).of_eq_ok hbase
  exact ⟨zero, base, hzero, hbase, hbaseWidth, h⟩

theorem tallies_sampleTrajectories (hvalid : c.validate = .ok ()) (hcompile : c.compile = .ok steps)
    (hshots : shots < UInt64.size)
    (h : (sampleTrajectories c steps machine shots : Sampling R G Counts).run g =
      (.ok counts, g')) :
    ∃ zero base ends, Statevector.zero c.numQubits.toNat machine = .ok zero ∧
      zero.evolve (steps.takeWhile (·.isGate)) = .ok base ∧ ends.length = shots ∧
      Plays ⟨base, .replicate c.numClbits.toNat false⟩ (steps.dropWhile (·.isGate)) g ends ∧
      (∀ t ∈ ends, t.bits.size = c.numClbits.toNat) ∧
      counts.Tallies (ends.map fun t => textOf c.numClbits.toNat fun b => t.bits.getD b false) := by
  have hfits := Circuit.compile_fits hvalid hcompile
  obtain ⟨zero, base, hzero, hbase, hwidth, hrun⟩ := sampleTrajectories_eq_ok hvalid hcompile h
  obtain ⟨ends, hlength, hplays, hall, htallies⟩ := tallies_playShots hwidth
    (fun step hstep => hfits step (List.dropWhile_subset _ hstep)) Counts.tallies_empty
    (by simpa using hshots) hrun
  exact ⟨zero, base, ends, hzero, hbase, hlength, hplays, hall, by simpa using htallies⟩

theorem readsOut_of_sample (hvalid : c.validate = .ok ()) (hcompile : c.compile = .ok steps)
    (hmeasured : c.measurementMap ≠ []) (hshots : shots < UInt64.size) {method : String}
    (h : (sample c steps machine shots : Sampling R G (Counts × String)).run g =
      (.ok (counts, method), g')) : ReadsOut c steps machine shots g counts := by
  have hwidths {texts : List String} (htallies : counts.Tallies texts)
      (htexts : ∀ text ∈ texts, text.length = c.numClbits.toNat) :
      ∀ text ∈ counts.table.keys, text.length = c.numClbits.toNat :=
    fun text htext => htexts text ((htallies.mem_keys text).1 htext)
  unfold sample at h
  split at h
  next hmid =>
    obtain ⟨counts', _, hrun, h⟩ := run_bind_eq_ok h
    cases h
    obtain ⟨zero, base, ends, hzero, hbase, hlength, hplays, hall, htallies⟩ :=
      tallies_sampleTrajectories hvalid hcompile hshots hrun
    refine ⟨?_, hwidths htallies (by simp [length_textOf]), by simp [hmid],
      fun _ => ⟨zero, base, ends, hzero, hbase, hlength, hplays, hall, htallies⟩⟩
    rw [htallies.total_eq, List.length_map, hlength]
  next hmid =>
    obtain ⟨counts', _, hrun, h⟩ := run_bind_eq_ok h
    cases h
    obtain ⟨final, marginal, dist, hfinal, hmarginal, -, hdist, hlt, htallies⟩ :=
      tallies_sampleFinalState hvalid hcompile (readoutMap_eq hmeasured) hshots hrun
    refine ⟨?_, hwidths htallies (by simp [length_textOf]),
      fun _ => ⟨final, marginal, dist, hfinal, hmarginal, hdist, hlt, htallies⟩, by simp [hmid]⟩
    rw [htallies.total_eq, List.length_map, length_drawn]

end Measured

end Sampler

end QuantumSim
