import Mathlib
import QuantumSim.Proofs.Binding
import QuantumSim.Proofs.RegisterReadout

/-!
Sharing the first gates among shots. A circuit that is replayed for each shot runs the gates before
its first measurement or reset only once. The plain way starts every shot from zero and follows the
circuit instruction by instruction. Both draw alike, count alike and fail alike.
-/
namespace QuantumSim

variable {R G α β : Type} [Scalar R] [RandomSource G]

namespace Sampler

section Plain

/-- Plays one instruction of a circuit as it stands. -/
def playInstruction (t : Trajectory R) (inst : Instruction R) : Sampling R G (Trajectory R) :=
  match inst.operation with
  | .gate g => do
    let lowered ← lift g.kind.lower
    let s ← lift (t.state.applyChecked lowered g inst.qubits)
    return { t with state := s }
  | .measure => measurePairs t (inst.qubits.zip inst.clbits)
  | .reset =>
    inst.qubits.foldlM (fun t q => do return { t with state := ← t.state.reset q.index }) t
  | .barrier => return t

/-- Plays a shot from zero and reads the classical bits, with a given way to get through the
circuit. -/
def replayShot (c : Circuit R) (machine : Machine)
    (play : Trajectory R → Sampling R G (Trajectory R)) (shot : ℕ) : Sampling R G String := do
  let zero ← lift (SimulationError.ofChecked (Statevector.zero c.numQubits.toNat machine))
  let t ← play ⟨zero, Array.replicate c.numClbits.toNat false⟩
  lift (t.state.checkNorm (.shot shot c.name))
  return bitText t.bits

/-- Counts of the given number of shots that share nothing, the first one numbered `shot`. -/
def replayShots (c : Circuit R) (machine : Machine)
    (play : Trajectory R → Sampling R G (Trajectory R)) : ℕ → ℕ → Counts → Sampling R G Counts
  | 0, _, counts => return counts
  | n + 1, shot, counts => do
    let bits ← replayShot c machine play shot
    replayShots c machine play n (shot + 1) (counts.insert bits 1)

end Plain

section Lift

omit [Scalar R] [RandomSource G]

theorem lift_ok (a : α) : (lift (.ok a) : Sampling R G α) = pure a := rfl

theorem lift_error_bind (e : SimulationError R) (f : α → Sampling R G β) :
    (lift (.error e) >>= f) = lift (.error e) := rfl

theorem lift_bind (x : Except (SimulationError R) α) (f : α → Except (SimulationError R) β) :
    (lift (x >>= f) : Sampling R G β) = lift x >>= fun a => lift (f a) := by
  cases x with
  | error e => rfl
  | ok a => rfl

end Lift

section Steps

/-- Gates run without a draw, and leave the classical bits alone. -/
theorem playSteps_of_gates {steps : List (Step R)} (h : ∀ step ∈ steps, step.isGate = true)
    (s : Statevector R) (bits : Array Bool) :
    (steps.foldlM playStep ⟨s, bits⟩ : Sampling R G (Trajectory R)) =
      lift (s.evolve steps) >>= fun s => pure ⟨s, bits⟩ := by
  induction steps generalizing s with
  | nil => rfl
  | cons step steps ih =>
    obtain ⟨hstep, hrest⟩ := List.forall_mem_cons.1 h
    cases step with
    | measure pairs => cases hstep
    | reset q => cases hstep
    | gate lowered gate qubits =>
      have hfirst : (playStep ⟨s, bits⟩ (.gate lowered gate qubits) :
          Sampling R G (Trajectory R)) =
          lift (s.applyChecked lowered gate qubits) >>= fun s => pure ⟨s, bits⟩ := rfl
      have hevolve : s.evolve (.gate lowered gate qubits :: steps) =
          s.applyChecked lowered gate qubits >>= fun s => s.evolve steps := rfl
      rw [List.foldlM_cons, hfirst, hevolve, lift_bind]
      simp only [bind_assoc, pure_bind, ih hrest]

/-- The steps of one instruction do what the instruction says. -/
theorem playSteps_ofInstruction {inst : Instruction R} {steps : List (Step R)}
    (h : Step.ofInstruction inst = .ok steps) (t : Trajectory R) :
    (steps.foldlM playStep t : Sampling R G (Trajectory R)) = playInstruction t inst := by
  obtain ⟨operation, qubits, clbits⟩ := inst
  cases operation with
  | gate g =>
    obtain ⟨lowered, hlower, h⟩ := bind_eq_ok.1 h
    cases h
    rw [List.foldlM_cons]
    simp only [List.foldlM_nil, bind_pure, playInstruction, hlower, lift_ok, pure_bind]
    rfl
  | measure =>
    cases h
    rw [List.foldlM_cons]
    simp only [List.foldlM_nil, bind_pure]
    rfl
  | reset =>
    cases h
    rw [List.foldlM_map]
    rfl
  | barrier =>
    cases h
    rfl

/-- The steps of a circuit in a row do what its instructions say. -/
theorem playSteps_compile {c : Circuit R} {steps : List (Step R)} (h : c.compile = .ok steps)
    (t : Trajectory R) :
    (steps.foldlM playStep t : Sampling R G (Trajectory R)) =
      c.instructions.foldlM playInstruction t := by
  obtain ⟨stepss, hstepss, rfl⟩ := Circuit.compile_eq_ok h
  clear h
  generalize c.instructions = insts at hstepss
  induction insts generalizing stepss t with
  | nil =>
    cases hstepss
    rfl
  | cons inst insts ih =>
    obtain ⟨part, rest, hpart, hrest, rfl⟩ := Circuit.mapM_cons_eq_ok hstepss
    rw [List.flatten_cons, List.foldlM_append, List.foldlM_cons, playSteps_ofInstruction hpart]
    exact bind_congr fun t => ih t rest hrest

end Steps

section Sharing

variable (c : Circuit R) (steps : List (Step R)) (machine : Machine)

/-- The state that all shots share: zero after the gates before the first other step. -/
def sharedState : Except (SimulationError R) (Statevector R) := do
  let zero ← SimulationError.ofChecked (Statevector.zero c.numQubits.toNat machine)
  zero.evolve (steps.takeWhile (·.isGate))

/-- A shot from zero first computes the shared state and then goes on like any other shot. -/
theorem replayShot_eq (shot : ℕ) :
    (replayShot c machine (steps.foldlM playStep) shot : Sampling R G String) =
      lift (sharedState c steps machine) >>= fun base =>
        playShot c base (steps.dropWhile (·.isGate)) shot := by
  have hgates : ∀ step ∈ steps.takeWhile (·.isGate), step.isGate = true :=
    fun step hstep => List.mem_takeWhile_imp hstep
  have hplay (zero : Statevector R) (bits : Array Bool) :
      (steps.foldlM playStep ⟨zero, bits⟩ : Sampling R G (Trajectory R)) =
        lift (zero.evolve (steps.takeWhile (·.isGate))) >>= fun base =>
          (steps.dropWhile (·.isGate)).foldlM playStep ⟨base, bits⟩ := by
    conv_lhs => rw [← List.takeWhile_append_dropWhile (p := (·.isGate)) (l := steps)]
    rw [List.foldlM_append, playSteps_of_gates hgates]
    simp only [bind_assoc, pure_bind]
  unfold replayShot sharedState
  rw [lift_bind]
  simp only [hplay, bind_assoc]
  rfl

/-- Where the shared state exists, shots that share it are the same as shots that do not. -/
theorem replayShots_of_ok {base : Statevector R} (h : sharedState c steps machine = .ok base)
    (shots shot : ℕ) (counts : Counts) :
    (replayShots c machine (steps.foldlM playStep) shots shot counts : Sampling R G Counts) =
      playShots c base (steps.dropWhile (·.isGate)) shots shot counts := by
  induction shots generalizing shot counts with
  | zero => rfl
  | succ shots ih =>
    unfold replayShots playShots
    rw [replayShot_eq, h, lift_ok, pure_bind]
    simp only [ih]

/-- Where it does not, the first shot already fails. -/
theorem replayShots_of_error {e : SimulationError R} (h : sharedState c steps machine = .error e)
    {shots : ℕ} (hshots : 0 < shots) (shot : ℕ) (counts : Counts) :
    (replayShots c machine (steps.foldlM playStep) shots shot counts : Sampling R G Counts) =
      lift (.error e) := by
  obtain ⟨n, rfl⟩ := Nat.exists_eq_succ_of_ne_zero hshots.ne'
  unfold replayShots
  rw [replayShot_eq, h, lift_error_bind, lift_error_bind]

theorem sampleTrajectories_eq_replayShots {shots : ℕ} (hshots : 0 < shots) :
    (sampleTrajectories c steps machine shots : Sampling R G Counts) =
      replayShots c machine (steps.foldlM playStep) shots 0 .empty := by
  have hshared : (sampleTrajectories c steps machine shots : Sampling R G Counts) =
      lift (sharedState c steps machine) >>= fun base =>
        playShots c base (steps.dropWhile (·.isGate)) shots 0 .empty := by
    unfold sampleTrajectories sharedState
    rw [lift_bind, bind_assoc]
  rw [hshared]
  cases h : sharedState c steps machine with
  | ok base => rw [replayShots_of_ok c steps machine h, lift_ok, pure_bind]
  | error e => rw [replayShots_of_error c steps machine h hshots, lift_error_bind]

end Sharing

end Sampler

namespace ExecutionRequest

open Sampler

theorem shots_pos {r : ExecutionRequest R} (hvalid : r.validate = .ok ())
    (hmode : r.options.mode = .sampled) : 0 < r.options.shots.toNat := by
  have hoptions := (reachesObservables_of_validate hvalid).options
  unfold RunOptions.validate at hoptions
  split at hoptions
  next => cases hoptions
  next hshots =>
    have hnonzero : r.options.shots.toNat ≠ 0 := fun hzero =>
      hshots ⟨hmode, UInt32.toNat_inj.1 hzero⟩
    omega

/-- The data of a sampled result are the counts of the sampler that the circuit calls for. -/
theorem execute_data_eq {r : ExecutionRequest R} (hmode : r.options.mode = .sampled)
    {steps : List (Step R)} (hcompile : r.boundCircuit.compile = .ok steps) (e : Engine) (index : ℕ)
    (given : Conditions) :
    (e.execute index r given).map ExecutionResult.data =
      ((sample r.boundCircuit steps (e.machine given) r.options.shots.toNat :
        Sampling R Random.Stream (Counts × String)).run
          (.ofSeed (e.seedFor r given.entropy))).1.map fun drawn => .counts drawn.1 := by
  unfold Engine.execute
  simp only [hcompile, ok_bind, hmode]
  unfold Engine.runSampled
  dsimp only
  cases ((sample r.boundCircuit steps (e.machine given) r.options.shots.toNat :
    Sampling R Random.Stream (Counts × String)).run (.ofSeed (e.seedFor r given.entropy))).1 <;> rfl

/-- For an accepted sampled request whose circuit measures or resets on the way, any positive number
of shots and every state of a random source: running the first gates once for all shots has the same
counts or the same failure, and leaves the source in the same state, as starting every shot from
zero and playing all steps, or all instructions, in order. The counts of the engine come about in
this way. -/
theorem run_sampleTrajectories_eq {r : ExecutionRequest R} (hvalid : r.validate = .ok ())
    (hmode : r.options.mode = .sampled) (hmid : r.circuit.hasMidCircuitMeasurement = true)
    {steps : List (Step R)} (hcompile : r.boundCircuit.compile = .ok steps) :
    let c := r.boundCircuit
    let shots := r.options.shots.toNat
    (∀ (G : Type) [RandomSource G] (machine : Machine) (shots : ℕ) (g : G), 0 < shots →
      (sampleTrajectories c steps machine shots : Sampling R G Counts).run g =
          (replayShots c machine (steps.foldlM playStep) shots 0 .empty).run g ∧
        (sampleTrajectories c steps machine shots : Sampling R G Counts).run g =
          (replayShots c machine (c.instructions.foldlM playInstruction) shots 0 .empty).run g) ∧
      0 < shots ∧
      ∀ (e : Engine) (index : ℕ) (given : Conditions),
        (e.execute index r given).map ExecutionResult.data =
          ((replayShots c (e.machine given) (c.instructions.foldlM playInstruction) shots 0 .empty :
            Sampling R Random.Stream Counts).run
              (.ofSeed (e.seedFor r given.entropy))).1.map ResultData.counts := by
  intro c shots
  have hplay {G : Type} [RandomSource G] :
      (fun t => steps.foldlM playStep t : Trajectory R → Sampling R G (Trajectory R)) =
        fun t => c.instructions.foldlM playInstruction t :=
    funext fun t => playSteps_compile hcompile t
  have hshots : 0 < shots := shots_pos hvalid hmode
  refine ⟨fun G _ machine shots g hpos => ?_, hshots, fun e index given => ?_⟩
  · have hsame := sampleTrajectories_eq_replayShots (G := G) c steps machine hpos
    exact ⟨by rw [hsame], by rw [hsame, hplay]⟩
  · have hmid' : c.hasMidCircuitMeasurement = true :=
      r.boundCircuit_hasMidCircuitMeasurement.trans hmid
    rw [execute_data_eq hmode hcompile, ← hplay,
      ← sampleTrajectories_eq_replayShots c steps (e.machine given) hshots]
    unfold sample
    rw [hmid']
    rw [if_pos rfl]
    cases hrun : (sampleTrajectories c steps (e.machine given) shots :
        Sampling R Random.Stream Counts).run (.ofSeed (e.seedFor r given.entropy)) with
    | mk drawn g' =>
      cases drawn with
      | ok counts =>
        rw [run_bind_of_ok hrun]
        rfl
      | error cause =>
        rw [run_bind_of_error hrun]
        rfl

/-- Two gates and a barrier before the first measurement, a reset of two qubits and a gate after it,
played three times. -/
theorem run_sampleTrajectories_eq_reused :
    let c : Circuit Float := ⟨"reused", 2, 2, [.standard (.plain .h) [⟨0⟩], .barrier [⟨0⟩, ⟨1⟩],
      .standard (.plain .cx) [⟨0⟩, ⟨1⟩], .measure [⟨0⟩] [⟨1⟩], ⟨.reset, [⟨1⟩, ⟨0⟩], []⟩,
      .standard (.plain .h) [⟨1⟩], .measure [⟨1⟩] [⟨0⟩]]⟩
    let r : ExecutionRequest Float := ⟨c, .sampled 3⟩
    let machine : Machine :=
      { parallelThreshold := some 4, divide := fun _ => .cut 3 .whole .whole }
    r.validate = .ok () ∧ r.options.mode = .sampled ∧ c.hasMidCircuitMeasurement = true ∧
      ∃ steps, c.compile = .ok steps ∧ (steps.takeWhile (·.isGate)).length = 2 ∧
        ∀ g : Random.Stream,
          (sampleTrajectories c steps machine 3 : Sampling Float Random.Stream Counts).run g =
            (replayShots c machine (c.instructions.foldlM playInstruction) 3 0 .empty).run g := by
  intro c r machine
  have hvalid : r.validate = .ok () :=
    validate_eq_ok.2 ⟨⟨rfl, rfl, by decide⟩, rfl, by decide +kernel⟩
  have hprefix : c.compile.toOption.map (fun steps => (steps.takeWhile (·.isGate)).length) =
      some 2 := by decide +kernel
  obtain ⟨steps, hcompile, hlength⟩ :
      ∃ steps, c.compile = .ok steps ∧ (steps.takeWhile (·.isGate)).length = 2 := by
    cases h : c.compile with
    | error e =>
      rw [h] at hprefix
      cases hprefix
    | ok steps =>
      rw [h] at hprefix
      exact ⟨steps, rfl, Option.some.inj hprefix⟩
  obtain ⟨hsame, -⟩ := run_sampleTrajectories_eq hvalid rfl rfl hcompile
  exact ⟨hvalid, rfl, rfl, steps, hcompile, hlength,
    fun g => (hsame Random.Stream machine 3 g (by decide)).2⟩

end ExecutionRequest

end QuantumSim
