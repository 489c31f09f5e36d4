import QuantumSim.Counts
import QuantumSim.Program

/-!
Sampled execution. A circuit whose outcomes influence nothing is evolved once, and every shot is
drawn from its final state; any other circuit is replayed for each shot.
-/
namespace QuantumSim.Sampler

variable {R : Type} [Scalar R] {G : Type} [RandomSource G]

/-- A step that cannot draw, inside a sampled run. -/
def lift {α : Type} (e : Except (SimulationError R) α) : Sampling R G α := ExceptT.mk (pure e)

omit [Scalar R] in
/-- Which qubit is read into which classical bit, and the number of characters. Without measurements
the whole register is read, qubit `j` into bit `j`. -/
def readoutMap (c : Circuit R) : List (Qubit × Clbit) × Nat :=
  let map := c.measurementMap
  if map.isEmpty then
    ((Qubit.range c.numQubits).map fun q => (q, ⟨q.id⟩), c.numQubits.toNat)
  else (map, c.numClbits.toNat)

/-- The position of a qubit among the measured ones. -/
def placeOf (measured : List Qubit) (q : Qubit) : Checked Nat :=
  let j := measured.idxOf q
  if j < measured.length then .ok j else .error .index

/-- The text of a marginal outcome over the given measured qubits. The last write to a classical bit
counts. -/
def readoutText (map : List (Qubit × Clbit)) (measured : List Qubit) (width outcome : Nat) :
    Checked String := do
  let bits ← map.foldlM (fun bits pair => do
    let value ← bitAt outcome (← placeOf measured pair.1)
    writeBit bits pair.2 (value == 1)) (Array.replicate width false)
  return bitText bits

/-- Adds the given number of draws to a histogram over outcomes. -/
def drawOutcomes (dist : WeightedIndex R) : Nat → Array UInt64 → G → Array UInt64 × G
  | 0, histogram, g => (histogram, g)
  | n + 1, histogram, g =>
    let (x, g) := RandomSource.draw R g
    drawOutcomes dist n (histogram.modify (dist.select x) (· + 1)) g

/-- Counts of a histogram, with outcomes that read alike added up. -/
def histogramCounts (map : List (Qubit × Clbit)) (measured : List Qubit) (width : Nat)
    (histogram : List (UInt64 × Nat)) : Checked Counts :=
  histogram.foldlM (fun counts entry =>
    if entry.1 = 0 then .ok counts
    else do return counts.insert (← readoutText map measured width entry.2) entry.1) .empty

/-- The final state of a circuit whose measurements are left out. -/
def finalState (c : Circuit R) (steps : List (Step R)) (machine : Machine) :
    Except (SimulationError R) (Statevector R) := do
  let s ← SimulationError.ofChecked (Statevector.zero c.numQubits.toNat machine)
  let s ← s.evolve steps
  s.checkNorm (.circuit c.name)
  return s

/-- Draws every shot from the final state. -/
def sampleFinalState (c : Circuit R) (steps : List (Step R)) (machine : Machine)
    (shots : Nat) : Sampling R G Counts := do
  let s ← lift (finalState c steps machine)
  let (map, width) := readoutMap c
  let measured := Circuit.distinctQubits (map.map (·.1))
  let marginal ← lift (SimulationError.ofChecked (s.marginalProbabilities measured))
  let dist ← lift ((WeightedIndex.create marginal.toList).mapError .sampling)
  let histogram ← modifyGet (drawOutcomes dist shots (Array.replicate marginal.size 0))
  lift (SimulationError.ofChecked (histogramCounts map measured width histogram.toList.zipIdx))

/-- A state with the classical bits written so far. -/
structure Trajectory (R : Type) where
  state : Statevector R
  bits : Array Bool

section Play

variable {m : Type → Type} [Monad m] [Measuring R m]

/-- Measures pairs in order and writes each outcome. -/
@[specialize] def measurePairs (t : Trajectory R) (pairs : List (Qubit × Clbit)) :
    m (Trajectory R) :=
  pairs.foldlM (fun t pair => do
    let (outcome, s) ← Measuring.measure t.state pair.1.index
    let bits ← Measuring.lift (SimulationError.ofChecked (writeBit t.bits pair.2 outcome))
    return ⟨s, bits⟩) t

@[specialize] def playStep (t : Trajectory R) : Step R → m (Trajectory R)
  | .gate lowered gate qubits => do
    return { t with state := ← Measuring.lift (t.state.applyChecked lowered gate qubits) }
  | .measure pairs => measurePairs t pairs
  | .reset q => do return { t with state := ← t.state.reset q.index }

/-- Plays steps from a state and reads the classical bits. -/
@[specialize] def playShot (c : Circuit R) (base : Statevector R) (steps : List (Step R))
    (shot : Nat) :
    m String := do
  let t ← steps.foldlM playStep ⟨base, Array.replicate c.numClbits.toNat false⟩
  Measuring.lift (t.state.checkNorm (.shot shot c.name))
  return bitText t.bits

end Play

/-- Plays the given number of shots, the first one numbered `shot`. -/
def playShots (c : Circuit R) (base : Statevector R) (steps : List (Step R)) :
    Nat → Nat → Counts → Sampling R G Counts
  | 0, _, counts => return counts
  | n + 1, shot, counts => do
    let bits ← playShot c base steps shot
    playShots c base steps n (shot + 1) (counts.insert bits 1)

/-- Replays the circuit for each shot. The gates before the first measurement or reset are the same
in every shot and run once. -/
def sampleTrajectories (c : Circuit R) (steps : List (Step R)) (machine : Machine)
    (shots : Nat) : Sampling R G Counts := do
  let s ← lift (SimulationError.ofChecked (Statevector.zero c.numQubits.toNat machine))
  let base ← lift (s.evolve (steps.takeWhile (·.isGate)))
  playShots c base (steps.dropWhile (·.isGate)) shots 0 .empty

/-- Counts of a sampled run, and the name of the way they were drawn. -/
def sample (c : Circuit R) (steps : List (Step R)) (machine : Machine) (shots : Nat) :
    Sampling R G (Counts × String) :=
  if c.hasMidCircuitMeasurement then
    return (← sampleTrajectories c steps machine shots, "trajectory")
  else return (← sampleFinalState c steps machine shots, "statevector")

end QuantumSim.Sampler
