import QuantumSim.Random.Stream
import QuantumSim.State.Readout

/-!
Projective measurement and reset of single qubits.
-/
namespace QuantumSim

/-- A run that draws from a random source and may fail; the source moves on either way. -/
abbrev Sampling (R G : Type) := ExceptT (SimulationError R) (StateM G)

namespace Statevector

variable {R : Type} [Scalar R]

/-- The probabilities of reading zero and one under a bit mask, added in index order. -/
def outcomeProbabilities (s : Statevector R) (mask : Nat) : R × R :=
  (List.range s.size).foldl (fun acc i =>
    let p := s.term (fun _ a => a.normSq) i
    if i &&& mask = 0 then (acc.1 + p, acc.2) else (acc.1, acc.2 + p)) (Scalar.zero, Scalar.zero)

/-- The mask and outcome probabilities of a qubit, which have to add up to one. -/
def outcomes (s : Statevector R) (qubit : Nat) : Except (SimulationError R) (Nat × R × R) := do
  let mask ← SimulationError.ofChecked (bitMask qubit)
  let p := s.outcomeProbabilities mask
  if Scalar.lt Scalar.tolerance (Scalar.abs ((p.1 + p.2) - Scalar.one)) then
    throw (.inconsistentMeasurement qubit.toUInt32 (.total (p.1 + p.2)))
  return (mask, p.1, p.2)

/-- Keeps the amplitudes with the given value under the mask, divided by the root of its
probability, and clears the others. -/
def collapse (s : Statevector R) (mask : Nat) (outcome : Bool) (p : R) : Statevector R :=
  let scale := Scalar.one / Scalar.sqrt p
  let amps := s.amplitudes.mapIdx fun i a =>
    if (i &&& mask != 0) == outcome then a.scale scale else Amplitude.zero
  { s with amplitudes := amps }

/-- Measures a qubit with the given outcome probabilities: one if the draw is below the second. -/
def project (s : Statevector R) (qubit mask : Nat) (p0 p1 draw : R) :
    Except (SimulationError R) (Bool × Statevector R) :=
  let outcome := Scalar.lt draw p1
  let p := if outcome then p1 else p0
  if Scalar.le p Scalar.zero then
    .error (.inconsistentMeasurement qubit.toUInt32 (.impossible outcome p))
  else .ok (outcome, s.collapse mask outcome p)

/-- Measures a qubit with a draw from the unit interval. -/
def measureWith (s : Statevector R) (qubit : Nat) (draw : R) :
    Except (SimulationError R) (Bool × Statevector R) := do
  let (mask, p0, p1) ← s.outcomes qubit
  s.project qubit mask p0 p1 draw

/-- Flips a qubit that was measured as one. -/
def clear (s : Statevector R) (qubit : Nat) (outcome : Bool) :
    Except (SimulationError R) (Statevector R) :=
  if outcome then s.flip qubit else .ok s

/-- Resets a qubit with a draw from the unit interval. -/
def resetWith (s : Statevector R) (qubit : Nat) (draw : R) :
    Except (SimulationError R) (Statevector R) := do
  let (outcome, s) ← s.measureWith qubit draw
  s.clear qubit outcome

variable {G : Type} [RandomSource G]

/-- Measures a qubit. The source moves by one word once the outcome probabilities are accepted. -/
def measure (s : Statevector R) (qubit : Nat) : Sampling R G (Bool × Statevector R) := do
  let (mask, p0, p1) ← liftExcept (s.outcomes qubit)
  let draw ← modifyGet (RandomSource.draw R)
  liftExcept (s.project qubit mask p0 p1 draw)
where
  liftExcept {α : Type} (e : Except (SimulationError R) α) : Sampling R G α := ExceptT.mk (pure e)

end Statevector

/-- Runs in which qubits are measured: how a computation without choices enters a run, and what
measuring a qubit does in it. -/
class Measuring (R : outParam Type) (m : Type → Type) where
  lift {α : Type} : Except (SimulationError R) α → m α
  measure : Statevector R → Nat → m (Bool × Statevector R)

/-- A sampled run draws the outcome. -/
@[always_inline, inline] instance {R G : Type} [Scalar R] [RandomSource G] :
    Measuring R (Sampling R G) where
  lift e := ExceptT.mk (pure e)
  measure := Statevector.measure

/-- Returns a qubit to zero by measuring it and flipping it on one. -/
@[specialize] def Statevector.reset {R : Type} [Scalar R] {m : Type → Type} [Monad m]
    [Measuring R m] (s : Statevector R) (qubit : Nat) : m (Statevector R) := do
  let (outcome, s) ← Measuring.measure s qubit
  Measuring.lift (s.clear qubit outcome)

end QuantumSim
