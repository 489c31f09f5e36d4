import QuantumSim.Instruction
import QuantumSim.Kernel
import QuantumSim.State.Error

/-!
Dense states: an amplitude for every basis index of a register, and the gates that act on it. A
state knows the machine that works on it: reductions over large states are divided among workers,
each of which folds its own stretch, and the results are merged in the shape of the division.
-/
namespace QuantumSim

/-- A way to divide a range of indices among workers: left whole, or cut after a number of indices
with both parts divided on. -/
inductive Split where
  | whole
  | cut (length : Nat) (left right : Split)
  deriving Repr, DecidableEq, Inhabited

/-- Folds the range from `start` to `stop`: `leaf` on each stretch, `merge` at each cut. -/
def Split.reduce {β : Type} (leaf : Nat → Nat → β) (merge : β → β → β) : Split → Nat → Nat → β
  | whole, start, stop => leaf start stop
  | cut length left right, start, stop =>
    let middle := min (start + length) stop
    merge (reduce leaf merge left start middle) (reduce leaf merge right middle stop)

/-- The machine of one run. -/
structure Machine where
  /-- The size from which reductions are divided among workers. -/
  parallelThreshold : Option Nat := none
  /-- How this run divides a reduction over a state of the given size. Which workers are free
  decides, so that two runs may divide it differently. -/
  divide : Nat → Split := fun _ => .whole
  /-- Whether the build has debug assertions: the norm is then checked after every gate. -/
  debugAssertions : Bool := true

/-- How a reduction over a state of the given size is divided: not at all below the threshold. -/
def Machine.split (m : Machine) (size : Nat) : Split :=
  match m.parallelThreshold with
  | some threshold => if threshold ≤ size then m.divide size else .whole
  | none => .whole

structure Statevector (R : Type) where
  numQubits : Nat
  amplitudes : Array (Amplitude R)
  machine : Machine := {}

namespace Statevector

variable {R : Type} [Scalar R]

/-- All qubits zero. -/
def zero (numQubits : Nat) (machine : Machine) : Checked (Statevector R) := do
  let size ← bitMask numQubits
  let amps := Array.replicate size Amplitude.zero
  return ⟨numQubits, amps.setIfInBounds 0 Amplitude.one, machine⟩

def size {R : Type} (s : Statevector R) : Nat := s.amplitudes.size

/-- The position of an operand qubit, which has to be in the register. -/
def position {R : Type} (s : Statevector R) (gate : String) (q : Qubit) :
    Except (SimulationError R) Nat :=
  if q.index < s.numQubits then .ok q.index
  else .error (.circuit (.qubitNotFound q s.numQubits.toUInt32 (some gate)))

/-- The control condition of leading operands, which fire on one, and extra controls. -/
def controlMask {R : Type} (s : Statevector R) (gate : String) (leading : List Qubit)
    (controls : List Control) : Except (SimulationError R) ControlMask := do
  let addOne (mask : ControlMask) (q : Qubit) (onOne : Bool) :
      Except (SimulationError R) ControlMask := do
    SimulationError.ofChecked (mask.add (← s.position gate q) onOne)
  let mask ← leading.foldlM (fun mask q => addOne mask q true) {}
  controls.foldlM (fun mask c => addOne mask c.qubit (c.polarity == .positive)) mask

/-- Applies a lowered gate to operands. Operands are checked here for range and number only. -/
def applyLowered (s : Statevector R) (lowered : LoweredGate R) (gate : Gate R)
    (operands : List Qubit) : Except (SimulationError R) (Statevector R) := do
  let ctrl ← s.controlMask gate.name (operands.take lowered.controls) gate.controls
  match lowered.operator, operands.drop lowered.controls with
  | .diagonal zero one, [t] =>
    let t ← s.position gate.name t
    let amps ← SimulationError.ofChecked (Kernel.applyDiagonal zero one t ctrl s.amplitudes)
    return { s with amplitudes := amps }
  | .single m, [t] =>
    let t ← s.position gate.name t
    let amps ← SimulationError.ofChecked (Kernel.applySingle m t ctrl s.amplitudes)
    return { s with amplitudes := amps }
  | .double m, [first, second] =>
    let first ← s.position gate.name first
    let second ← s.position gate.name second
    let amps ← SimulationError.ofChecked (Kernel.applyDouble m first second ctrl s.amplitudes)
    return { s with amplitudes := amps }
  | _, _ =>
    .error (.circuit (.operandCount gate.name gate.numQubits operands.length.toUInt32))

end Statevector

/-- The operator of a gate without symbols. -/
def GateKind.lower {R : Type} [Scalar R] : GateKind R → Except (SimulationError R) (LoweredGate R)
  | .standard g =>
    match g.resolve (Parameter.resolve .empty) with
    | .ok g => .ok g.lower
    | .error e => .error (.circuit (.parameter e))
  | .matrix g => g.lower.mapError .nonUnitary

namespace Statevector

variable {R : Type} [Scalar R]

/-- Applies a gate instruction; every other instruction leaves the state alone. -/
def apply (s : Statevector R) (inst : Instruction R) : Except (SimulationError R) (Statevector R) :=
  match inst.operation with
  | .gate g => do
    let lowered ← g.kind.lower
    s.applyLowered lowered g inst.qubits
  | _ => .ok s

/-- Applies the gates of a list of instructions in order, up to the first that fails: the state
reached, and the cause of a failure. -/
def advance (s : Statevector R) : List (Instruction R) → Statevector R × Option (SimulationError R)
  | [] => (s, none)
  | inst :: rest =>
    match s.apply inst with
    | .ok s => s.advance rest
    | .error e => (s, some e)

/-- Applies the gates of a list of instructions, all or none. -/
def applyAll (s : Statevector R) (insts : List (Instruction R)) :
    Except (SimulationError R) (Statevector R) :=
  match s.advance insts with
  | (reached, none) => .ok reached
  | (_, some e) => .error e

/-- Flips a qubit. -/
def flip (s : Statevector R) (qubit : Nat) : Except (SimulationError R) (Statevector R) := do
  let amps ← SimulationError.ofChecked (Kernel.applySingle .x qubit {} s.amplitudes)
  return { s with amplitudes := amps }

end Statevector

end QuantumSim
