import QuantumSim.Circuit.Analysis
import QuantumSim.State.Measurement

/-!
Programs: circuits lowered for execution. Barriers are gone, resets name one qubit each, and
measurements pair qubits with classical bits.
-/
namespace QuantumSim

inductive Step (R : Type) where
  | gate (lowered : LoweredGate R) (gate : Gate R) (qubits : List Qubit)
  | measure (pairs : List (Qubit × Clbit))
  | reset (qubit : Qubit)

namespace Step

variable {R : Type} [Scalar R]

omit [Scalar R] in
def isGate : Step R → Bool
  | gate .. => true
  | _ => false

/-- The steps of one instruction. -/
def ofInstruction (inst : Instruction R) : Except (SimulationError R) (List (Step R)) :=
  match inst.operation with
  | .gate g => do return [.gate (← g.kind.lower) g inst.qubits]
  | .measure => .ok [.measure (inst.qubits.zip inst.clbits)]
  | .reset => .ok (inst.qubits.map .reset)
  | .barrier => .ok []

end Step

/-- The steps of a circuit in order. -/
def Circuit.compile {R : Type} [Scalar R] (c : Circuit R) :
    Except (SimulationError R) (List (Step R)) := do
  return (← c.instructions.mapM Step.ofInstruction).flatten

namespace Statevector

variable {R : Type} [Scalar R]

/-- The check of the norm that only a build with debug assertions makes. -/
def assertNorm (s : Statevector R) (context : NormContext) : Except (SimulationError R) Unit :=
  if s.machine.debugAssertions then s.checkNorm context else .ok ()

/-- Applies a gate and asserts the norm. -/
def applyChecked (s : Statevector R) (lowered : LoweredGate R) (gate : Gate R)
    (qubits : List Qubit) : Except (SimulationError R) (Statevector R) := do
  let s ← s.applyLowered lowered gate qubits
  s.assertNorm (.gate gate.name)
  return s

/-- Applies the gates among the steps; measurements at the end do not change the state before
them. -/
def evolve (s : Statevector R) (steps : List (Step R)) :
    Except (SimulationError R) (Statevector R) :=
  steps.foldlM (fun s step =>
    match step with
    | .gate lowered gate qubits => s.applyChecked lowered gate qubits
    | _ => .ok s) s

end Statevector

/-- Classical bits as text, bit 0 rightmost. -/
def bitText (bits : Array Bool) : String :=
  String.ofList (bits.toList.reverse.map fun b => if b then '1' else '0')

/-- Sets a classical bit. -/
def writeBit (bits : Array Bool) (c : Clbit) (value : Bool) : Checked (Array Bool) :=
  if c.index < bits.size then .ok (bits.setIfInBounds c.index value) else .error .index

end QuantumSim
