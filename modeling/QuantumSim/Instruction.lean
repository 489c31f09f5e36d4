import QuantumSim.Gate

/-!
Instructions: a gate, a measurement, a reset or a barrier, with its operands.
-/
namespace QuantumSim

inductive Operation (R : Type) where
  | gate (gate : Gate R)
  /-- Reads each qubit into the classical bit at the same position. -/
  | measure
  /-- Returns each qubit to zero. -/
  | reset
  /-- Leaves the state alone. -/
  | barrier

structure Instruction (R : Type) where
  operation : Operation R
  qubits : List Qubit
  clbits : List Clbit := []

namespace Instruction

variable {R : Type}

def ofGate (g : Gate R) (qubits : List Qubit) : Instruction R := ⟨.gate g, qubits, []⟩

def standard (g : StandardGate (Parameter R)) (qubits : List Qubit) : Instruction R :=
  ofGate (.ofStandard g) qubits

def measure (qubits : List Qubit) (clbits : List Clbit) : Instruction R :=
  ⟨.measure, qubits, clbits⟩

def reset (qubit : Qubit) : Instruction R := ⟨.reset, [qubit], []⟩

def barrier (qubits : List Qubit) : Instruction R := ⟨.barrier, qubits, []⟩

def gate? (inst : Instruction R) : Option (Gate R) :=
  match inst.operation with
  | .gate g => some g
  | _ => none

def isGate (inst : Instruction R) : Bool :=
  match inst.operation with
  | .gate _ => true
  | _ => false

def isMeasure (inst : Instruction R) : Bool :=
  match inst.operation with
  | .measure => true
  | _ => false

def isReset (inst : Instruction R) : Bool :=
  match inst.operation with
  | .reset => true
  | _ => false

def isBarrier (inst : Instruction R) : Bool :=
  match inst.operation with
  | .barrier => true
  | _ => false

/-- Extra controls, if the instruction is a gate. -/
def controls (inst : Instruction R) : List Control :=
  match inst.operation with
  | .gate g => g.controls
  | _ => []

/-- The operands followed by the extra control qubits. -/
def allQubits (inst : Instruction R) : List Qubit := inst.qubits ++ inst.controls.map (·.qubit)

def name (inst : Instruction R) : String :=
  match inst.operation with
  | .gate g => g.name
  | .measure => "measure"
  | .reset => "reset"
  | .barrier => "barrier"

def bind [Scalar R] (bindings : Bindings R) (inst : Instruction R) : Instruction R :=
  match inst.operation with
  | .gate g => { inst with operation := .gate (g.bind bindings) }
  | _ => inst

end Instruction

end QuantumSim
