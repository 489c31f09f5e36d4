import QuantumSim.Fault
import QuantumSim.Gate

/-!
What can be wrong with a circuit, and the wording of each cause.
-/
namespace QuantumSim

/-- Name and register sizes of a circuit. -/
structure CircuitSize where
  name : String
  numQubits : UInt32
  numClbits : UInt32
  deriving Repr, DecidableEq

inductive CircuitError (R : Type) where
  | qubitNotFound (qubit : Qubit) (numQubits : UInt32) (gate : Option String)
  | clbitNotFound (clbit : Clbit) (numClbits : UInt32)
  | operandCount (gate : String) (expected got : UInt32)
  | parameterCount (gate : String) (expected got : Nat)
  | unknownGate (name : String)
  | invalidMatrix (cause : MatrixError)
  | parameter (cause : ParameterError R)
  | duplicateQubit (qubit : Qubit) (gate : Option String)
  /-- The part is larger than the circuit it is added to. -/
  | incompatible (part whole : CircuitSize)
  | fault (cause : Fault)

namespace ParameterError

def message : ParameterError Float → String
  | unbound name => "Parameter '" ++ name ++ "' is unbound"
  | notFinite p => "Parameter '" ++ p.text ++ "' is not finite"

end ParameterError

namespace CircuitSize

def text (s : CircuitSize) : String :=
  "'" ++ s.name ++ "' (" ++ toString s.numQubits ++ "q, " ++ toString s.numClbits ++ "c)"

end CircuitSize

namespace CircuitError

/-- The gate an error arose in, after the rest of its text. -/
def gateContext : Option String → String
  | some name => " (gate: " ++ name ++ ")"
  | none => ""

/-- The name of the cause. -/
def kind {R : Type} : CircuitError R → String
  | qubitNotFound .. => "QubitNotFound"
  | clbitNotFound .. => "ClbitNotFound"
  | operandCount .. => "QubitCountMismatch"
  | parameterCount .. => "ParameterCountMismatch"
  | unknownGate _ => "UnknownGate"
  | invalidMatrix _ => "InvalidMatrix"
  | parameter (.unbound _) => "UnboundParameter"
  | parameter (.notFinite _) => "NonFiniteParameter"
  | duplicateQubit .. => "DuplicateQubit"
  | incompatible .. => "IncompatibleCircuits"
  | fault _ => "Fault"

def message : CircuitError Float → String
  | qubitNotFound q n gate =>
    "Qubit " ++ q.text ++ " out of range for a " ++ toString n ++ "-qubit circuit" ++
      gateContext gate
  | clbitNotFound c n =>
    "Classical bit " ++ c.text ++ " out of range for " ++ toString n ++ " classical bits"
  | operandCount gate expected got =>
    "Gate '" ++ gate ++ "' requires " ++ toString expected ++ " qubits, got " ++ toString got
  | parameterCount gate expected got =>
    "Gate '" ++ gate ++ "' takes " ++ toString expected ++ " parameters, got " ++ toString got
  | unknownGate name => "Unknown gate '" ++ name ++ "'"
  | invalidMatrix cause => "Invalid unitary matrix: " ++ cause.message
  | parameter cause => cause.message
  | duplicateQubit q gate => "Duplicate qubit " ++ q.text ++ " in operation" ++ gateContext gate
  | incompatible part whole =>
    "Cannot compose circuits: " ++ part.text ++ " does not fit into " ++ whole.text
  | fault cause => cause.message

/-- A computation on machine words as a step of building a circuit. -/
def ofChecked {R α : Type} (c : Checked α) : Except (CircuitError R) α := c.mapError fault

end CircuitError

end QuantumSim
