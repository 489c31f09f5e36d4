/-!
What a backend accepts: the largest register, the gates, the shot limit and the modes.
-/
namespace QuantumSim

/-- Names of supported gates by number of qubits. -/
structure GateSet where
  singleQubit : List String
  twoQubit : List String
  threeQubit : List String := []
  deriving Repr, DecidableEq

namespace GateSet

/-- Every gate of the simulator, user matrices included. -/
def universal : GateSet where
  singleQubit := ["id", "x", "y", "z", "h", "s", "sdg", "t", "tdg", "sx", "sxdg", "rx", "ry", "rz",
    "p", "u", "u1", "u2", "u3", "r", "unitary"]
  twoQubit := ["cx", "cy", "cz", "ch", "swap", "iswap", "crx", "cry", "crz", "cp", "rxx", "ryy",
    "rzz", "unitary"]
  threeQubit := ["ccx", "cswap"]

def contains (s : GateSet) (gate : String) : Bool :=
  s.singleQubit.contains gate || s.twoQubit.contains gate || s.threeQubit.contains gate

end GateSet

structure Capabilities where
  name : String
  numQubits : UInt32
  gateSet : GateSet
  maxShots : UInt32
  isSimulator : Bool
  supportsExact : Bool
  supportsSampled : Bool
  features : List String := []
  deriving Repr, DecidableEq

namespace Capabilities

/-- The capabilities of a state vector simulator. -/
def simulator (numQubits : UInt32) : Capabilities where
  name := "simulator"
  numQubits := numQubits
  gateSet := .universal
  maxShots := 1000000
  isSimulator := true
  supportsExact := true
  supportsSampled := true
  features := ["statevector", "counts", "expectation", "mid_circuit_measurement",
    "negative_controls"]

def withName (c : Capabilities) (name : String) : Capabilities := { c with name }

def withMaxShots (c : Capabilities) (maxShots : UInt32) : Capabilities := { c with maxShots }

def hasFeature (c : Capabilities) (feature : String) : Bool := c.features.contains feature

end Capabilities

end QuantumSim
