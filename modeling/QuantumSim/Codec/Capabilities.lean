import QuantumSim.Capabilities
import QuantumSim.Json

/-!
Capabilities and gate sets as JSON documents.
-/
namespace QuantumSim

namespace GateSet

def toJson (s : GateSet) : Json :=
  .obj ([("single_qubit", .arr (s.singleQubit.map .str)),
    ("two_qubit", .arr (s.twoQubit.map .str))] ++
    Json.listField "three_qubit" (s.threeQubit.map .str))

def ofJson? (source : Json.Source) (j : Json) : Option GateSet := do
  let get ← j.record? source ["single_qubit", "two_qubit", "three_qubit"] 2
  let names (j : Json) := j.list? Json.str?
  return ⟨← names (← get "single_qubit"), ← names (← get "two_qubit"),
    ← (get "three_qubit").elim (some []) names⟩

end GateSet

namespace Capabilities

def toJson (c : Capabilities) : Json :=
  .obj ([("name", .str c.name), ("num_qubits", .ofUInt32 c.numQubits),
    ("gate_set", c.gateSet.toJson),
      ("max_shots", .ofUInt32 c.maxShots), ("is_simulator", .bool c.isSimulator),
      ("supports_exact", .bool c.supportsExact), ("supports_sampled", .bool c.supportsSampled)] ++
    Json.listField "features" (c.features.map .str))

def ofJson? (source : Json.Source) (j : Json) : Option Capabilities := do
  let get ← j.record? source ["name", "num_qubits", "gate_set", "max_shots", "is_simulator",
    "supports_exact", "supports_sampled", "features"] 7
  return {
    name := ← (← get "name").str?
    numQubits := ← (← get "num_qubits").uint32?
    gateSet := ← GateSet.ofJson? source (← get "gate_set")
    maxShots := ← (← get "max_shots").uint32?
    isSimulator := ← (← get "is_simulator").bool?
    supportsExact := ← (← get "supports_exact").bool?
    supportsSampled := ← (← get "supports_sampled").bool?
    features := ← (get "features").elim (some []) fun j => j.list? Json.str? }

end Capabilities

end QuantumSim
