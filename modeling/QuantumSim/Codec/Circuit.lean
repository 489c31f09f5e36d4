import QuantumSim.Circuit
import QuantumSim.Json

/-!
Circuits as JSON documents. Empty control lists, missing labels and empty classical bit lists are
left out. Reading checks the shape of a document, not the operands.
-/
namespace QuantumSim

namespace Qubit

def toJson (q : Qubit) : Json := .ofUInt32 q.id

def ofJson? (j : Json) : Option Qubit := j.uint32?.map Qubit.mk

end Qubit

namespace Clbit

def toJson (c : Clbit) : Json := .ofUInt32 c.id

def ofJson? (j : Json) : Option Clbit := j.uint32?.map Clbit.mk

end Clbit

namespace Amplitude

def toJson (z : Amplitude Float) : Json := .arr [.ofFloat z.re, .ofFloat z.im]

def ofJson? : Json → Option (Amplitude Float)
  | .arr [re, im] => do some ⟨← re.float?, ← im.float?⟩
  | _ => none

end Amplitude

namespace Parameter

def toJson : Parameter Float → Json
  | value v => .obj [("Value", .ofFloat v)]
  | symbol name scale shift =>
    .obj [("Symbol",
      .obj [("name", .str name), ("scale", .ofFloat scale), ("shift", .ofFloat shift)])]

def ofJson? (source : Json.Source) (j : Json) : Option (Parameter Float) := do
  match ← j.variant? source with
  | ("Value", some v) => return value (← v.float?)
  | ("Symbol", some payload) =>
    let get ← Json.variantRecord? source ["name", "scale", "shift"] payload
    return symbol (← (← get "name").str?) (← (← get "scale").float?) (← (← get "shift").float?)
  | _ => none

end Parameter

namespace StandardGate

/-- A gate without angles is its bare name; one angle stands alone and several form a list. -/
def toJson (g : StandardGate (Parameter Float)) : Json :=
  match g.parameters with
  | [] => .str g.symbol.tag
  | [p] => .obj [(g.symbol.tag, p.toJson)]
  | ps => .obj [(g.symbol.tag, .arr (ps.map Parameter.toJson))]

def ofJson? (source : Json.Source) (j : Json) : Option (StandardGate (Parameter Float)) := do
  let (tag, payload) ← j.variant? source
  let symbol ← GateSymbol.ofTag? tag
  match symbol.arity, payload with
  | 0, payload => if Json.isUnit payload then ofSymbol? symbol [] else none
  | 1, some p => ofSymbol? symbol [← Parameter.ofJson? source p]
  | _, some ps => ofSymbol? symbol (← ps.list? (Parameter.ofJson? source))
  | _, none => none

end StandardGate

namespace MatrixGate

def toJson (g : MatrixGate Float) : Json :=
  .obj [("num_qubits", .ofUInt32 g.numQubits),
    ("matrix", .arr (g.entries.toList.map Amplitude.toJson))]

def ofJson? (source : Json.Source) (j : Json) : Option (MatrixGate Float) := do
  let get ← j.record? source ["num_qubits", "matrix"] 2
  return ⟨← (← get "num_qubits").uint32?, (← (← get "matrix").list? Amplitude.ofJson?).toArray⟩

end MatrixGate

namespace GateKind

def toJson : GateKind Float → Json
  | standard g => .obj [("Standard", g.toJson)]
  | matrix g => .obj [("Unitary", g.toJson)]

def ofJson? (source : Json.Source) (j : Json) : Option (GateKind Float) := do
  match ← j.variant? source with
  | ("Standard", some g) => return standard (← StandardGate.ofJson? source g)
  | ("Unitary", some g) => return matrix (← MatrixGate.ofJson? source g)
  | _ => none

end GateKind

namespace Polarity

def toJson : Polarity → Json
  | positive => .str "Positive"
  | negative => .str "Negative"

def ofJson? (source : Json.Source) (j : Json) : Option Polarity := do
  let (name, payload) ← j.variant? source
  if Json.isUnit payload = false then none
  else match name with
    | "Positive" => some positive
    | "Negative" => some negative
    | _ => none

end Polarity

namespace Control

def toJson (c : Control) : Json :=
  .obj [("qubit", c.qubit.toJson), ("polarity", c.polarity.toJson)]

def ofJson? (source : Json.Source) (j : Json) : Option Control := do
  let get ← j.record? source ["qubit", "polarity"] 2
  return ⟨← Qubit.ofJson? (← get "qubit"), ← Polarity.ofJson? source (← get "polarity")⟩

end Control

namespace Gate

def toJson (g : Gate Float) : Json :=
  .obj ([("kind", g.kind.toJson)] ++ Json.listField "controls" (g.controls.map Control.toJson) ++
    Json.optionalField "label" (g.label.map .str))

def ofJson? (source : Json.Source) (j : Json) : Option (Gate Float) := do
  let get ← j.record? source ["kind", "controls", "label"] 1
  let kind ← GateKind.ofJson? source (← get "kind")
  let controls ← (get "controls").elim (some []) fun j => j.list? (Control.ofJson? source)
  let label ← (get "label").elim (some none) (Json.optional? Json.str?)
  return ⟨kind, controls, label⟩

end Gate

namespace Operation

def toJson : Operation Float → Json
  | gate g => .obj [("Gate", g.toJson)]
  | measure => .str "Measure"
  | reset => .str "Reset"
  | barrier => .str "Barrier"

def ofJson? (source : Json.Source) (j : Json) : Option (Operation Float) := do
  let (name, payload) ← j.variant? source
  match name, payload with
  | "Gate", some g => return gate (← Gate.ofJson? source g)
  | "Measure", payload => if Json.isUnit payload then some measure else none
  | "Reset", payload => if Json.isUnit payload then some reset else none
  | "Barrier", payload => if Json.isUnit payload then some barrier else none
  | _, _ => none

end Operation

namespace Instruction

def toJson (inst : Instruction Float) : Json :=
  .obj ([("kind", inst.operation.toJson), ("qubits", .arr (inst.qubits.map Qubit.toJson))] ++
    Json.listField "clbits" (inst.clbits.map Clbit.toJson))

def ofJson? (source : Json.Source) (j : Json) : Option (Instruction Float) := do
  let get ← j.record? source ["kind", "qubits", "clbits"] 2
  let operation ← Operation.ofJson? source (← get "kind")
  let qubits ← (← get "qubits").list? Qubit.ofJson?
  let clbits ← (get "clbits").elim (some []) fun j => j.list? Clbit.ofJson?
  return ⟨operation, qubits, clbits⟩

end Instruction

namespace Circuit

def toJson (c : Circuit Float) : Json :=
  .obj [("name", .str c.name), ("num_qubits", .ofUInt32 c.numQubits),
    ("num_clbits", .ofUInt32 c.numClbits),
    ("instructions", .arr (c.instructions.map Instruction.toJson))]

def ofJson? (source : Json.Source) (j : Json) : Option (Circuit Float) := do
  let get ← j.record? source ["name", "num_qubits", "num_clbits", "instructions"] 4
  return {
    name := ← (← get "name").str?
    numQubits := ← (← get "num_qubits").uint32?
    numClbits := ← (← get "num_clbits").uint32?
    instructions := ← (← get "instructions").list? (Instruction.ofJson? source) }

end Circuit

end QuantumSim
