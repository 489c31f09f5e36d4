import QuantumSim.Codec.Circuit
import QuantumSim.Request

/-!
Observables, options and requests as JSON documents. A Pauli string is read as it stands.
-/
namespace QuantumSim

namespace Pauli

def toJson (p : Pauli) : Json := .str p.letter

def ofJson? (source : Json.Source) (j : Json) : Option Pauli := do
  let (name, payload) ← j.variant? source
  if Json.isUnit payload = false then none
  else match name with
    | "I" => some i
    | "X" => some x
    | "Y" => some y
    | "Z" => some z
    | _ => none

end Pauli

namespace PauliString

def opToJson (op : Qubit × Pauli) : Json := .arr [op.1.toJson, op.2.toJson]

def opOfJson? (source : Json.Source) : Json → Option (Qubit × Pauli)
  | .arr [q, p] => do some (← Qubit.ofJson? q, ← Pauli.ofJson? source p)
  | _ => none

def toJson (s : PauliString) : Json := .obj [("ops", .arr (s.ops.map opToJson))]

def ofJson? (source : Json.Source) (j : Json) : Option PauliString := do
  let get ← j.record? source ["ops"] 1
  return ⟨← (← get "ops").list? (opOfJson? source)⟩

end PauliString

namespace ObservableTerm

def toJson (t : ObservableTerm Float) : Json :=
  .obj [("coeff", .ofFloat t.coeff), ("pauli", t.pauli.toJson)]

def ofJson? (source : Json.Source) (j : Json) : Option (ObservableTerm Float) := do
  let get ← j.record? source ["coeff", "pauli"] 2
  return ⟨← (← get "coeff").float?, ← PauliString.ofJson? source (← get "pauli")⟩

end ObservableTerm

namespace Observable

def toJson (o : Observable Float) : Json :=
  .obj [("terms", .arr (o.terms.map ObservableTerm.toJson))]

def ofJson? (source : Json.Source) (j : Json) : Option (Observable Float) := do
  let get ← j.record? source ["terms"] 1
  return ⟨← (← get "terms").list? (ObservableTerm.ofJson? source)⟩

end Observable

namespace ExecutionMode

def toJson (m : ExecutionMode) : Json := .str m.text

def ofJson? (source : Json.Source) (j : Json) : Option ExecutionMode := do
  let (name, payload) ← j.variant? source
  if Json.isUnit payload = false then none
  else match name with
    | "exact" => some exact
    | "sampled" => some sampled
    | _ => none

end ExecutionMode

/-- A JSON object with numbers for values. -/
def bindingsOfJson? (source : Json.Source) : Json → Option (Bindings Float)
  | .obj fields => do
    let entries ← (Json.members source fields).mapM fun e => e.2.float?.map fun v => (e.1, v)
    some (Dict.ofList entries)
  | _ => none

namespace RunOptions

def toJson (o : RunOptions Float) : Json :=
  .obj ([("mode", o.mode.toJson), ("shots", .ofUInt32 o.shots)] ++
    Json.optionalField "seed_simulator" (o.seedSimulator.map .ofUInt64) ++
    Json.optionalField "seed_transpiler" (o.seedTranspiler.map .ofUInt64) ++
    (if o.parameters.isEmpty then []
      else [("parameters", .obj (o.parameters.entries.map fun e => (e.1, .ofFloat e.2)))]) ++
    Json.listField "observables" (o.observables.map Observable.toJson))

def ofJson? (source : Json.Source) (j : Json) : Option (RunOptions Float) := do
  let get ← j.record? source
    ["mode", "shots", "seed_simulator", "seed_transpiler", "parameters", "observables"] 0
  let seed (name : String) := (get name).elim (some none) (Json.optional? Json.uint64?)
  return {
    mode := ← (get "mode").elim (some .sampled) (ExecutionMode.ofJson? source)
    shots := ← (get "shots").elim (some 1024) Json.uint32?
    seedSimulator := ← seed "seed_simulator"
    seedTranspiler := ← seed "seed_transpiler"
    parameters := ← (get "parameters").elim (some .empty) (bindingsOfJson? source)
    observables := ← (get "observables").elim (some []) fun j =>
      j.list? (Observable.ofJson? source) }

end RunOptions

namespace ExecutionRequest

def toJson (r : ExecutionRequest Float) : Json :=
  .obj [("circuit", r.circuit.toJson), ("options", r.options.toJson)]

def ofJson? (source : Json.Source) (j : Json) : Option (ExecutionRequest Float) := do
  let get ← j.record? source ["circuit", "options"] 1
  let circuit ← Circuit.ofJson? source (← get "circuit")
  return ⟨circuit, ← (get "options").elim (some {}) (RunOptions.ofJson? source)⟩

end ExecutionRequest

end QuantumSim
