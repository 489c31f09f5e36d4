import QuantumSim.Codec.Request
import QuantumSim.Result

/-!
Counts, states, results and job statuses as JSON documents.
-/
namespace QuantumSim

namespace Counts

def toJson (c : Counts) : Json :=
  .obj [("counts", .obj (c.toList.map fun e => (e.1, .ofUInt64 e.2)))]

def tableOfJson? (source : Json.Source) : Json → Option (Dict UInt64)
  | .obj fields => do
    let entries ← (Json.members source fields).mapM fun e => e.2.uint64?.map fun n => (e.1, n)
    some (Dict.ofList entries)
  | _ => none

def ofJson? (source : Json.Source) (j : Json) : Option Counts := do
  let get ← j.record? source ["counts"] 1
  return ⟨← tableOfJson? source (← get "counts")⟩

end Counts

namespace StateData

def toJson (d : StateData Float) : Json :=
  .obj [("num_qubits", .ofUInt32 d.numQubits),
    ("amplitudes", .arr (d.amplitudes.toList.map Amplitude.toJson))]

def ofJson? (source : Json.Source) (j : Json) : Option (StateData Float) := do
  let get ← j.record? source ["num_qubits", "amplitudes"] 2
  return ⟨← (← get "num_qubits").uint32?, (← (← get "amplitudes").list? Amplitude.ofJson?).toArray⟩

end StateData

namespace ResultData

/-- The name of the variant stands beside its content. -/
def toJson : ResultData Float → Json
  | counts c => .obj [("kind", .str "counts"), ("value", c.toJson)]
  | state d => .obj [("kind", .str "statevector"), ("value", d.toJson)]

def ofJson? (source : Json.Source) (j : Json) : Option (ResultData Float) := do
  let get ← j.record? source ["kind", "value"] 2
  let content ← get "value"
  let (name, payload) ← (← get "kind").variant? source
  if Json.isUnit payload = false then none
  else match name with
    | "counts" => return counts (← Counts.ofJson? source content)
    | "statevector" => return state (← StateData.ofJson? source content)
    | _ => none

end ResultData

namespace ExecutionResult

def toJson (r : ExecutionResult Float) : Json :=
  .obj ([("circuit_name", .str r.circuitName), ("index", .ofUInt64 r.index),
      ("mode", r.mode.toJson), ("data", r.data.toJson), ("shots", .ofUInt32 r.shots)] ++
    Json.optionalField "seed_simulator" (r.seedSimulator.map .ofUInt64) ++
    Json.optionalField "seed_transpiler" (r.seedTranspiler.map .ofUInt64) ++
    Json.listField "expectation_values" (r.expectationValues.map .ofFloat) ++
    Json.optionalField "execution_time_ms" (r.executionTimeMs.map .ofUInt64) ++
    [("metadata", r.metadata)])

def ofJson? (source : Json.Source) (j : Json) : Option (ExecutionResult Float) := do
  let get ← j.record? source ["circuit_name", "index", "mode", "data", "shots", "seed_simulator",
    "seed_transpiler", "expectation_values", "execution_time_ms", "metadata"] 9
  let word (name : String) := (get name).elim (some none) (Json.optional? Json.uint64?)
  return {
    circuitName := ← (← get "circuit_name").str?
    index := ← (← get "index").uint64?
    mode := ← ExecutionMode.ofJson? source (← get "mode")
    data := ← ResultData.ofJson? source (← get "data")
    shots := ← (← get "shots").uint32?
    seedSimulator := ← word "seed_simulator"
    seedTranspiler := ← word "seed_transpiler"
    expectationValues := ← (get "expectation_values").elim (some []) fun j => j.list? Json.float?
    executionTimeMs := ← word "execution_time_ms"
    metadata := (get "metadata").getD .null }

end ExecutionResult

namespace JobResult

def toJson (r : JobResult Float) : Json :=
  .obj [("job_id", .str r.jobId.text), ("results", .arr (r.results.map ExecutionResult.toJson))]

def ofJson? (source : Json.Source) (j : Json) : Option (JobResult Float) := do
  let get ← j.record? source ["job_id", "results"] 2
  return ⟨⟨← (← get "job_id").str?⟩, ← (← get "results").list? (ExecutionResult.ofJson? source)⟩

end JobResult

namespace JobStatus

def toJson : JobStatus → Json
  | queued => .str "Queued"
  | running => .str "Running"
  | completed => .str "Completed"
  | failed reason => .obj [("Failed", .str reason)]
  | cancelled => .str "Cancelled"

def ofJson? (source : Json.Source) (j : Json) : Option JobStatus := do
  let (name, payload) ← j.variant? source
  match name, payload with
  | "Failed", some reason => return failed (← reason.str?)
  | "Queued", payload => if Json.isUnit payload then some queued else none
  | "Running", payload => if Json.isUnit payload then some running else none
  | "Completed", payload => if Json.isUnit payload then some completed else none
  | "Cancelled", payload => if Json.isUnit payload then some cancelled else none
  | _, _ => none

end JobStatus

end QuantumSim
