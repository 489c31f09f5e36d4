import QuantumSim.Backend

/-!
A backend whose job walks through a fixed list of statuses, one for each time it is asked. It
exercises the calls that are written for every backend.
-/
namespace QuantumSim

structure ScriptedJob where
  id : JobId
  numCircuits : Nat
  /-- How often the status was asked for. -/
  polls : Nat := 0
  deriving Repr

structure ScriptedBackend where
  capabilities : Capabilities
  /-- The answers about a job's status in turn; the last one repeats. -/
  script : List JobStatus
  jobs : List ScriptedJob := []

namespace ScriptedBackend

def name : String := "scripted"

/-- A backend of four qubits. -/
def ofScript (script : List JobStatus) : ScriptedBackend :=
  { capabilities := (Capabilities.simulator 4).withName name, script }

def validate (s : ScriptedBackend) (c : Circuit Float) : Validation :=
  if s.capabilities.numQubits < c.numQubits then .invalid [toString c.numQubits ++ " qubits"]
  else .valid

/-- Refuses a request that is not consistent or whose circuit is too large. -/
def checkRequest (s : ScriptedBackend) (r : ExecutionRequest Float) : Except BackendError Unit := do
  r.validate.mapError RequestError.toBackendError
  (s.validate r.circuit).toExcept

def find? (s : ScriptedBackend) (id : JobId) : Option ScriptedJob := s.jobs.find? (·.id = id)

/-- Accepts a batch in which every request passes. -/
def submit (s : ScriptedBackend) (batch : List (ExecutionRequest Float)) :
    Except BackendError (JobId × ScriptedBackend) := do
  batch.forM s.checkRequest
  let id : JobId := ⟨"scripted-" ++ toString s.jobs.length⟩
  return (id, { s with jobs := s.jobs ++ [{ id, numCircuits := batch.length }] })

def status (s : ScriptedBackend) (id : JobId) : Except BackendError JobStatus × ScriptedBackend :=
  match s.find? id with
  | none => (.error (.jobNotFound id), s)
  | some job =>
    let jobs := s.jobs.map fun j => if j.id = id then { j with polls := j.polls + 1 } else j
    match s.script[min job.polls (s.script.length - 1)]? with
    | some answer => (.ok answer, { s with jobs })
    | none => (.error (.fault .overflow), { s with jobs })

/-- One count of a zero for every request. -/
def result (s : ScriptedBackend) (id : JobId) : Except BackendError (JobResult Float) :=
  match s.find? id with
  | none => .error (.jobNotFound id)
  | some job =>
    .ok ⟨id, (List.range job.numCircuits).map fun i =>
      .ofCounts ("c" ++ toString i) i.toUInt64 (.ofList [("0", 1)]) 1⟩

instance : Backend ScriptedBackend where
  name _ := name
  capabilities := capabilities
  availability _ := .ok (.available 0)
  validate s c := .ok (s.validate c)
  submit s _ _ batch := s.submit batch
  status := status
  result := result
  cancel _ id _ := .error (.notCancellable id .running)

end ScriptedBackend

end QuantumSim
