import QuantumSim.Circuit.Error
import QuantumSim.Job

/-!
What a caller of a backend is told when a call is refused.
-/
namespace QuantumSim

inductive BackendError where
  /-- A circuit that is malformed or does not fit the backend. -/
  | invalidCircuit (text : String)
  /-- Options that contradict each other. -/
  | invalidRequest (text : String)
  /-- A numeric invariant failed while a circuit ran. -/
  | executionFailure (text : String)
  /-- A submission beyond the declared limits. -/
  | capacityExceeded (text : String)
  | jobNotFound (id : JobId)
  /-- A job that has not ended yet. -/
  | jobPending (id : JobId) (status : JobStatus)
  | jobCancelled
  | jobFailed (reason : String)
  | notCancellable (id : JobId) (status : JobStatus)
  | unavailable (text : String)
  | configuration (text : String)
  | backend (text : String)
  /-- A call that stopped at a machine operation. -/
  | fault (cause : Fault)
  deriving Repr, DecidableEq

namespace BackendError

/-- The name of the cause. -/
def kind : BackendError → String
  | invalidCircuit _ => "InvalidCircuit"
  | invalidRequest _ => "InvalidRequest"
  | executionFailure _ => "ExecutionFailure"
  | capacityExceeded _ => "CapacityExceeded"
  | jobNotFound _ => "JobNotFound"
  | jobPending .. => "JobPending"
  | jobCancelled => "JobCancelled"
  | jobFailed _ => "JobFailed"
  | notCancellable .. => "NotCancellable"
  | unavailable _ => "BackendUnavailable"
  | configuration _ => "Configuration"
  | backend _ => "Backend"
  | fault _ => "Fault"

def message : BackendError → String
  | invalidCircuit text => "Invalid circuit: " ++ text
  | invalidRequest text => "Invalid request: " ++ text
  | executionFailure text => "Execution failure: " ++ text
  | capacityExceeded text => "Capacity exceeded: " ++ text
  | jobNotFound id => "Job not found: " ++ id.text
  | jobPending id status => "Job " ++ id.text ++ " is still " ++ status.text
  | jobCancelled => "Job cancelled"
  | jobFailed reason => "Job failed: " ++ reason
  | notCancellable id status => "Job " ++ id.text ++ " cannot be cancelled in state " ++ status.text
  | unavailable text => "Backend not available: " ++ text
  | configuration text => "Configuration error: " ++ text
  | backend text => "Backend error: " ++ text
  | fault cause => cause.message

/-- A circuit error as seen by a caller of a backend. -/
def ofCircuitError : CircuitError Float → BackendError
  | .fault cause => fault cause
  | e => invalidCircuit e.message

end BackendError

end QuantumSim
