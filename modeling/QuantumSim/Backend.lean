import QuantumSim.Capabilities
import QuantumSim.Result

/-!
Backends: anything that takes batches of requests and answers about the jobs it made of them. A
backend is a state, and each call answers and yields the next state.
-/
namespace QuantumSim

/-- A name and any other settings as JSON values. -/
structure BackendConfig where
  name : String
  extra : Dict Json

namespace BackendConfig

def ofName (name : String) : BackendConfig := ⟨name, .empty⟩

def withExtra (c : BackendConfig) (key : String) (value : Json) : BackendConfig :=
  { c with extra := c.extra.insert key value }

/-- Every key but the name belongs to the extra settings. -/
def ofJson? (source : Json.Source) : Json → Option BackendConfig
  | .obj fields => do
    let get ← (Json.obj fields).record? source ["name"] 1
    let name ← (← get "name").str?
    some ⟨name, (Dict.ofList fields).erase "name"⟩
  | _ => none

def toJson (c : BackendConfig) : Json := .obj (("name", .str c.name) :: c.extra.entries)

end BackendConfig

/-- Whether a backend takes jobs. -/
structure Availability where
  isAvailable : Bool
  /-- Jobs that wait for a worker, if known. -/
  queueDepth : Option UInt32
  message : Option String
  deriving Repr, DecidableEq

namespace Availability

def available (queueDepth : UInt32) : Availability := ⟨true, some queueDepth, none⟩

def unavailable (reason : String) : Availability := ⟨false, none, some reason⟩

end Availability

/-- Whether a circuit fits a backend. -/
inductive Validation where
  | valid
  | invalid (reasons : List String)
  deriving Repr, DecidableEq

namespace Validation

/-- Valid without reasons. -/
def ofReasons (reasons : List String) : Validation :=
  if reasons.isEmpty then valid else invalid reasons

def isValid : Validation → Bool
  | valid => true
  | invalid _ => false

/-- Refuses an invalid circuit with all reasons. -/
def toExcept : Validation → Except BackendError Unit
  | valid => .ok ()
  | invalid reasons => .error (.invalidCircuit ("; ".intercalate reasons))

end Validation

/-- The calls of a backend with states in `σ`. -/
class Backend (σ : Type) where
  name : σ → String
  capabilities : σ → Capabilities
  availability : σ → Except BackendError Availability
  validate : σ → Circuit Float → Except BackendError Validation
  /-- Makes a job of a batch. The given identifier is fresh and may be used for it. -/
  submit : σ → JobId → Timestamp → List (ExecutionRequest Float) → Except BackendError (JobId × σ)
  status : σ → JobId → Except BackendError JobStatus × σ
  result : σ → JobId → Except BackendError (JobResult Float)
  cancel : σ → JobId → Timestamp → Except BackendError σ

namespace Backend

variable {σ : Type} [Backend σ]

/-- Submits a single request. -/
def run (s : σ) (id : JobId) (now : Timestamp) (request : ExecutionRequest Float) :
    Except BackendError (JobId × σ) :=
  submit s id now [request]

/-- Asks for the status until the job has ended, at most the given number of times, and answers with
the result. None if the job was pending every time. -/
def wait : Nat → σ → JobId → Option (Except BackendError (JobResult Float)) × σ
  | 0, s, _ => (none, s)
  | polls + 1, s, id =>
    match status s id with
    | (.error e, s) => (some (.error e), s)
    | (.ok .completed, s) => (some (result s id), s)
    | (.ok (.failed reason), s) => (some (.error (.jobFailed reason)), s)
    | (.ok .cancelled, s) => (some (.error .jobCancelled), s)
    | (.ok .queued, s) => wait polls s id
    | (.ok .running, s) => wait polls s id

end Backend

end QuantumSim
