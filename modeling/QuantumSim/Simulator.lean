import QuantumSim.Engine
import QuantumSim.JobTable
import QuantumSim.Registry
import QuantumSim.Simulator.Config

/-!
The simulator backend, and the provider that hands out independent simulators. A submission is
checked as a whole and becomes a queued job with a worker that has not begun; workers run one after
the other, in the order of submission.
-/
namespace QuantumSim

/-- What a run of a batch takes from outside: the time, and for each request the conditions of its
run and the milliseconds it took. -/
structure Surroundings where
  now : Timestamp := 0
  given : Nat → Conditions := fun _ => {}
  elapsed : Nat → UInt64 := fun _ => 0

structure Simulator where
  name : String
  config : SimulatorConfig
  /-- Whether the build has debug assertions. -/
  debugAssertions : Bool
  table : JobTable (JobResult Float)
  /-- Workers that have not begun, with their batches. -/
  waiting : List (JobId × List (ExecutionRequest Float)) := []

namespace Simulator

def defaultName : String := "qdd_simulator"

def build (name : String) (config : SimulatorConfig) (debugAssertions : Bool) : Simulator :=
  { name, config, debugAssertions, table := .empty config.maxRetainedJobs.toNat }

/-- A simulator with default settings. -/
def default (debugAssertions : Bool) : Simulator := build defaultName {} debugAssertions

def ofConfig (config : SimulatorConfig) (debugAssertions : Bool) :
    Except BackendError Simulator := do
  config.validate
  return build defaultName config debugAssertions

def ofBackendConfig (debugAssertions : Bool) (config : BackendConfig) :
    Except BackendError Simulator := do
  return build config.name (← SimulatorConfig.ofBackendConfig config) debugAssertions

def capabilities (s : Simulator) : Capabilities :=
  ((Capabilities.simulator s.config.maxQubits).withName s.name).withMaxShots s.config.maxShots

def engine (s : Simulator) : Engine :=
  ⟨s.config.parallelThreshold, s.config.defaultSeed, s.debugAssertions⟩

/-- The distinct strings of a list, ascending. -/
def distinctNames (names : List String) : List String :=
  (names.mergeSort fun a b => decide (a ≤ b)).eraseReps

/-- Why a circuit does not fit: a register too large, or gates that are not supported. -/
def circuitProblems (s : Simulator) (c : Circuit Float) : List String :=
  let width :=
    if s.config.maxQubits < c.numQubits then
      ["circuit '" ++ c.name ++ "' has " ++ toString c.numQubits ++ " qubits but " ++ s.name ++
        " supports at most " ++ toString s.config.maxQubits]
    else []
  let unsupported := (c.gates.map (·.name)).filter fun g => !s.capabilities.gateSet.contains g
  let gates :=
    if unsupported.isEmpty then []
    else ["unsupported gates: " ++ ", ".intercalate (distinctNames unsupported)]
  width ++ gates

def validate (s : Simulator) (c : Circuit Float) : Validation := .ofReasons (s.circuitProblems c)

/-- Checks the request at a position of its batch. -/
def checkRequest (s : Simulator) (index : Nat) (r : ExecutionRequest Float) :
    Except BackendError Unit := do
  r.validate.mapError RequestError.toBackendError
  (s.validate r.circuit).toExcept
  if r.options.mode = .sampled ∧ s.config.maxShots < r.options.shots then
    throw (.capacityExceeded
      ("request " ++ toString index ++ " asks for " ++ toString r.options.shots ++
        " shots, limit is " ++ toString s.config.maxShots))

def checkBatch (s : Simulator) : Nat → List (ExecutionRequest Float) → Except BackendError Unit
  | _, [] => .ok ()
  | index, r :: rest => do
    s.checkRequest index r
    s.checkBatch (index + 1) rest

/-- Makes a queued job of a batch in which every request is accepted. -/
def submit (s : Simulator) (id : JobId) (now : Timestamp) (batch : List (ExecutionRequest Float)) :
    Except BackendError (JobId × Simulator) := do
  if batch.isEmpty then throw (.invalidRequest "empty batch")
  s.checkBatch 0 batch
  let job := (Job.create id batch.length now).withBackend s.name
  return (id, { s with table := s.table.submit job, waiting := s.waiting ++ [(id, batch)] })

/-- Executes the requests of a batch in order, the first one at position `index`; the first failure
ends it. -/
def executeFrom (e : Engine) (env : Surroundings) :
    Nat → List (ExecutionRequest Float) →
      Except (WorkerEnd (JobResult Float)) (List (ExecutionResult Float))
  | _, [] => .ok []
  | index, r :: rest =>
    match e.execute index r (env.given index) with
    | .error (.fault cause) => .error (.aborted cause.message)
    | .error cause =>
      .error (.failed
        ("circuit " ++ toString index ++ " ('" ++ r.circuit.name ++ "'): " ++
          cause.toBackendError.message))
    | .ok result => do
      let results ← executeFrom e env (index + 1) rest
      return { result with executionTimeMs := some (env.elapsed index) } :: results

/-- How the worker of a job ends that runs a batch. -/
def executeBatch (e : Engine) (env : Surroundings) (id : JobId)
    (batch : List (ExecutionRequest Float)) : WorkerEnd (JobResult Float) :=
  match executeFrom e env 0 batch with
  | .ok results => .completed ⟨id, results⟩
  | .error outcome => outcome

/-- Runs a worker from its start to its end, unless its job was cancelled before. -/
def runWorker (s : Simulator) (env : Surroundings) (id : JobId)
    (batch : List (ExecutionRequest Float)) : Simulator :=
  match s.table.start? id env.now with
  | none => s
  | some table => { s with table := table.report id (executeBatch s.engine env id batch) env.now }

/-- Runs every waiting worker, in order of submission. -/
def drain (s : Simulator) (env : Surroundings) : Simulator :=
  s.waiting.foldl (fun s w => s.runWorker env w.1 w.2) { s with waiting := [] }

/-- Begins to wait for a job, lets the workers run and answers what the waiter finds then. -/
def wait (s : Simulator) (env : Surroundings) (id : JobId) :
    Except BackendError (JobResult Float) × Simulator :=
  match s.table.subscribe id with
  | .error e => (.error e, s)
  | .ok waiter =>
    let s := s.drain env
    (waiter.answer s.table, s)

def cancel (s : Simulator) (id : JobId) (now : Timestamp) : Except BackendError Simulator := do
  return { s with table := ← s.table.cancel id now }

def forget (s : Simulator) (id : JobId) : Except BackendError Simulator := do
  return { s with table := ← s.table.forget id }

def availability (s : Simulator) : Except BackendError Availability :=
  match s.table.pending with
  | .ok n => .ok (.available n.toUInt32)
  | .error cause => .error (.fault cause)

instance : Backend Simulator where
  name := name
  capabilities := capabilities
  availability := availability
  validate s c := .ok (s.validate c)
  submit := submit
  status s id := (s.table.status id, s)
  result s id := s.table.result id
  cancel := cancel

end Simulator

/-- The entry point for callers who want some backend. -/
structure Provider where
  config : SimulatorConfig := {}
  debugAssertions : Bool

namespace Provider

def ofConfig (config : SimulatorConfig) (debugAssertions : Bool) :
    Except BackendError Provider := do
  config.validate
  return ⟨config, debugAssertions⟩

/-- The names of the backends on offer. -/
def backends (_ : Provider) : List String := [Simulator.defaultName]

def capabilities (p : Provider) : Capabilities :=
  ((Capabilities.simulator p.config.maxQubits).withName Simulator.defaultName).withMaxShots
    p.config.maxShots

/-- A new simulator. -/
def backend (p : Provider) : Except BackendError Simulator :=
  Simulator.ofConfig p.config p.debugAssertions

/-- A registry that knows the simulator. -/
def registry (debugAssertions : Bool) : Registry Simulator :=
  Registry.empty.register Simulator.defaultName (Simulator.ofBackendConfig debugAssertions)

end Provider

end QuantumSim
