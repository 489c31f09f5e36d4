import QuantumSim.Backend.Error
import QuantumSim.Circuit.Analysis
import QuantumSim.Observable

/-!
Execution requests: a circuit with the options it runs under, and the checks that need no backend.
-/
namespace QuantumSim

inductive ExecutionMode where
  /-- The final state, without collapse. -/
  | exact
  /-- Counts of measured bit strings. -/
  | sampled
  deriving Repr, DecidableEq, Inhabited

namespace ExecutionMode

def text : ExecutionMode → String
  | exact => "exact"
  | sampled => "sampled"

end ExecutionMode

structure RunOptions (R : Type) where
  mode : ExecutionMode := .sampled
  /-- The number of samples; exact runs ignore it. -/
  shots : UInt32 := 1024
  seedSimulator : Option UInt64 := none
  /-- Only repeated in the result. -/
  seedTranspiler : Option UInt64 := none
  parameters : Bindings R := .empty
  observables : List (Observable R) := []

structure ExecutionRequest (R : Type) where
  circuit : Circuit R
  options : RunOptions R := {}

/-- Why a request is refused. -/
inductive RequestError (R : Type) where
  | noShots
  | sampledObservables
  | nonFiniteBinding (name : String) (value : R)
  | circuit (cause : CircuitError R)
  /-- The circuit collapses on the way, so it has no exact final state. -/
  | noExactState (circuit : String)
  | observableWidth (needed : UInt32) (circuit : String) (numQubits : UInt32)
  | unbound (names : List String)
  | fault (cause : Fault)

namespace RequestError

def toBackendError : RequestError Float → BackendError
  | noShots => .invalidRequest "sampled mode requires a positive shot count"
  | sampledObservables => .invalidRequest "observables are only evaluated in exact mode"
  | nonFiniteBinding name value =>
    .invalidRequest ("parameter '" ++ name ++ "' has non-finite value " ++ Decimal.shortest value)
  | circuit cause => .ofCircuitError cause
  | noExactState name =>
    .invalidRequest
      ("circuit '" ++ name ++ "' uses mid-circuit measurement or reset, which has no exact state")
  | observableWidth needed name n =>
    .invalidRequest
      ("observable needs " ++ toString needed ++ " qubits but circuit '" ++ name ++ "' has " ++
        toString n)
  | unbound names => .invalidCircuit ("unbound parameters: " ++ ", ".intercalate names)
  | fault cause => .fault cause

end RequestError

namespace RunOptions

variable {R : Type}

def exact : RunOptions R := { mode := .exact }

def sampled (shots : UInt32) : RunOptions R := { shots }

def validate [Scalar R] (o : RunOptions R) : Except (RequestError R) Unit :=
  if o.mode = .sampled ∧ o.shots = 0 then .error .noShots
  else if o.mode = .sampled ∧ o.observables.isEmpty = false then .error .sampledObservables
  else
    match o.parameters.entries.find? fun e => !Scalar.isFinite e.2 with
    | some (name, value) => .error (.nonFiniteBinding name value)
    | none => .ok ()

end RunOptions

namespace ExecutionRequest

variable {R : Type}

/-- The first observable that needs more qubits than the register has is refused. -/
def checkObservables (c : Circuit R) : List (Observable R) → Except (RequestError R) Unit
  | [] => .ok ()
  | o :: rest => do
    let needed ← o.minQubits.mapError .fault
    if c.numQubits < needed then .error (.observableWidth needed c.name c.numQubits)
    else checkObservables c rest

/-- Everything about a request that does not depend on the backend. -/
def validate [Scalar R] (r : ExecutionRequest R) : Except (RequestError R) Unit := do
  r.options.validate
  r.circuit.validate.mapError .circuit
  if r.options.mode = .exact ∧ r.circuit.hasMidCircuitMeasurement then
    throw (.noExactState r.circuit.name)
  checkObservables r.circuit r.options.observables
  let missing := r.circuit.parameterNames.filter fun name => !r.options.parameters.contains name
  if missing.isEmpty then return () else throw (.unbound missing)

/-- The circuit with its symbols bound. -/
def boundCircuit [Scalar R] (r : ExecutionRequest R) : Circuit R :=
  if r.circuit.isParameterized then r.circuit.bindParameters r.options.parameters else r.circuit

end ExecutionRequest

end QuantumSim
