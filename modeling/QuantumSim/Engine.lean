import QuantumSim.Result
import QuantumSim.Sampling

/-!
Execution of single requests in exact and sampled mode. An engine has no state of its own.
-/
namespace QuantumSim

/-- What one run takes from outside its request: a random word, and how reductions over a state of
each size are divided among workers. -/
structure Conditions where
  entropy : UInt64 := 0
  divide : Nat → Split := fun _ => .whole

structure Engine where
  /-- The state size from which reductions are divided among workers. -/
  parallelThreshold : UInt64
  /-- The seed of a sampled request that carries none. -/
  defaultSeed : Option UInt64
  /-- Whether the build has debug assertions. -/
  debugAssertions : Bool

namespace Engine

variable {R : Type} [Scalar R]

/-- The seed of a request; `entropy` stands in where nothing fixes one. -/
def seedFor (e : Engine) (request : ExecutionRequest R) (entropy : UInt64) : UInt64 :=
  (request.options.seedSimulator.or e.defaultSeed).getD entropy

/-- The machine of a run. -/
def machine (e : Engine) (given : Conditions) : Machine :=
  ⟨some e.parallelThreshold.toNat, given.divide, e.debugAssertions⟩

/-- The final state and the requested expectation values. -/
def runExact (e : Engine) (index : Nat) (c : Circuit R) (steps : List (Step R))
    (request : ExecutionRequest R) (given : Conditions) :
    Except (SimulationError R) (ExecutionResult R) := do
  let s ← Sampler.finalState c steps (e.machine given)
  let values ← request.options.observables.mapM fun o =>
    SimulationError.ofChecked (s.expectation o)
  let depth ← SimulationError.ofChecked c.depth
  return { ExecutionResult.ofState c.name index.toUInt64 ⟨c.numQubits, s.amplitudes⟩ with
    seedTranspiler := request.options.seedTranspiler
    expectationValues := values
    metadata := .obj [("method", .str "statevector"), ("num_qubits", .ofUInt32 c.numQubits),
      ("gate_count", .ofNat c.gateCount), ("depth", .ofNat depth)] }

/-- Counts drawn from the stream of the request's seed. -/
def runSampled (e : Engine) (index : Nat) (c : Circuit R) (steps : List (Step R))
    (request : ExecutionRequest R) (given : Conditions) :
    Except (SimulationError R) (ExecutionResult R) := do
  let seed := e.seedFor request given.entropy
  let run : Sampling R Random.Stream (Counts × String) :=
    Sampler.sample c steps (e.machine given) request.options.shots.toNat
  let (counts, method) ← (run.run (.ofSeed seed)).1
  return { ExecutionResult.ofCounts c.name index.toUInt64 counts request.options.shots with
    seedSimulator := some seed
    seedTranspiler := request.options.seedTranspiler
    metadata := .obj [("method", .str method), ("num_qubits", .ofUInt32 c.numQubits),
      ("num_clbits", .ofUInt32 c.numClbits), ("gate_count", .ofNat c.gateCount)] }

/-- Executes the request at a position of its batch. -/
def execute (e : Engine) (index : Nat) (request : ExecutionRequest R) (given : Conditions) :
    Except (SimulationError R) (ExecutionResult R) := do
  let c := request.boundCircuit
  let steps ← c.compile
  match request.options.mode with
  | .exact => e.runExact index c steps request given
  | .sampled => e.runSampled index c steps request given

end Engine

end QuantumSim
