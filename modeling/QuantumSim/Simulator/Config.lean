import QuantumSim.Backend

/-!
Simulator settings, read from the extra keys of a backend configuration.
-/
namespace QuantumSim

structure SimulatorConfig where
  /-- The largest register accepted at submission. -/
  maxQubits : UInt32 := 24
  /-- The largest number of shots accepted for a circuit. -/
  maxShots : UInt32 := 1000000
  maxConcurrentJobs : UInt64 := 1
  /-- The state size from which reductions are split among workers. -/
  parallelThreshold : UInt64 := 16384
  /-- The seed of sampled requests that carry none. -/
  defaultSeed : Option UInt64 := none
  /-- How many finished jobs are kept; older ones are dropped first. -/
  maxRetainedJobs : UInt64 := 1024
  deriving Repr, DecidableEq

namespace SimulatorConfig

/-- The largest register any configuration may declare. -/
def supportedQubits : UInt32 := 34

def validate (c : SimulatorConfig) : Except BackendError Unit :=
  if c.maxQubits = 0 ∨ supportedQubits < c.maxQubits then
    .error (.configuration
      ("max_qubits must be in 1..=" ++ toString supportedQubits ++ ", got " ++
        toString c.maxQubits))
  else if c.maxShots = 0 then .error (.configuration "max_shots must be positive")
  else if c.maxConcurrentJobs = 0 then
    .error (.configuration "max_concurrent_jobs must be positive")
  else if c.maxRetainedJobs = 0 then .error (.configuration "max_retained_jobs must be positive")
  else .ok ()

/-- A setting under a key, or its default when the key is missing. -/
def setting? {α : Type} (extra : Dict Json) (key : String) (read : Json → Option α) (default : α) :
    Option α :=
  match extra.get? key with
  | some value => read value
  | none => some default

/-- The settings among extra keys; unknown keys are ignored. -/
def ofExtra? (extra : Dict Json) : Option SimulatorConfig := do
  let base : SimulatorConfig := {}
  some
    { maxQubits := ← setting? extra "max_qubits" Json.uint32? base.maxQubits
      maxShots := ← setting? extra "max_shots" Json.uint32? base.maxShots
      maxConcurrentJobs :=
        ← setting? extra "max_concurrent_jobs" Json.uint64? base.maxConcurrentJobs
      parallelThreshold := ← setting? extra "parallel_threshold" Json.uint64? base.parallelThreshold
      defaultSeed := ← setting? extra "default_seed" (Json.optional? Json.uint64?) base.defaultSeed
      maxRetainedJobs := ← setting? extra "max_retained_jobs" Json.uint64? base.maxRetainedJobs }

/-- The settings of a backend configuration, checked. -/
def ofBackendConfig (c : BackendConfig) : Except BackendError SimulatorConfig :=
  match ofExtra? c.extra with
  | none => .error (.configuration (c.name ++ ": ..."))
  | some settings => do
    settings.validate
    return settings

end SimulatorConfig

end QuantumSim
