import QuantumSim.Amplitude
import QuantumSim.Counts
import QuantumSim.Job
import QuantumSim.Json
import QuantumSim.Request

/-!
Results: counts of a sampled run or the final state of an exact one, with the seeds and settings
that reproduce it.
-/
namespace QuantumSim

/-- A final state. Amplitude `k` belongs to the basis state whose bit `q` is the value of qubit
`q`. -/
structure StateData (R : Type) where
  numQubits : UInt32
  amplitudes : Array (Amplitude R)

namespace StateData

variable {R : Type} [Scalar R]

omit [Scalar R] in
def amplitude? (d : StateData R) (k : Nat) : Option (Amplitude R) := d.amplitudes[k]?

def probabilities (d : StateData R) : Array R := d.amplitudes.map Amplitude.normSq

/-- The probability of reading one on a qubit. -/
def probabilityOne (d : StateData R) (qubit : UInt32) : Checked R := do
  let mask ← bitMask qubit.toNat
  return ((d.amplitudes.zipIdx.filter fun e => e.2 &&& mask != 0).map fun e => e.1.normSq).foldl
    (· + ·) Scalar.zero

def normSq (d : StateData R) : R := d.probabilities.foldl (· + ·) Scalar.zero

end StateData

inductive ResultData (R : Type) where
  | counts (counts : Counts)
  | state (state : StateData R)

/-- The result of one request of a batch. -/
structure ExecutionResult (R : Type) where
  circuitName : String
  /-- The position of the request in its batch. -/
  index : UInt64
  mode : ExecutionMode
  data : ResultData R
  /-- Shots that were run; zero in exact mode. -/
  shots : UInt32
  /-- The seed that was used. -/
  seedSimulator : Option UInt64 := none
  seedTranspiler : Option UInt64 := none
  /-- One value for each observable of the request, in order. -/
  expectationValues : List R := []
  executionTimeMs : Option UInt64 := none
  metadata : Json := .null

namespace ExecutionResult

variable {R : Type}

def ofCounts (circuitName : String) (index : UInt64) (counts : Counts) (shots : UInt32) :
    ExecutionResult R :=
  { circuitName, index, mode := .sampled, data := .counts counts, shots }

def ofState (circuitName : String) (index : UInt64) (state : StateData R) : ExecutionResult R :=
  { circuitName, index, mode := .exact, data := .state state, shots := 0 }

def counts? (r : ExecutionResult R) : Option Counts :=
  match r.data with
  | .counts c => some c
  | .state _ => none

def state? (r : ExecutionResult R) : Option (StateData R) :=
  match r.data with
  | .counts _ => none
  | .state s => some s

/-- A most frequent bit string with its share, if anything was counted. -/
def mostFrequent? [Scalar R] (r : ExecutionResult R) : Option (String × R) := do
  let c ← r.counts?
  let (bits, n) ← c.mostFrequent?
  if c.total = 0 then none else some (bits, c.share n)

end ExecutionResult

/-- The results of a job, in the order of its requests. -/
structure JobResult (R : Type) where
  jobId : JobId
  results : List (ExecutionResult R)

namespace JobResult

variable {R : Type}

def get? (r : JobResult R) (index : Nat) : Option (ExecutionResult R) := r.results[index]?

def size (r : JobResult R) : Nat := r.results.length

end JobResult

end QuantumSim
