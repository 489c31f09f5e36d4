import QuantumSim.Circuit

/-!
Readings of a circuit that need no state: sizes, depth, what is measured where, and which symbols
are left.
-/
namespace QuantumSim.Circuit

variable {R : Type}

def gateCount (c : Circuit R) : Nat := (c.instructions.filter (·.isGate)).length

/-- For every wire the length of the longest chain of instructions that ends on it. -/
structure Levels where
  qubits : Array Nat
  clbits : Array Nat

namespace Levels

/-- The longest chain on any wire of an instruction. -/
def highest (l : Levels) (inst : Instruction R) : Checked Nat := do
  let qs ← inst.allQubits.mapM fun q => elementAt l.qubits q.index
  let bs ← inst.clbits.mapM fun b => elementAt l.clbits b.index
  return (qs ++ bs).foldl max 0

/-- The levels after an instruction at the given level. -/
def raise (l : Levels) (inst : Instruction R) (level : Nat) : Levels :=
  ⟨inst.allQubits.foldl (fun a q => a.setIfInBounds q.index level) l.qubits,
    inst.clbits.foldl (fun a b => a.setIfInBounds b.index level) l.clbits⟩

end Levels

/-- Levels and greatest level after a list of instructions. -/
def depthFrom (l : Levels) (depth : Nat) : List (Instruction R) → Checked Nat
  | [] => .ok depth
  | inst :: rest =>
    if inst.isBarrier then depthFrom l depth rest
    else do
      let level := (← l.highest inst) + 1
      depthFrom (l.raise inst level) (max depth level) rest

/-- The longest chain of instructions in which neighbours share a wire. Barriers do not count. -/
def depth (c : Circuit R) : Checked Nat :=
  depthFrom ⟨Array.replicate c.numQubits.toNat 0, Array.replicate c.numClbits.toNat 0⟩ 0
    c.instructions

/-- Qubit and classical bit of every measurement, in circuit order. -/
def measurementMap (c : Circuit R) : List (Qubit × Clbit) :=
  (c.instructions.filter (·.isMeasure)).flatMap fun inst => inst.qubits.zip inst.clbits

/-- The distinct qubits of a list, ascending. -/
def distinctQubits (qs : List Qubit) : List Qubit :=
  (qs.mergeSort fun a b => a.id ≤ b.id).eraseReps

/-- The distinct measured qubits, ascending. -/
def measuredQubits (c : Circuit R) : List Qubit := distinctQubits (c.measurementMap.map (·.1))

/-- Whether a later instruction may depend on an outcome, given the qubits measured before. -/
def dependsOnOutcome (measured : List Qubit) : List (Instruction R) → Bool
  | [] => false
  | inst :: rest =>
    match inst.operation with
    | .reset => true
    | .measure => dependsOnOutcome (inst.qubits ++ measured) rest
    | .gate _ => inst.allQubits.any (· ∈ measured) || dependsOnOutcome measured rest
    | .barrier => dependsOnOutcome measured rest

/-- Whether the circuit resets a qubit or applies a gate to a measured one. Its outcomes cannot be
drawn from one final state. -/
def hasMidCircuitMeasurement (c : Circuit R) : Bool := dependsOnOutcome [] c.instructions

def gates (c : Circuit R) : List (Gate R) := c.instructions.filterMap (·.gate?)

/-- Whether an angle is still symbolic. -/
def isParameterized (c : Circuit R) : Bool := c.gates.any (·.isParameterized)

/-- The distinct symbol names left, ascending. -/
def parameterNames (c : Circuit R) : List String :=
  let names := (c.gates.flatMap (·.parameters)).filterMap (·.symbolName?)
  (names.mergeSort fun a b => decide (a ≤ b)).eraseReps

end QuantumSim.Circuit
