import QuantumSim.Fault
import QuantumSim.Scalar
import QuantumSim.Wire

/-!
Observables: weighted sums of Pauli strings. A qubit that a string does not list has the identity.
-/
namespace QuantumSim

inductive Pauli where
  | i | x | y | z
  deriving Repr, DecidableEq, Inhabited

namespace Pauli

def letter : Pauli → String
  | i => "I"
  | x => "X"
  | y => "Y"
  | z => "Z"

end Pauli

/-- A product of Pauli operators on listed qubits. -/
structure PauliString where
  ops : List (Qubit × Pauli)
  deriving Repr, DecidableEq, Inhabited

namespace PauliString

/-- Drops identities and sorts by qubit; operators on one qubit keep their order. -/
def ofOps (ops : List (Qubit × Pauli)) : PauliString :=
  ⟨(ops.filter (·.2 ≠ .i)).mergeSort fun a b => a.1.id ≤ b.1.id⟩

def identity : PauliString := ⟨[]⟩

/-- The operator `z` on each of the given qubits. -/
def zz (qubits : List Qubit) : PauliString := ofOps (qubits.map fun q => (q, .z))

def isIdentity (s : PauliString) : Bool := s.ops.isEmpty

def isDiagonal (s : PauliString) : Bool := s.ops.all (·.2 == .z)

/-- The qubit listed last, which is the highest one in a sorted string. -/
def maxQubit? (s : PauliString) : Option Qubit := s.ops.getLast?.map (·.1)

def text (s : PauliString) : String :=
  if s.ops.isEmpty then "I"
  else " ".intercalate (s.ops.map fun (q, op) => op.letter ++ toString q.index)

end PauliString

structure ObservableTerm (R : Type) where
  coeff : R
  pauli : PauliString
  deriving Repr

structure Observable (R : Type) where
  terms : List (ObservableTerm R)
  deriving Repr

namespace Observable

variable {R : Type} [Scalar R]

/-- A single string of weight one. -/
def ofPauli (s : PauliString) : Observable R := ⟨[⟨Scalar.one, s⟩]⟩

def z (q : Qubit) : Observable R := ofPauli (.ofOps [(q, .z)])

/-- The number of qubits a register needs: one more than the highest last qubit of a term. -/
def minQubits {R : Type} (o : Observable R) : Checked UInt32 :=
  match (o.terms.filterMap (·.pauli.maxQubit?)).map (·.id) with
  | [] => .ok 0
  | q :: rest => nextWord (rest.foldl max q)

end Observable

end QuantumSim
