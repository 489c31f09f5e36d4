/-!
Identifiers of quantum and classical bits. Qubit `q` is bit `q` of a basis index, so qubit 0 is the
least significant one.
-/
namespace QuantumSim

structure Qubit where
  id : UInt32
  deriving Repr, DecidableEq, Inhabited

structure Clbit where
  id : UInt32
  deriving Repr, DecidableEq, Inhabited

namespace Qubit

def index (q : Qubit) : Nat := q.id.toNat

def text (q : Qubit) : String := "q" ++ toString q.index

/-- The basis index with only this qubit set; registers of 64 qubits and more have none. -/
def mask? (q : Qubit) : Option Nat := if q.index < 64 then some (1 <<< q.index) else none

/-- All qubits of a register. -/
def range (n : UInt32) : List Qubit := (List.range n.toNat).map fun k => ⟨k.toUInt32⟩

end Qubit

namespace Clbit

def index (c : Clbit) : Nat := c.id.toNat

def text (c : Clbit) : String := "c" ++ toString c.index

/-- All bits of a classical register. -/
def range (n : UInt32) : List Clbit := (List.range n.toNat).map fun k => ⟨k.toUInt32⟩

end Clbit

end QuantumSim
