import QuantumSim.Dict
import QuantumSim.Scalar

/-!
Counts of measured bit strings. The rightmost character belongs to classical bit 0.
-/
namespace QuantumSim

structure Counts where
  table : Dict UInt64

namespace Counts

def empty : Counts := ⟨.empty⟩

instance : Inhabited Counts := ⟨empty⟩

def get (c : Counts) (bits : String) : UInt64 := (c.table.get? bits).getD 0

/-- Adds occurrences of a bit string. -/
def insert (c : Counts) (bits : String) (n : UInt64) : Counts :=
  ⟨c.table.insert bits (c.get bits + n)⟩

/-- Counts of one bit string listed twice are added. -/
def ofList (pairs : List (String × UInt64)) : Counts :=
  pairs.foldl (fun c pair => c.insert pair.1 pair.2) empty

/-- Bit strings with their counts, by bit string. -/
def toList (c : Counts) : List (String × UInt64) := c.table.entries

def size (c : Counts) : Nat := c.table.size

def isEmpty (c : Counts) : Bool := c.table.isEmpty

/-- The number of shots. -/
def total (c : Counts) : Nat := c.table.values.foldl (fun n k => n + k.toNat) 0

/-- By count, largest first, then by bit string. -/
def sorted (c : Counts) : List (String × UInt64) := c.toList.mergeSort fun a b => b.2 ≤ a.2

/-- A bit string with the largest count; of several the first. -/
def mostFrequent? (c : Counts) : Option (String × UInt64) := c.sorted.head?

/-- Whether several bit strings share the largest count. -/
def isTied (c : Counts) : Bool :=
  match c.sorted with
  | a :: b :: _ => a.2 == b.2
  | _ => false

variable {R : Type} [Scalar R]

/-- The share of a count in the total. -/
def share (c : Counts) (n : UInt64) : R := Scalar.ofNat n.toNat / Scalar.ofNat c.total

/-- The share of every bit string; nothing if nothing was counted. -/
def probabilities (c : Counts) : List (String × R) :=
  if c.total = 0 then [] else c.toList.map fun e => (e.1, c.share e.2)

end Counts

end QuantumSim
