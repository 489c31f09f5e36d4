/-!
Machine operations that have no result. Registers, shots and indices are machine words, and a
computation that leaves their range stops instead of going on with a wrapped value.
-/
namespace QuantumSim

inductive Fault where
  /-- An index past the end of its array. -/
  | index
  /-- A shift by the width of the word or more. -/
  | shift
  /-- A sum or difference outside the range of its word. -/
  | overflow
  deriving Repr, DecidableEq, Inhabited

namespace Fault

def message : Fault → String
  | index => "index outside its range"
  | shift => "shift by the width of the word or more"
  | overflow => "value outside the range of its word"

end Fault

/-- A computation on machine words. -/
abbrev Checked := Except Fault

/-- The word with only bit `k` set. -/
def bitMask (k : Nat) : Checked Nat := if k < 64 then .ok (1 <<< k) else .error .shift

/-- A word moved up by `k` places. -/
def shiftUp (x k : Nat) : Checked Nat := if k < 64 then .ok (x <<< k) else .error .shift

/-- Bit `k` of an index word. -/
def bitAt (i k : Nat) : Checked Nat := if k < 64 then .ok ((i >>> k) % 2) else .error .shift

/-- The next 32-bit word. -/
def nextWord (n : UInt32) : Checked UInt32 :=
  if n.toNat + 1 < UInt32.size then .ok (n + 1) else .error .overflow

/-- An array element. -/
def elementAt {α : Type} (xs : Array α) (i : Nat) : Checked α :=
  match xs[i]? with
  | some x => .ok x
  | none => .error .index

/-- An array with one element changed. -/
def changeAt {α : Type} (xs : Array α) (i : Nat) (f : α → α) : Checked (Array α) :=
  if i < xs.size then .ok (xs.modify i f) else .error .index

end QuantumSim
