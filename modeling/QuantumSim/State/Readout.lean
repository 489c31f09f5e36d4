import QuantumSim.Observable
import QuantumSim.State

/-!
Reading a state without changing it: norm, probabilities, marginals and expectation values.
-/
namespace QuantumSim.Statevector

variable {R : Type} [Scalar R]

/-- How a reduction over this state is divided among workers. -/
def split {R : Type} (s : Statevector R) : Split := s.machine.split s.size

/-- What an index contributes to a sum; nothing past the end. -/
@[inline] def term (s : Statevector R) (f : Nat → Amplitude R → R) (i : Nat) : R :=
  match s.amplitudes[i]? with
  | some a => f i a
  | none => Scalar.zero

/-- The sum of `f` over the indices from `start` to `stop` with their amplitudes, in index order. -/
@[specialize] def sumRange (s : Statevector R) (f : Nat → Amplitude R → R) (start stop : Nat) : R :=
  (List.range' start (stop - start)).foldl (fun acc i => acc + s.term f i) Scalar.zero

/-- The sum of `f` over all indices, divided as the machine says. -/
def sumSplit (s : Statevector R) (f : Nat → Amplitude R → R) : R :=
  s.split.reduce (s.sumRange f) (· + ·) 0 s.size

/-- The sum of the squared magnitudes. -/
def normSq (s : Statevector R) : R := s.sumSplit fun _ a => a.normSq

/-- Refuses a state whose squared norm is not one within the tolerance. -/
def checkNorm (s : Statevector R) (context : NormContext) : Except (SimulationError R) Unit :=
  let n := s.normSq
  if Scalar.lt Scalar.tolerance (Scalar.abs (n - Scalar.one)) || !Scalar.isFinite n then
    .error (.normViolation n context)
  else .ok ()

def probabilities (s : Statevector R) : Array R := s.amplitudes.map Amplitude.normSq

/-- The probability of reading one on a qubit. -/
def probabilityOne (s : Statevector R) (qubit : Nat) : Checked R := do
  let mask ← bitMask qubit
  return s.sumSplit fun i a => if i &&& mask = 0 then Scalar.zero else a.normSq

/-- The reading of the listed qubits in a basis index: bit `j` is the value of the `j`-th one. -/
def reading (qubits : List Qubit) (i : Nat) : Checked Nat :=
  qubits.zipIdx.foldlM (fun k e => do
    let bit ← bitAt i e.1.index
    return k ||| (← shiftUp bit e.2)) 0

/-- Adds the probability of an index to the entry of its reading. -/
def addToMarginal (qubits : List Qubit) (marginal : Array R) (i : Nat) (a : Amplitude R) :
    Checked (Array R) :=
  let p := a.normSq
  if Scalar.same p Scalar.zero then .ok marginal
  else do
    let k ← reading qubits i
    changeAt marginal k (· + p)

/-- The distribution of the readings of the listed qubits. -/
def marginalProbabilities (s : Statevector R) (qubits : List Qubit) : Checked (Array R) := do
  let size ← bitMask qubits.length
  let leaf (start stop : Nat) : Checked (Array R) :=
    (List.range' start (stop - start)).foldlM
      (fun m i => do addToMarginal qubits m i (← elementAt s.amplitudes i))
      (Array.replicate size Scalar.zero)
  s.split.reduce leaf (fun a b => do return Array.zipWith (· + ·) (← a) (← b)) 0 s.size

/-- Whether an odd number of bits is set. -/
def oddBits (n : Nat) : Bool :=
  if n = 0 then false else (n % 2 == 1) != oddBits (n / 2)

/-- A Pauli string as the bits it flips, the bits whose ones change the sign, and the number of its
operators `y`. -/
structure PauliMasks where
  flip : Nat := 0
  sign : Nat := 0
  numY : Nat := 0

def PauliMasks.add (m : PauliMasks) (qubit : Qubit) (op : Pauli) : Checked PauliMasks := do
  let bit ← bitMask qubit.index
  return match op with
    | .i => m
    | .x => { m with flip := m.flip ||| bit }
    | .y => ⟨m.flip ||| bit, m.sign ||| bit, m.numY + 1⟩
    | .z => { m with sign := m.sign ||| bit }

def pauliMasks (pauli : PauliString) : Checked PauliMasks :=
  pauli.ops.foldlM (fun m op => m.add op.1 op.2) {}

/-- The sum over all indices of the amplitude there, the conjugate one that the flips lead to, and
the sign. -/
def maskedSum (s : Statevector R) (m : PauliMasks) : Checked (Amplitude R) :=
  (List.range s.size).foldlM (fun acc i => do
    let partner ← elementAt s.amplitudes (i ^^^ m.flip)
    let a ← elementAt s.amplitudes i
    let sign := if oddBits (i &&& m.sign) then -Scalar.one else Scalar.one
    return acc + (partner.conj * a).scale sign) Amplitude.zero

/-- The expectation value of one weighted string. -/
def termExpectation (s : Statevector R) (term : ObservableTerm R) : Checked R := do
  let m ← pauliMasks term.pauli
  let value ← s.maskedSum m
  return term.coeff * (Amplitude.iPow m.numY * value).re

/-- The expectation value of an observable. The sum starts at minus zero. -/
def expectation (s : Statevector R) (o : Observable R) : Checked R :=
  o.terms.foldlM (fun acc term => do return acc + (← s.termExpectation term)) (-Scalar.zero)

end QuantumSim.Statevector
