import QuantumSim.Circuit.Builder

/-!
Ready circuits: the Bell pair, the cat states and the Fourier transform.
-/
namespace QuantumSim.Circuit

variable {R : Type}

/-- A Bell pair, measured. -/
def bell : Except (CircuitError R) (Circuit R) :=
  (withSize "bell" 2 2).build do
    Builder.h ⟨0⟩
    Builder.cx ⟨0⟩ ⟨1⟩
    Builder.measure ⟨0⟩ ⟨0⟩
    Builder.measure ⟨1⟩ ⟨1⟩

/-- The state of all zeros plus all ones on `n` qubits, measured. -/
def ghz (n : UInt32) : Except (CircuitError R) (Circuit R) :=
  if n = 0 then .ok (empty "ghz_0")
  else
    (withSize "ghz" n n).build do
      Builder.h ⟨0⟩
      ((Qubit.range n).zip (Qubit.range n).tail).forM fun pair => Builder.cx pair.1 pair.2
      (Qubit.range n).forM fun q => Builder.measure q ⟨q.id⟩

/-- Two to the power of a distance, as a 32-bit word. -/
def powerWord (k : Nat) : Checked Nat := if k < 32 then .ok (1 <<< k) else .error .shift

/-- The turn of qubit `i` by a qubit above it. -/
def appendTurn [Scalar R] (i j : Nat) : Builder R Unit := do
  let parts ← Builder.lift (CircuitError.ofChecked (powerWord (j - i)))
  Builder.cp (.value (Scalar.pi / Scalar.ofNat parts)) ⟨j.toUInt32⟩ ⟨i.toUInt32⟩

/-- The turns that qubit `i` of a Fourier transform takes from the qubits above it. -/
def fourierTurns [Scalar R] (n : UInt32) (i : Nat) : Builder R Unit :=
  (List.range' (i + 1) (n.toNat - (i + 1))).forM (appendTurn i)

/-- The quantum Fourier transform on `n` qubits, without measurements. -/
def qft [Scalar R] (n : UInt32) : Except (CircuitError R) (Circuit R) :=
  if n = 0 then .ok (empty "qft_0")
  else
    (withSize "qft" n 0).build do
      (List.range n.toNat).forM fun i => do
        Builder.h ⟨i.toUInt32⟩
        fourierTurns n i
      (List.range (n.toNat / 2)).forM fun i =>
        Builder.swap ⟨i.toUInt32⟩ ⟨(n.toNat - 1 - i).toUInt32⟩

end QuantumSim.Circuit
