import QuantumSim.Circuit

/-!
The calls of a builder, one function per kind of instruction. Each appends a checked instruction to
the circuit it works on.
-/
namespace QuantumSim

/-- The gate of that name with those angles. -/
def StandardGate.ofName {R : Type} (name : String) (angles : List (Parameter R)) :
    Except (CircuitError R) (StandardGate (Parameter R)) :=
  match GateSymbol.ofName? name with
  | none => .error (.unknownGate name)
  | some symbol =>
    match StandardGate.ofSymbol? symbol angles with
    | some gate => .ok gate
    | none => .error (.parameterCount name symbol.arity angles.length)

namespace Builder

variable {R : Type}

/-- Appends a gate of the fixed set. -/
def gate (g : StandardGate (Parameter R)) (qubits : List Qubit) : Builder R Unit :=
  append (.standard g qubits)

def h (q : Qubit) : Builder R Unit := gate (.plain .h) [q]
def x (q : Qubit) : Builder R Unit := gate (.plain .x) [q]
def y (q : Qubit) : Builder R Unit := gate (.plain .y) [q]
def z (q : Qubit) : Builder R Unit := gate (.plain .z) [q]
def s (q : Qubit) : Builder R Unit := gate (.plain .s) [q]
def sdg (q : Qubit) : Builder R Unit := gate (.plain .sdg) [q]
def t (q : Qubit) : Builder R Unit := gate (.plain .t) [q]
def tdg (q : Qubit) : Builder R Unit := gate (.plain .tdg) [q]
def sx (q : Qubit) : Builder R Unit := gate (.plain .sx) [q]

def rx (theta : Parameter R) (q : Qubit) : Builder R Unit := gate (.rotation .rx theta) [q]
def ry (theta : Parameter R) (q : Qubit) : Builder R Unit := gate (.rotation .ry theta) [q]
def rz (theta : Parameter R) (q : Qubit) : Builder R Unit := gate (.rotation .rz theta) [q]

/-- Appends a phase gate. -/
def p (lambda : Parameter R) (q : Qubit) : Builder R Unit := gate (.rotation .p lambda) [q]

/-- Appends the general one-qubit gate. -/
def u (theta phi lambda : Parameter R) (q : Qubit) : Builder R Unit :=
  gate ⟨.u, #v[theta, phi, lambda]⟩ [q]

def cx (control target : Qubit) : Builder R Unit := gate (.plain .cx) [control, target]
def cy (control target : Qubit) : Builder R Unit := gate (.plain .cy) [control, target]
def cz (control target : Qubit) : Builder R Unit := gate (.plain .cz) [control, target]
def ch (control target : Qubit) : Builder R Unit := gate (.plain .ch) [control, target]
def swap (a b : Qubit) : Builder R Unit := gate (.plain .swap) [a, b]
def iswap (a b : Qubit) : Builder R Unit := gate (.plain .iswap) [a, b]

def cry (theta : Parameter R) (control target : Qubit) : Builder R Unit :=
  gate (.rotation .cry theta) [control, target]

def crz (theta : Parameter R) (control target : Qubit) : Builder R Unit :=
  gate (.rotation .crz theta) [control, target]

def cp (lambda : Parameter R) (control target : Qubit) : Builder R Unit :=
  gate (.rotation .cp lambda) [control, target]

def rzz (theta : Parameter R) (a b : Qubit) : Builder R Unit :=
  gate (.rotation .rzz theta) [a, b]

def ccx (a b target : Qubit) : Builder R Unit := gate (.plain .ccx) [a, b, target]
def cswap (control a b : Qubit) : Builder R Unit := gate (.plain .cswap) [control, a, b]

/-- Appends a gate of the fixed set with extra controls. -/
def controlled (g : StandardGate (Parameter R)) (controls : List Control)
    (targets : List Qubit) : Builder R Unit :=
  append (.ofGate ((Gate.ofStandard g).withControls controls) targets)

/-- Flips the target where all controls fire. -/
def mcx (controls : List Control) (target : Qubit) : Builder R Unit :=
  controlled (.plain .x) controls [target]

/-- Changes the sign where the target is one and all controls fire. -/
def mcz (controls : List Control) (target : Qubit) : Builder R Unit :=
  controlled (.plain .z) controls [target]

/-- Appends a user matrix. -/
def unitary (g : MatrixGate R) (qubits : List Qubit) : Builder R Unit :=
  append (.ofGate (.ofMatrix g) qubits)

/-- Appends the gate of that name. -/
def applyNamed (name : String) (angles : List (Parameter R)) (targets : List Qubit)
    (controls : List Control) : Builder R Unit := do
  let g ← lift (StandardGate.ofName name angles)
  controlled g controls targets

def measure (q : Qubit) (b : Clbit) : Builder R Unit := append (.measure [q] [b])

/-- Adds classical bits one by one. -/
def addClbits : Nat → Builder R Unit
  | 0 => return ()
  | n + 1 => do
    let _ ← addClbit
    addClbits n

/-- Measures qubit `k` into classical bit `k` for every qubit, after adding the classical bits that
are missing. -/
def measureAll : Builder R Unit := do
  let c ← get
  addClbits (c.numQubits.toNat - c.numClbits.toNat)
  append (.measure (Qubit.range c.numQubits) (Clbit.range c.numQubits))

def reset (q : Qubit) : Builder R Unit := append (.reset q)

def barrier (qubits : List Qubit) : Builder R Unit := append (.barrier qubits)

end Builder

end QuantumSim
