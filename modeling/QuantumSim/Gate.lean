import QuantumSim.Gate.Symbol
import QuantumSim.Amplitude
import QuantumSim.Parameter
import QuantumSim.Wire

/-!
Gates: a member of the fixed set with its angles or a user matrix, with extra controls and a label.
A gate of the set is generic in its angles, so a gate with symbols and a gate with numbers are the
same shape.
-/
namespace QuantumSim

/-- A gate of the fixed set with its angles. Of a controlled gate the leading operands are the
controls. -/
structure StandardGate (α : Type) where
  symbol : GateSymbol
  angles : Vector α symbol.arity
  deriving Repr

namespace StandardGate

variable {α β : Type}

def name (g : StandardGate α) : String := g.symbol.name

def numQubits (g : StandardGate α) : UInt32 := g.symbol.numQubits

def isDiagonal (g : StandardGate α) : Bool := g.symbol.isDiagonal

/-- The angles in order. -/
def parameters (g : StandardGate α) : List α := g.angles.toList

def map (f : α → β) (g : StandardGate α) : StandardGate β := ⟨g.symbol, g.angles.map f⟩

/-- Gives every angle its value, or fails as the first of them does. -/
def resolve {ε : Type} (f : α → Except ε β) (g : StandardGate α) : Except ε (StandardGate β) := do
  let angles ← g.angles.mapM f
  return ⟨g.symbol, angles⟩

/-- A gate of the set with a list of angles, if the list has the right length. -/
def ofSymbol? (symbol : GateSymbol) (angles : List α) : Option (StandardGate α) :=
  if h : angles.length = symbol.arity then some ⟨symbol, ⟨angles.toArray, h⟩⟩ else none

/-- A gate without angles. -/
def plain (symbol : GateSymbol) (h : symbol.arity = 0 := by decide) : StandardGate α :=
  ⟨symbol, ⟨#[], h.symm⟩⟩

/-- A gate with one angle. -/
def rotation (symbol : GateSymbol) (angle : α) (h : symbol.arity = 1 := by decide) :
    StandardGate α :=
  ⟨symbol, ⟨#[angle], h.symm⟩⟩

def isParameterized {R : Type} (g : StandardGate (Parameter R)) : Bool :=
  g.parameters.any Parameter.isSymbolic

end StandardGate

/-- The basis value of a control qubit on which a gate fires. -/
inductive Polarity where
  | positive
  | negative
  deriving Repr, DecidableEq, Inhabited

/-- An extra control of a gate. -/
structure Control where
  qubit : Qubit
  polarity : Polarity
  deriving Repr, DecidableEq, Inhabited

namespace Control

/-- Whether the gate fires when the control has the given value. -/
def firesOn (c : Control) (bit : Bool) : Bool :=
  match c.polarity with
  | .positive => bit
  | .negative => !bit

end Control

/-- A user matrix, row by row. The first operand is the least significant bit of a row index. -/
structure MatrixGate (R : Type) where
  numQubits : UInt32
  entries : Array (Amplitude R)
  deriving Repr, BEq

/-- Why a list of entries is no gate matrix. -/
inductive MatrixError where
  | width (numQubits : UInt32)
  | size (numQubits : UInt32) (expected got : Nat)
  deriving Repr, DecidableEq

namespace MatrixError

def message : MatrixError → String
  | width n => "only 1- and 2-qubit matrices are supported, got " ++ toString n ++ " qubits"
  | size n expected got =>
    "expected " ++ toString expected ++ " entries for a " ++ toString n ++
      "-qubit matrix, got " ++ toString got

end MatrixError

namespace MatrixGate

variable {R : Type}

/-- A matrix of the right shape. Whether it is unitary is decided when it is applied. -/
def create (numQubits : UInt32) (entries : Array (Amplitude R)) :
    Except MatrixError (MatrixGate R) :=
  if numQubits = 1 ∨ numQubits = 2 then
    let dim := 1 <<< numQubits.toNat
    if entries.size = dim * dim then .ok ⟨numQubits, entries⟩
    else .error (.size numQubits (dim * dim) entries.size)
  else .error (.width numQubits)

end MatrixGate

inductive GateKind (R : Type) where
  | standard (gate : StandardGate (Parameter R))
  | matrix (gate : MatrixGate R)

namespace GateKind

variable {R : Type}

def name : GateKind R → String
  | standard g => g.name
  | matrix _ => "unitary"

def numQubits : GateKind R → UInt32
  | standard g => g.numQubits
  | matrix g => g.numQubits

end GateKind

/-- A gate with extra controls on top of those its kind implies. -/
structure Gate (R : Type) where
  kind : GateKind R
  controls : List Control := []
  label : Option String := none

namespace Gate

variable {R : Type}

def ofStandard (g : StandardGate (Parameter R)) : Gate R := ⟨.standard g, [], none⟩

def ofMatrix (g : MatrixGate R) : Gate R := ⟨.matrix g, [], none⟩

def withControls (g : Gate R) (controls : List Control) : Gate R :=
  { g with controls := g.controls ++ controls }

def withLabel (g : Gate R) (label : String) : Gate R := { g with label := some label }

def name (g : Gate R) : String := g.kind.name

/-- The number of operands; extra controls are not operands. -/
def numQubits (g : Gate R) : UInt32 := g.kind.numQubits

def parameters (g : Gate R) : List (Parameter R) :=
  match g.kind with
  | .standard s => s.parameters
  | .matrix _ => []

def isParameterized (g : Gate R) : Bool := g.parameters.any Parameter.isSymbolic

/-- Whether the gate only changes phases; controls keep that property. -/
def isDiagonal (g : Gate R) : Bool :=
  match g.kind with
  | .standard s => s.isDiagonal
  | .matrix _ => false

def bind [Scalar R] (bindings : Bindings R) (g : Gate R) : Gate R :=
  match g.kind with
  | .standard s => { g with kind := .standard (s.map (Parameter.bind bindings)) }
  | .matrix _ => g

end Gate

end QuantumSim
