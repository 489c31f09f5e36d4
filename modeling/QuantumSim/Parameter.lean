import QuantumSim.Dict
import QuantumSim.Scalar
import QuantumSim.Decimal.Text

/-!
Gate angles. An angle is a number of radians or a linear function of a named symbol; the symbol gets
its value when a circuit is run, so one circuit serves many runs.
-/
namespace QuantumSim

/-- An angle: a number, or `scale * name + shift`. -/
inductive Parameter (R : Type) where
  | value (v : R)
  | symbol (name : String) (scale shift : R)
  deriving Repr, BEq, DecidableEq

/-- Values for symbols. -/
abbrev Bindings (R : Type) := Dict R

/-- Why an angle has no value. -/
inductive ParameterError (R : Type) where
  | unbound (name : String)
  | notFinite (parameter : Parameter R)

namespace Parameter

variable {R : Type} [Scalar R]

def ofName (name : String) : Parameter R := symbol name Scalar.one Scalar.zero

def scaled (factor : R) : Parameter R → Parameter R
  | value v => value (v * factor)
  | symbol name scale shift => symbol name (scale * factor) (shift * factor)

def shifted (offset : R) : Parameter R → Parameter R
  | value v => value (v + offset)
  | symbol name scale shift => symbol name scale (shift + offset)

omit [Scalar R] in
def isSymbolic : Parameter R → Bool
  | value _ => false
  | symbol .. => true

omit [Scalar R] in
def symbolName? : Parameter R → Option String
  | value _ => none
  | symbol name _ _ => some name

omit [Scalar R] in
def value? : Parameter R → Option R
  | value v => some v
  | symbol .. => none

/-- The number under the given bindings; it has to be finite. -/
def resolve (bindings : Bindings R) (p : Parameter R) : Except (ParameterError R) R :=
  let checked (v : R) : Except (ParameterError R) R :=
    if Scalar.isFinite v then .ok v else .error (.notFinite p)
  match p with
  | value v => checked v
  | symbol name scale shift =>
    match bindings.get? name with
    | some bound => checked (scale * bound + shift)
    | none => .error (.unbound name)

/-- Gives the symbol its value if it has one. -/
def bind (bindings : Bindings R) : Parameter R → Parameter R
  | value v => value v
  | symbol name scale shift =>
    match bindings.get? name with
    | some bound => value (scale * bound + shift)
    | none => symbol name scale shift

/-- A shift with its sign written out. -/
def signed (x : Float) : String :=
  if x.isNaN || Decimal.isNegative x then Decimal.shortest x else "+" ++ Decimal.shortest x

def text : Parameter Float → String
  | value v => Decimal.shortest v
  | symbol name scale shift =>
    (if scale == 1 then name else Decimal.shortest scale ++ "*" ++ name) ++
      (if shift != 0 then signed shift else "")

end Parameter

end QuantumSim
