import QuantumSim.Backend.Error
import QuantumSim.Decimal.Text
import QuantumSim.Operator
import QuantumSim.Random.Weighted

/-!
What can fail while a circuit runs.
-/
namespace QuantumSim

/-- Where the norm of a state was checked. -/
inductive NormContext where
  | gate (name : String)
  | circuit (name : String)
  | shot (number : Nat) (circuit : String)
  | other (text : String)
  deriving Repr, DecidableEq

/-- Why a measurement has no outcome. -/
inductive MeasurementError (R : Type) where
  /-- The two outcome probabilities do not add up to one. -/
  | total (sum : R)
  | impossible (outcome : Bool) (probability : R)

inductive SimulationError (R : Type) where
  | nonUnitary (cause : NonUnitary R)
  | normViolation (normSq : R) (context : NormContext)
  | inconsistentMeasurement (qubit : UInt32) (cause : MeasurementError R)
  | sampling (cause : WeightError)
  | circuit (cause : CircuitError R)
  | fault (cause : Fault)

namespace NormContext

def text : NormContext → String
  | gate name => "gate '" ++ name ++ "'"
  | circuit name => "circuit '" ++ name ++ "'"
  | shot number name => "shot " ++ toString number ++ " of circuit '" ++ name ++ "'"
  | other text => text

end NormContext

namespace Amplitude

/-- The size of a part, with the sign bit of a zero kept. -/
def partText (x : Float) : String := Decimal.shortest (if x < 0 then 0 - x else x)

/-- Real part, sign of the imaginary part, its size, and the unit. -/
def text (z : Amplitude Float) : String :=
  (if z.re < 0 then "-" else "") ++ partText z.re ++ (if z.im < 0 then "-" else "+") ++
    partText z.im ++ "i"

end Amplitude

namespace NonUnitary

def message : NonUnitary Float → String
  | shape entries n => toString entries ++ " entries for a " ++ toString n ++ "-qubit matrix"
  | nonFinite z => "non-finite entry " ++ z.text
  | rows row col product =>
    "(U U†)[" ++ toString row ++ "][" ++ toString col ++ "] = " ++ product.text

end NonUnitary

namespace MeasurementError

def message : MeasurementError Float → String
  | total sum => "outcome probabilities sum to " ++ Decimal.shortest sum
  | impossible outcome p =>
    "selected outcome " ++ (if outcome then "1" else "0") ++ " has probability " ++
      Decimal.shortest p

end MeasurementError

namespace SimulationError

def ofChecked {R α : Type} (c : Checked α) : Except (SimulationError R) α := c.mapError fault

/-- The name of the cause. -/
def kind {R : Type} : SimulationError R → String
  | nonUnitary _ => "NonUnitary"
  | normViolation .. => "NormViolation"
  | inconsistentMeasurement .. => "InconsistentMeasurement"
  | sampling _ => "Sampling"
  | circuit cause => cause.kind
  | fault _ => "Fault"

def message : SimulationError Float → String
  | nonUnitary cause => "Gate 'unitary' is not unitary: " ++ cause.message
  | normViolation n context =>
    "State norm " ++ Decimal.fixed 12 n ++ " deviates from 1 after " ++ context.text
  | inconsistentMeasurement q cause =>
    "Measurement of qubit " ++ toString q ++ " is inconsistent: " ++ cause.message
  | sampling cause => "Sampling failed: " ++ cause.message
  | circuit cause => cause.message
  | fault cause => cause.message

/-- A failed run as seen by a caller of a backend. -/
def toBackendError : SimulationError Float → BackendError
  | circuit cause => .ofCircuitError cause
  | fault cause => .fault cause
  | e => .executionFailure e.message

end SimulationError

end QuantumSim
