import QuantumSim.Random.Stream

/-!
Drawing an index with given weights: a uniform point of the total falls between two cumulative sums.
-/
namespace QuantumSim

/-- Why weights give no distribution. -/
inductive WeightError where
  | none
  | invalid
  | allZero
  deriving Repr, DecidableEq

namespace WeightError

def message : WeightError → String
  | none => "No weights provided in distribution."
  | invalid => "A weight is invalid in distribution."
  | allZero => "All weights are zero in distribution."

end WeightError

/-- Cumulative sums of weights; the last is kept apart as the total. -/
structure WeightedIndex (R : Type) where
  cumulative : Array R
  total : R

namespace WeightedIndex

variable {R : Type} [Scalar R]

/-- The distribution that gives an index its weight over the total. -/
def create (weights : List R) : Except WeightError (WeightedIndex R) :=
  match weights with
  | [] => .error .none
  | first :: rest =>
    if (first :: rest).all (fun w => Scalar.le Scalar.zero w) then
      let sums := rest.foldl (fun (acc : Array R × R) w => (acc.1.push acc.2, acc.2 + w))
        (#[], first)
      if Scalar.same sums.2 Scalar.zero then .error .allZero else .ok ⟨sums.1, sums.2⟩
    else .error .invalid

/-- The number of sums from `lo` up to `hi` that are at most `x`, plus `lo`, by bisection. -/
def bisect (sums : Array R) (x : R) (lo hi : Nat) : Nat :=
  if _h : lo < hi then
    let mid := (lo + hi) / 2
    match sums[mid]? with
    | some w => if Scalar.le w x then bisect sums x (mid + 1) hi else bisect sums x lo mid
    | none => lo
  else lo
termination_by hi - lo
decreasing_by all_goals omega

/-- The index that a number in the unit interval selects. -/
def select (d : WeightedIndex R) (draw : R) : Nat :=
  bisect d.cumulative (draw * d.total) 0 d.cumulative.size

end WeightedIndex

end QuantumSim
