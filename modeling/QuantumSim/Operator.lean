import QuantumSim.Circuit.Error

/-!
Gates as operators on their targets. Every gate becomes a diagonal or dense operator on one target
or a dense one on two, with a number of leading operands that act as controls.
-/
namespace QuantumSim

/-- A square matrix of amplitudes, row by row. -/
abbrev GateMatrix (R : Type) (n : Nat) := Vector (Vector (Amplitude R) n) n

/-- What a gate does to its targets. Bit 0 of a row index is the first target. -/
inductive Operator (R : Type) where
  /-- Multiplies by one of two factors, by the value of the target. -/
  | diagonal (zero one : Amplitude R)
  | single (m : GateMatrix R 2)
  | double (m : GateMatrix R 4)

/-- An operator whose leading operands are controls that fire on one. -/
structure LoweredGate (R : Type) where
  operator : Operator R
  controls : Nat := 0

/-- Why a matrix is not accepted as unitary. -/
inductive NonUnitary (R : Type) where
  | shape (entries : Nat) (numQubits : UInt32)
  | nonFinite (entry : Amplitude R)
  /-- The product of two rows is not what it is for orthonormal rows. -/
  | rows (row col : Nat) (product : Amplitude R)

namespace GateMatrix

variable {R : Type} [Scalar R]

open Amplitude

def x : GateMatrix R 2 := #v[#v[zero, one], #v[one, zero]]

def y : GateMatrix R 2 := #v[#v[zero, -i], #v[i, zero]]

def h : GateMatrix R 2 :=
  let s : Amplitude R := ofReal Scalar.sqrtHalf
  #v[#v[s, s], #v[s, -s]]

def sx : GateMatrix R 2 :=
  let a : Amplitude R := ⟨Scalar.half, Scalar.half⟩
  let b : Amplitude R := ⟨Scalar.half, -Scalar.half⟩
  #v[#v[a, b], #v[b, a]]

def sxdg : GateMatrix R 2 :=
  let a : Amplitude R := ⟨Scalar.half, -Scalar.half⟩
  let b : Amplitude R := ⟨Scalar.half, Scalar.half⟩
  #v[#v[a, b], #v[b, a]]

@[inline] def halfAngle (theta : R) : R := theta / Scalar.ofNat 2

def rx (theta : R) : GateMatrix R 2 :=
  let s := Scalar.sin (halfAngle theta)
  let c := Scalar.cos (halfAngle theta)
  #v[#v[ofReal c, (-i).scale s], #v[(-i).scale s, ofReal c]]

def ry (theta : R) : GateMatrix R 2 :=
  let s := Scalar.sin (halfAngle theta)
  let c := Scalar.cos (halfAngle theta)
  #v[#v[ofReal c, ofReal (-s)], #v[ofReal s, ofReal c]]

def u (theta phi lambda : R) : GateMatrix R 2 :=
  let s := Scalar.sin (halfAngle theta)
  let c := Scalar.cos (halfAngle theta)
  #v[#v[ofReal c, (-phase lambda).scale s], #v[(phase phi).scale s, (phase (phi + lambda)).scale c]]

/-- The rotation by `theta` about the axis at angle `phi` in the equatorial plane. -/
def r (theta phi : R) : GateMatrix R 2 :=
  let s := Scalar.sin (halfAngle theta)
  let c := Scalar.cos (halfAngle theta)
  #v[#v[ofReal c, ((-i) * phase (-phi)).scale s], #v[((-i) * phase phi).scale s, ofReal c]]

def swap : GateMatrix R 4 :=
  #v[#v[one, zero, zero, zero], #v[zero, zero, one, zero], #v[zero, one, zero, zero],
    #v[zero, zero, zero, one]]

def iswap : GateMatrix R 4 :=
  #v[#v[one, zero, zero, zero], #v[zero, zero, i, zero], #v[zero, i, zero, zero],
    #v[zero, zero, zero, one]]

def rxx (theta : R) : GateMatrix R 4 :=
  let c : Amplitude R := ofReal (Scalar.cos (halfAngle theta))
  let m := (-i).scale (Scalar.sin (halfAngle theta))
  #v[#v[c, zero, zero, m], #v[zero, c, m, zero], #v[zero, m, c, zero], #v[m, zero, zero, c]]

def ryy (theta : R) : GateMatrix R 4 :=
  let c : Amplitude R := ofReal (Scalar.cos (halfAngle theta))
  let m := (-i).scale (Scalar.sin (halfAngle theta))
  #v[#v[c, zero, zero, -m], #v[zero, c, m, zero], #v[zero, m, c, zero], #v[-m, zero, zero, c]]

def rzz (theta : R) : GateMatrix R 4 :=
  let a := phase (halfAngle (-theta))
  let b := phase (halfAngle theta)
  #v[#v[a, zero, zero, zero], #v[zero, b, zero, zero], #v[zero, zero, b, zero],
    #v[zero, zero, zero, a]]

omit [Scalar R] in
/-- The matrix with the given entries row by row, if their number fits. -/
def ofEntries? (n : Nat) (entries : Array (Amplitude R)) : Option (GateMatrix R n) :=
  if h : entries.size = n * n then
    some <| Vector.ofFn fun row => Vector.ofFn fun col =>
      have : row.val * n + col.val < entries.size := by
        have := Nat.mul_le_mul_right n (show row.val + 1 ≤ n from row.isLt)
        have : (row.val + 1) * n = row.val * n + n := Nat.succ_mul _ _
        omega
      entries[row.val * n + col.val]
  else none

/-- The inner product of two rows. -/
def rowProduct {n : Nat} (m : GateMatrix R n) (row col : Fin n) : Amplitude R :=
  (List.finRange n).foldl (fun acc k => acc + m[row][k] * (m[col][k]).conj) zero

/-- The first reason why the matrix is not unitary: an entry that is not finite, or a pair of rows
whose product is off by more than the tolerance. -/
def nonUnitary? {n : Nat} (m : GateMatrix R n) : Option (NonUnitary R) :=
  match (m.toList.flatMap Vector.toList).find? fun z => !z.isFinite with
  | some bad => some (.nonFinite bad)
  | none =>
    (List.finRange n).findSome? fun row => (List.finRange n).findSome? fun col =>
      let product := m.rowProduct row col
      let expected : Amplitude R := if row = col then one else zero
      if Scalar.lt Scalar.tolerance (product - expected).norm then
        some (.rows row.val col.val product)
      else none

end GateMatrix

namespace StandardGate

variable {R : Type} [Scalar R]

open Amplitude

/-- The phases of a rotation about the vertical axis. -/
def rzPhases (theta : R) : Operator R :=
  .diagonal (phase (GateMatrix.halfAngle (-theta))) (phase (GateMatrix.halfAngle theta))

/-- The operator of a gate with numbers for angles. -/
def lower (g : StandardGate R) : LoweredGate R :=
  match g with
  | ⟨.i, _⟩ => ⟨.diagonal one one, 0⟩
  | ⟨.x, _⟩ => ⟨.single .x, 0⟩
  | ⟨.y, _⟩ => ⟨.single .y, 0⟩
  | ⟨.z, _⟩ => ⟨.diagonal one (-one), 0⟩
  | ⟨.h, _⟩ => ⟨.single .h, 0⟩
  | ⟨.s, _⟩ => ⟨.diagonal one i, 0⟩
  | ⟨.sdg, _⟩ => ⟨.diagonal one (-i), 0⟩
  | ⟨.t, _⟩ => ⟨.diagonal one (phase (Scalar.pi / Scalar.ofNat 4)), 0⟩
  | ⟨.tdg, _⟩ => ⟨.diagonal one (phase (-(Scalar.pi / Scalar.ofNat 4))), 0⟩
  | ⟨.sx, _⟩ => ⟨.single .sx, 0⟩
  | ⟨.sxdg, _⟩ => ⟨.single .sxdg, 0⟩
  | ⟨.rx, a⟩ => ⟨.single (.rx a[0]), 0⟩
  | ⟨.ry, a⟩ => ⟨.single (.ry a[0]), 0⟩
  | ⟨.rz, a⟩ => ⟨rzPhases a[0], 0⟩
  | ⟨.p, a⟩ => ⟨.diagonal one (phase a[0]), 0⟩
  | ⟨.u, a⟩ => ⟨.single (.u a[0] a[1] a[2]), 0⟩
  | ⟨.u1, a⟩ => ⟨.diagonal one (phase a[0]), 0⟩
  | ⟨.u2, a⟩ => ⟨.single (.u (Scalar.pi / Scalar.ofNat 2) a[0] a[1]), 0⟩
  | ⟨.u3, a⟩ => ⟨.single (.u a[0] a[1] a[2]), 0⟩
  | ⟨.r, a⟩ => ⟨.single (.r a[0] a[1]), 0⟩
  | ⟨.cx, _⟩ => ⟨.single .x, 1⟩
  | ⟨.cy, _⟩ => ⟨.single .y, 1⟩
  | ⟨.cz, _⟩ => ⟨.diagonal one (-one), 1⟩
  | ⟨.ch, _⟩ => ⟨.single .h, 1⟩
  | ⟨.swap, _⟩ => ⟨.double .swap, 0⟩
  | ⟨.iswap, _⟩ => ⟨.double .iswap, 0⟩
  | ⟨.crx, a⟩ => ⟨.single (.rx a[0]), 1⟩
  | ⟨.cry, a⟩ => ⟨.single (.ry a[0]), 1⟩
  | ⟨.crz, a⟩ => ⟨rzPhases a[0], 1⟩
  | ⟨.cp, a⟩ => ⟨.diagonal one (phase a[0]), 1⟩
  | ⟨.rxx, a⟩ => ⟨.double (.rxx a[0]), 0⟩
  | ⟨.ryy, a⟩ => ⟨.double (.ryy a[0]), 0⟩
  | ⟨.rzz, a⟩ => ⟨.double (.rzz a[0]), 0⟩
  | ⟨.ccx, _⟩ => ⟨.single .x, 2⟩
  | ⟨.cswap, _⟩ => ⟨.double .swap, 1⟩

end StandardGate

namespace MatrixGate

variable {R : Type} [Scalar R]

/-- The operator of a user matrix, which has to be unitary and act on one or two qubits. -/
def lower (g : MatrixGate R) : Except (NonUnitary R) (LoweredGate R) :=
  let shape : Except (NonUnitary R) (LoweredGate R) := .error (.shape g.entries.size g.numQubits)
  let checked {n : Nat} (m : GateMatrix R n) (op : Operator R) :
      Except (NonUnitary R) (LoweredGate R) :=
    match m.nonUnitary? with
    | some reason => .error reason
    | none => .ok ⟨op, 0⟩
  if g.numQubits = 1 then
    match GateMatrix.ofEntries? 2 g.entries with
    | some m => checked m (.single m)
    | none => shape
  else if g.numQubits = 2 then
    match GateMatrix.ofEntries? 4 g.entries with
    | some m => checked m (.double m)
    | none => shape
  else shape

end MatrixGate

end QuantumSim
