import QuantumSim.Fault
import QuantumSim.Operator

/-!
Gate kernels on arrays of amplitudes. A kernel walks groups of indices that differ in the target
bits only, pairs for one target and quadruples for two, chunk by chunk. A control condition selects
the groups that change.
-/
namespace QuantumSim

/-- The condition `i &&& mask = value` on basis indices. -/
structure ControlMask where
  mask : Nat := 0
  value : Nat := 0
  deriving Repr, DecidableEq, Inhabited

namespace ControlMask

/-- Adds a control on a qubit that fires on one or on zero. -/
def add (c : ControlMask) (qubit : Nat) (onOne : Bool) : Checked ControlMask := do
  let bit ← bitMask qubit
  return ⟨c.mask ||| bit, if onOne then c.value ||| bit else c.value⟩

@[inline] def fires (c : ControlMask) (i : Nat) : Bool := i &&& c.mask == c.value

end ControlMask

namespace Kernel

variable {R : Type} [Scalar R]

omit [Scalar R] in
/-- Runs `body` on the offset of every chunk of `len` indices in turn. -/
@[inline] def overChunks (len : Nat)
    (body : Nat → Array (Amplitude R) → Checked (Array (Amplitude R)))
    (amps : Array (Amplitude R)) : Checked (Array (Amplitude R)) :=
  (List.range ((amps.size + len - 1) / len)).foldlM (fun amps k => body (k * len) amps) amps

/-- Replaces the amplitudes at `i` and `j` by their images under `m`. -/
@[specialize] def updatePair (m : GateMatrix R 2) (i j : Nat) (amps : Array (Amplitude R)) :
    Checked (Array (Amplitude R)) := do
  let a ← elementAt amps i
  let b ← elementAt amps j
  let amps := amps.setIfInBounds i (m[0][0] * a + m[0][1] * b)
  return amps.setIfInBounds j (m[1][0] * a + m[1][1] * b)

/-- The pairs of one chunk, whose lower half has the target bit clear. -/
@[specialize] def pairChunk (m : GateMatrix R 2) (stride : Nat) (ctrl : ControlMask) (offset : Nat)
    (amps : Array (Amplitude R)) : Checked (Array (Amplitude R)) :=
  (List.range stride).foldlM (fun amps j =>
    if ctrl.fires (offset + j) then updatePair m (offset + j) (offset + j + stride) amps
    else .ok amps) amps

/-- Applies a dense operator to one target. -/
@[specialize] def applySingle (m : GateMatrix R 2) (target : Nat) (ctrl : ControlMask)
    (amps : Array (Amplitude R)) : Checked (Array (Amplitude R)) := do
  let stride ← bitMask target
  overChunks (2 * stride) (pairChunk m stride ctrl) amps

/-- Multiplies the amplitude at `i` by the factor for the value of the target bit. -/
@[specialize] def phaseAt (zero one : Amplitude R) (mask : Nat) (ctrl : ControlMask)
    (amps : Array (Amplitude R)) (i : Nat) : Array (Amplitude R) :=
  if ctrl.fires i then amps.modify i fun a => a * (if i &&& mask = 0 then zero else one) else amps

/-- Applies a diagonal operator to one target. -/
@[specialize] def applyDiagonal (zero one : Amplitude R) (target : Nat) (ctrl : ControlMask)
    (amps : Array (Amplitude R)) : Checked (Array (Amplitude R)) := do
  let mask ← bitMask target
  return (List.range amps.size).foldl (phaseAt zero one mask ctrl) amps

/-- One row of a matrix times a column of four amplitudes. -/
@[inline] def rowTimes (row : Vector (Amplitude R) 4) (a b c d : Amplitude R) : Amplitude R :=
  row[0] * a + row[1] * b + row[2] * c + row[3] * d

/-- Replaces the amplitudes at four indices by their images under `m`, in order. -/
@[specialize] def updateQuad (m : GateMatrix R 4) (i j k l : Nat) (amps : Array (Amplitude R)) :
    Checked (Array (Amplitude R)) := do
  let a ← elementAt amps i
  let b ← elementAt amps j
  let c ← elementAt amps k
  let d ← elementAt amps l
  let amps := amps.setIfInBounds i (rowTimes m[0] a b c d)
  let amps := amps.setIfInBounds j (rowTimes m[1] a b c d)
  let amps := amps.setIfInBounds k (rowTimes m[2] a b c d)
  return amps.setIfInBounds l (rowTimes m[3] a b c d)

/-- The quadruples of one chunk, whose first members have both target bits clear. -/
@[specialize] def quadChunk (m : GateMatrix R 4) (m0 m1 : Nat) (ctrl : ControlMask) (offset : Nat)
    (amps : Array (Amplitude R)) : Checked (Array (Amplitude R)) :=
  ((List.range (max m0 m1)).filter fun j => j &&& min m0 m1 == 0).foldlM (fun amps j =>
    if ctrl.fires (offset + j) then
      updateQuad m (offset + j) (offset + (j ||| m0)) (offset + (j ||| m1))
        (offset + (j ||| m0 ||| m1)) amps
    else .ok amps) amps

/-- Applies a dense operator to two targets; bit 0 of a row index is the first. -/
@[specialize] def applyDouble (m : GateMatrix R 4) (first second : Nat) (ctrl : ControlMask)
    (amps : Array (Amplitude R)) : Checked (Array (Amplitude R)) := do
  let m0 ← bitMask first
  let m1 ← bitMask second
  overChunks (2 * max m0 m1) (quadChunk m m0 m1 ctrl) amps

end Kernel

end QuantumSim
