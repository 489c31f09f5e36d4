import Mathlib
import QuantumSim.Proofs.InPlace
import QuantumSim.Proofs.WorkUnits

/-!
Kernels divided into work units. A unit makes the accesses of one chunk body in their order. It
keeps to the indices of its chunk, so that the bodies can run in any order and side by side.
-/
namespace QuantumSim

namespace WorkUnit

variable {α κ : Type} {ks : List κ} {step : κ → WorkUnit α → WorkUnit α}

/-- After a read the element is known to be there. -/
theorem run_read {i : ℕ} {next : α → WorkUnit α} {xs : Array α} {f : α → Checked (Array α)}
    (h : ∀ a, i < xs.size → (next a).run xs = f a) :
    (read i next).run xs = elementAt xs i >>= f := by
  rw [run]
  by_cases hi : i < xs.size
  · rw [elementAt_eq hi, ok_bind, ok_bind, h _ hi]
  · rw [elementAt_eq_error (not_lt.1 hi), error_bind, error_bind]

/-- Writes at the places of a list of rows, in order. -/
def writes (place : κ → ℕ) (value : κ → α) (rows : List κ) (next : WorkUnit α) : WorkUnit α :=
  rows.foldr (fun row rest => .write (place row) (value row) rest) next

theorem run_writes {place : κ → ℕ} (value : κ → α) {rows : List κ} (next : WorkUnit α)
    {xs : Array α} (hplace : ∀ row ∈ rows, place row < xs.size) :
    (writes place value rows next).run xs =
      next.run (rows.foldl (fun xs row => xs.setIfInBounds (place row) (value row)) xs) := by
  induction rows generalizing xs with
  | nil => rfl
  | cons row rows ih =>
    obtain ⟨hfirst, hrest⟩ := List.forall_mem_cons.1 hplace
    have hset : (writes place value (row :: rows) next).run xs =
        (writes place value rows next).run (xs.setIfInBounds (place row) (value row)) :=
      if_pos hfirst
    rw [hset, ih (by simpa using hrest), List.foldl_cons]

/-- A unit put together from parts that each pass on to the next. -/
theorem run_foldr {body : Array α → κ → Checked (Array α)}
    (hstep : ∀ k next xs, (step k next).run xs = body xs k >>= next.run) (xs : Array α) :
    (ks.foldr step .done).run xs = ks.foldlM body xs := by
  induction ks generalizing xs with
  | nil => rfl
  | cons k ks ih =>
    have hrest : (ks.foldr step .done).run = fun xs => ks.foldlM body xs := funext ih
    rw [List.foldr_cons, hstep, List.foldlM_cons, hrest]

theorem within_foldr {own : Set ℕ} {last : WorkUnit α} (hlast : Within own last)
    (hstep : ∀ k ∈ ks, ∀ next, Within own next → Within own (step k next)) :
    Within own (ks.foldr step last) := by
  induction ks with
  | nil => exact hlast
  | cons k ks ih =>
    obtain ⟨hfirst, hrest⟩ := List.forall_mem_cons.1 hstep
    exact hfirst _ (ih hrest)

theorem within_writes {own : Set ℕ} {place : κ → ℕ} (value : κ → α) {next : WorkUnit α}
    (hplace : ∀ row ∈ ks, place row ∈ own) (hnext : Within own next) :
    Within own (writes place value ks next) :=
  within_foldr hnext fun row hrow _ hrest => .write (hplace row hrow) hrest

end WorkUnit

namespace Kernel

variable {R : Type} [Scalar R]

section Pairs

/-- The accesses by which a pair is replaced. -/
def pairThen (m : GateMatrix R 2) (i j : ℕ) (next : WorkUnit (Amplitude R)) :
    WorkUnit (Amplitude R) :=
  .read i fun a => .read j fun b =>
    .writes ![i, j] (fun row => InPlace.rowTimes (m.get row) a b) (List.finRange 2) next

/-- The accesses of a chunk body for one target. -/
def pairUnit (m : GateMatrix R 2) (stride : ℕ) (ctrl : ControlMask) (offset : ℕ) :
    WorkUnit (Amplitude R) :=
  (List.range stride).foldr (fun j next =>
    if ctrl.fires (offset + j) then pairThen m (offset + j) (offset + j + stride) next
    else next) .done

theorem run_pairThen (m : GateMatrix R 2) (i j : ℕ) (next : WorkUnit (Amplitude R))
    (amps : Array (Amplitude R)) :
    (pairThen m i j next).run amps = updatePair m i j amps >>= next.run := by
  unfold pairThen updatePair
  simp only [bind_assoc]
  apply WorkUnit.run_read
  intro a hi
  apply WorkUnit.run_read
  intro b hj
  have hplace : ∀ row ∈ List.finRange 2, ![i, j] row < amps.size := by
    simp [Fin.forall_fin_two, hi, hj]
  rw [WorkUnit.run_writes _ next hplace]
  rfl

theorem run_pairUnit (m : GateMatrix R 2) (stride : ℕ) (ctrl : ControlMask) (offset : ℕ)
    (amps : Array (Amplitude R)) :
    (pairUnit m stride ctrl offset).run amps = pairChunk m stride ctrl offset amps := by
  apply WorkUnit.run_foldr
  intro j next amps
  split
  · exact run_pairThen m _ _ next amps
  · rfl

theorem within_pairThen (m : GateMatrix R 2) {own : Set ℕ} {i j : ℕ} (hi : i ∈ own) (hj : j ∈ own)
    {next : WorkUnit (Amplitude R)} (hnext : next.Within own) :
    (pairThen m i j next).Within own := by
  have hplace : ∀ row ∈ List.finRange 2, ![i, j] row ∈ own := by
    simp [Fin.forall_fin_two, hi, hj]
  exact .read hi fun _ => .read hj fun _ => WorkUnit.within_writes _ hplace hnext

theorem within_pairUnit (m : GateMatrix R 2) (stride : ℕ) (ctrl : ControlMask) (offset : ℕ) :
    (pairUnit m stride ctrl offset).Within (Set.Ico offset (offset + 2 * stride)) := by
  apply WorkUnit.within_foldr .done
  intro j hj next hnext
  have hj := List.mem_range.1 hj
  split
  · exact within_pairThen m (Set.mem_Ico.2 (by omega)) (Set.mem_Ico.2 (by omega)) hnext
  · exact hnext

end Pairs

section Quadruples

/-- The accesses by which a quadruple is replaced. -/
def quadThen (m : GateMatrix R 4) (i j k l : ℕ) (next : WorkUnit (Amplitude R)) :
    WorkUnit (Amplitude R) :=
  .read i fun a => .read j fun b => .read k fun c => .read l fun d =>
    .writes ![i, j, k, l] (fun row => rowTimes (m.get row) a b c d) (List.finRange 4) next

/-- The accesses of a chunk body for two targets. -/
def quadUnit (m : GateMatrix R 4) (m0 m1 : ℕ) (ctrl : ControlMask) (offset : ℕ) :
    WorkUnit (Amplitude R) :=
  ((List.range (max m0 m1)).filter fun j => j &&& min m0 m1 == 0).foldr (fun j next =>
    if ctrl.fires (offset + j) then
      quadThen m (offset + j) (offset + (j ||| m0)) (offset + (j ||| m1))
        (offset + (j ||| m0 ||| m1)) next
    else next) .done

theorem run_quadThen (m : GateMatrix R 4) (i j k l : ℕ) (next : WorkUnit (Amplitude R))
    (amps : Array (Amplitude R)) :
    (quadThen m i j k l next).run amps = updateQuad m i j k l amps >>= next.run := by
  unfold quadThen updateQuad
  simp only [bind_assoc]
  apply WorkUnit.run_read
  intro a hi
  apply WorkUnit.run_read
  intro b hj
  apply WorkUnit.run_read
  intro c hk
  apply WorkUnit.run_read
  intro d hl
  have hplace : ∀ row ∈ List.finRange 4, ![i, j, k, l] row < amps.size := by
    simp [Fin.forall_fin_succ, hi, hj, hk, hl]
  rw [WorkUnit.run_writes _ next hplace]
  rfl

theorem run_quadUnit (m : GateMatrix R 4) (m0 m1 : ℕ) (ctrl : ControlMask) (offset : ℕ)
    (amps : Array (Amplitude R)) :
    (quadUnit m m0 m1 ctrl offset).run amps = quadChunk m m0 m1 ctrl offset amps := by
  apply WorkUnit.run_foldr
  intro j next amps
  split
  · exact run_quadThen m _ _ _ _ next amps
  · rfl

theorem within_quadThen (m : GateMatrix R 4) {own : Set ℕ} {i j k l : ℕ} (hi : i ∈ own)
    (hj : j ∈ own) (hk : k ∈ own) (hl : l ∈ own) {next : WorkUnit (Amplitude R)}
    (hnext : next.Within own) : (quadThen m i j k l next).Within own := by
  have hplace : ∀ row ∈ List.finRange 4, ![i, j, k, l] row ∈ own := by
    simp [Fin.forall_fin_succ, hi, hj, hk, hl]
  exact .read hi fun _ => .read hj fun _ => .read hk fun _ => .read hl fun _ =>
    WorkUnit.within_writes _ hplace hnext

theorem within_quadUnit (m : GateMatrix R 4) (t0 t1 : ℕ) (ctrl : ControlMask) (offset : ℕ) :
    (quadUnit m (2 ^ t0) (2 ^ t1) ctrl offset).Within
      (Set.Ico offset (offset + 2 * max (2 ^ t0) (2 ^ t1))) := by
  have hlen : 2 * max (2 ^ t0) (2 ^ t1) = 2 ^ (max t0 t1 + 1) := by
    rw [two_pow_max, pow_succ, Nat.mul_comm]
  have hplace {j : ℕ} (hj : j < 2 ^ (max t0 t1 + 1)) :
      offset + j ∈ Set.Ico offset (offset + 2 * max (2 ^ t0) (2 ^ t1)) := by
    rw [hlen]
    exact Set.mem_Ico.2 (by omega)
  have hbit0 : 2 ^ t0 < 2 ^ (max t0 t1 + 1) := Nat.pow_lt_pow_right (by decide) (by omega)
  have hbit1 : 2 ^ t1 < 2 ^ (max t0 t1 + 1) := Nat.pow_lt_pow_right (by decide) (by omega)
  apply WorkUnit.within_foldr .done
  intro j hj next hnext
  have hj : j < max (2 ^ t0) (2 ^ t1) := List.mem_range.1 (List.mem_filter.1 hj).1
  have hj : j < 2 ^ (max t0 t1 + 1) := by omega
  split
  · exact within_quadThen m (hplace hj) (hplace (Nat.or_lt_two_pow hj hbit0))
      (hplace (Nat.or_lt_two_pow hj hbit1))
      (hplace (Nat.or_lt_two_pow (Nat.or_lt_two_pow hj hbit0) hbit1)) hnext
  · exact hnext

end Quadruples

section Phases

/-- The accesses to one index for a diagonal operator. -/
def phaseUnit (zero one : Amplitude R) (mask : ℕ) (ctrl : ControlMask) (i : ℕ) :
    WorkUnit (Amplitude R) :=
  if ctrl.fires i then
    .read i fun a => .write i (a * (if i &&& mask = 0 then zero else one)) .done
  else .done

theorem run_phaseUnit (zero one : Amplitude R) (mask : ℕ) (ctrl : ControlMask) {i : ℕ}
    {amps : Array (Amplitude R)} (hi : i < amps.size) :
    (phaseUnit zero one mask ctrl i).run amps = .ok (phaseAt zero one mask ctrl amps i) := by
  unfold phaseUnit phaseAt
  split
  · rw [WorkUnit.run, elementAt_eq hi, ok_bind, WorkUnit.run, if_pos hi, WorkUnit.run,
      modify_eq_setIfInBounds hi]
  · rfl

theorem within_phaseUnit (zero one : Amplitude R) (mask : ℕ) (ctrl : ControlMask) (i : ℕ) :
    (phaseUnit zero one mask ctrl i).Within (Set.Ico i (i + 1)) := by
  have hi : i ∈ Set.Ico i (i + 1) := Set.mem_Ico.2 (by omega)
  unfold phaseUnit
  split
  · exact .read hi fun _ => .write hi .done
  · exact .done

end Phases

end Kernel

end QuantumSim
