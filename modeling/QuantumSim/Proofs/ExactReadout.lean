import Mathlib
import QuantumSim.Proofs.Isometry
import QuantumSim.Proofs.Readout

/-!
Readout over exact amplitudes. Sums do not depend on how a state is split among workers: the norm,
the outcome probabilities and the marginals are sums of squared magnitudes over basis indices.
-/
namespace QuantumSim
open BasisIndex

/-- A split does not matter if merging neighbouring stretches is the same as folding them as one. -/
theorem Split.reduce_eq_leaf {β : Type} {leaf : ℕ → ℕ → β} {merge : β → β → β}
    (hmerge : ∀ a b c, a ≤ b → b ≤ c → merge (leaf a b) (leaf b c) = leaf a c) (split : Split)
    {start stop : ℕ} (h : start ≤ stop) : split.reduce leaf merge start stop = leaf start stop := by
  induction split generalizing start stop with
  | whole => rfl
  | cut length left right ihl ihr =>
    have hleft : start ≤ min (start + length) stop := by omega
    have hright : min (start + length) stop ≤ stop := by omega
    rw [reduce, ihl hleft, ihr hright, hmerge _ _ _ hleft hright]

theorem foldl_add_range' (g : ℕ → ℝ) (start len : ℕ) (a : ℝ) :
    (List.range' start len).foldl (fun acc i => acc + g i) a =
      a + ∑ i ∈ Finset.Ico start (start + len), g i := by
  induction len generalizing start a with
  | zero => simp
  | succ len ih =>
    have hfirst : start < start + (len + 1) := by omega
    have hrest : start + 1 + len = start + (len + 1) := by omega
    rw [List.range'_succ, List.foldl_cons, ih, Finset.sum_eq_sum_Ico_succ_bot hfirst, add_assoc,
      hrest]

namespace Statevector

theorem IsRegister.size_eq {s : Statevector ℝ} (hs : s.IsRegister) : s.size = 2 ^ s.numQubits :=
  hs.size

theorem term_eq {s : Statevector ℝ} (f : ℕ → Amplitude ℝ → ℝ) {i : ℕ} (hi : i < s.size) :
    s.term f i = f i (Kernel.valueAt s.amplitudes i) := by
  have hget : s.amplitudes[i]? = some s.amplitudes[i] := Array.getElem?_eq_getElem hi
  unfold term Kernel.valueAt
  rw [hget]
  rfl

theorem sumRange_eq (s : Statevector ℝ) (f : ℕ → Amplitude ℝ → ℝ) {start stop : ℕ}
    (h : start ≤ stop) : s.sumRange f start stop = ∑ i ∈ Finset.Ico start stop, s.term f i := by
  apply (foldl_add_range' (s.term f) start (stop - start) Scalar.zero).trans
  rw [Scalar.zero_real, zero_add, Nat.add_sub_cancel' h]

theorem sumRange_add (s : Statevector ℝ) (f : ℕ → Amplitude ℝ → ℝ) {a b c : ℕ} (hab : a ≤ b)
    (hbc : b ≤ c) : s.sumRange f a b + s.sumRange f b c = s.sumRange f a c := by
  rw [sumRange_eq s f hab, sumRange_eq s f hbc, sumRange_eq s f (hab.trans hbc)]
  exact Finset.sum_Ico_consecutive _ hab hbc

/-- Over exact numbers a sum over a state is the sum over its basis indices. -/
theorem sumSplit_eq (s : Statevector ℝ) (f : ℕ → Amplitude ℝ → ℝ) :
    s.sumSplit f = ∑ i ∈ Finset.range s.size, f i (Kernel.valueAt s.amplitudes i) := by
  unfold sumSplit
  rw [Split.reduce_eq_leaf (fun _ _ _ => s.sumRange_add f) _ (Nat.zero_le _),
    sumRange_eq s f (Nat.zero_le _), ← Finset.range_eq_Ico]
  exact Finset.sum_congr rfl fun i hi => term_eq f (Finset.mem_range.1 hi)

theorem normSq_eq_mass {s : Statevector ℝ} (hs : s.IsRegister) :
    s.normSq = mass s.numQubits s.coefficient := by
  unfold normSq
  rw [sumSplit_eq, size, hs.size]
  rfl

/-- The norm check accepts the states whose squared norm is one within the tolerance. -/
theorem checkNorm_eq_ok_iff {s : Statevector ℝ} (context : NormContext) :
    s.checkNorm context = .ok () ↔ |s.normSq - 1| ≤ Scalar.tolerance := by
  rw [← Scalar.within_tolerance]
  change (if (Scalar.lt Scalar.tolerance (Scalar.abs (s.normSq - Scalar.one)) || false) = true
    then _ else _) = _ ↔ _
  rw [Bool.or_false]
  split
  next h => exact ⟨nofun, fun hfalse => absurd (h.symm.trans hfalse) (by decide)⟩
  next h => exact ⟨fun _ => Bool.eq_false_iff.2 h, fun _ => rfl⟩

theorem checkNorm_eq_error {s : Statevector ℝ} (h : Scalar.tolerance < |s.normSq - 1|)
    (context : NormContext) : s.checkNorm context = .error (.normViolation s.normSq context) := by
  have hrefused : Scalar.lt Scalar.tolerance (Scalar.abs (s.normSq - Scalar.one)) = true := by
    rw [← Bool.not_eq_false, Scalar.within_tolerance]
    exact not_le.2 h
  unfold checkNorm
  simp only [hrefused, Bool.true_or, if_true]

theorem abs_normSq_sub_one_le {s : Statevector ℝ} (hs : s.IsRegister)
    (hmass : mass s.numQubits s.coefficient = 1) : |s.normSq - 1| ≤ Scalar.tolerance := by
  rw [normSq_eq_mass hs, hmass, ← Scalar.within_tolerance]
  exact Scalar.one_within_tolerance

/-- A state with norm one passes the norm check. -/
theorem checkNorm_eq_ok {s : Statevector ℝ} (hs : s.IsRegister)
    (hmass : mass s.numQubits s.coefficient = 1) (context : NormContext) :
    s.checkNorm context = .ok () :=
  (checkNorm_eq_ok_iff context).2 (abs_normSq_sub_one_le hs hmass)

theorem foldl_outcomes (g : ℕ → ℝ) (q n : ℕ) :
    (List.range n).foldl (fun acc i =>
        if i &&& 2 ^ q = 0 then (acc.1 + g i, acc.2) else (acc.1, acc.2 + g i))
          ((Scalar.zero : ℝ), (Scalar.zero : ℝ)) =
      (∑ i ∈ Finset.range n, if i.testBit q = false then g i else 0,
        ∑ i ∈ Finset.range n, if i.testBit q = true then g i else 0) := by
  induction n with
  | zero => simp
  | succ n ih =>
    rw [List.range_succ, List.foldl_append, ih, Finset.sum_range_succ, Finset.sum_range_succ]
    cases h : n.testBit q <;> simp [and_two_pow_eq_zero, h]

/-- The outcome probabilities of a qubit are the norms of the two parts of the state. -/
theorem outcomeProbabilities_eq {s : Statevector ℝ} (hs : s.IsRegister) (q : ℕ) :
    s.outcomeProbabilities (2 ^ q) = (mass s.numQubits (onBit q false s.coefficient),
      mass s.numQubits (onBit q true s.coefficient)) := by
  have hterm (b : Bool) : (∑ i ∈ Finset.range s.size,
      if i.testBit q = b then s.term (fun _ a => a.normSq) i else 0) =
        mass s.numQubits (onBit q b s.coefficient) := by
    unfold mass
    rw [← hs.size_eq]
    apply Finset.sum_congr rfl
    intro i hi
    rw [normSq_onBit, term_eq _ (Finset.mem_range.1 hi)]
    rfl
  rw [← hterm, ← hterm]
  exact foldl_outcomes _ q s.size

/-- The outcome probabilities of a qubit are accepted if the squared norm is one within the
tolerance. -/
theorem outcomes_eq_ok_of_near {s : Statevector ℝ} (hs : s.IsRegister)
    (hnear : |s.normSq - 1| ≤ Scalar.tolerance) {q : ℕ} (hq : q < s.numQubits) :
    s.outcomes q = .ok (2 ^ q, mass s.numQubits (onBit q false s.coefficient),
      mass s.numQubits (onBit q true s.coefficient)) := by
  unfold outcomes
  rw [bitMask_eq (hq.trans hs.width)]
  change (if Scalar.lt Scalar.tolerance (Scalar.abs (((s.outcomeProbabilities (2 ^ q)).1 +
    (s.outcomeProbabilities (2 ^ q)).2) - Scalar.one)) = true then _ else _) = _
  rw [outcomeProbabilities_eq hs]
  rw [← Scalar.within_tolerance, normSq_eq_mass hs, ← mass_onBit_add s.numQubits q] at hnear
  exact if_neg (Bool.eq_false_iff.1 hnear)

/-- A state with norm one can be measured at any qubit. -/
theorem outcomes_eq_ok {s : Statevector ℝ} (hs : s.IsRegister)
    (hmass : mass s.numQubits s.coefficient = 1) {q : ℕ} (hq : q < s.numQubits) :
    s.outcomes q = .ok (2 ^ q, mass s.numQubits (onBit q false s.coefficient),
      mass s.numQubits (onBit q true s.coefficient)) :=
  outcomes_eq_ok_of_near hs (abs_normSq_sub_one_le hs hmass) hq

/-- Collapsing keeps the part of the state on one value of the qubit and rescales it. -/
theorem coefficient_collapse (s : Statevector ℝ) (q : ℕ) (outcome : Bool) (p : ℝ) (i : ℕ) :
    (s.collapse (2 ^ q) outcome p).coefficient i =
      ((1 / Real.sqrt p : ℝ) : ℂ) * onBit q outcome s.coefficient i := by
  have hbit : ((i &&& 2 ^ q != 0) == outcome) = decide (i.testBit q = outcome) := by
    rw [Nat.and_two_pow]
    cases i.testBit q <;> cases outcome <;> simp
  unfold coefficient collapse Kernel.valueAt onBit
  simp only [Array.getElem?_mapIdx, hbit, decide_eq_true_eq]
  cases s.amplitudes[i]? with
  | none => simp
  | some a =>
    by_cases h : i.testBit q = outcome
    · simp [h, mul_comm]
    · simp [h]

theorem isRegister_collapse {s : Statevector ℝ} (hs : s.IsRegister) (mask : ℕ) (outcome : Bool)
    (p : ℝ) :
    (s.collapse mask outcome p).IsRegister :=
  ⟨hs.width, by simpa [collapse] using hs.size⟩

section Marginals

/-- What an index adds to an entry of the marginal. -/
noncomputable def share (s : Statevector ℝ) (qubits : List Qubit) (k i : ℕ) : ℝ :=
  if localIndex (qubits.map Qubit.index) i = k then Complex.normSq (s.coefficient i) else 0

theorem tally_ofFn (s : Statevector ℝ) (qubits : List Qubit) {m : ℕ} (g : ℕ → ℝ) (i : ℕ) :
    s.tally qubits (Array.ofFn fun k : Fin m => g k) i =
      Array.ofFn fun k : Fin m => g k + s.share qubits k i := by
  apply Array.ext (by simp)
  intro k hk _
  have hkm : k < m := by simpa using hk
  have hp : (Kernel.valueAt s.amplitudes i).normSq = Complex.normSq (s.coefficient i) := rfl
  simp only [tally, share, hp, Scalar.same_real, Scalar.zero_real, decide_eq_true_eq]
  by_cases hzero : Complex.normSq (s.coefficient i) = 0
  · simp [hzero]
  · simp only [if_neg hzero, Array.getElem_modify, Array.getElem_ofFn]
    split
    · rfl
    · simp

theorem tallyRange_eq (s : Statevector ℝ) (qubits : List Qubit) {start stop : ℕ}
    (h : start ≤ stop) :
    s.tallyRange qubits start stop = Array.ofFn fun k : Fin (2 ^ qubits.length) =>
      ∑ i ∈ Finset.Ico start stop, s.share qubits k i := by
  have hloop (len : ℕ) : (List.range' start len).foldl (s.tally qubits)
      (Array.replicate (2 ^ qubits.length) Scalar.zero) =
      Array.ofFn fun k : Fin (2 ^ qubits.length) =>
        ∑ i ∈ Finset.Ico start (start + len), s.share qubits k i := by
    induction len with
    | zero =>
      apply Array.ext (by simp)
      intro k _ _
      simp
    | succ len ih =>
      rw [List.range'_concat, List.foldl_append, ih]
      simp only [Nat.one_mul, List.foldl_cons, List.foldl_nil]
      rw [tally_ofFn s qubits fun k => ∑ i ∈ Finset.Ico start (start + len), s.share qubits k i]
      simp only [← Finset.sum_Ico_succ_top (Nat.le_add_right start len), Nat.add_assoc]
  unfold tallyRange
  rw [hloop, Nat.add_sub_cancel' h]

/-- An entry of a marginal is the total of the squared magnitudes over the indices that read as
it. -/
theorem marginalProbabilities_eq {s : Statevector ℝ} (hs : s.IsRegister) {qubits : List Qubit}
    (hlen : qubits.length < 64) (hq : ∀ q ∈ qubits, q.index < s.numQubits) :
    s.marginalProbabilities qubits = .ok (Array.ofFn fun k : Fin (2 ^ qubits.length) =>
      ∑ i ∈ Finset.range (2 ^ s.numQubits), s.share qubits k i) := by
  rw [marginalProbabilities_eq_ok hs hlen hq, Split.reduce_eq_leaf _ _ (Nat.zero_le _),
    tallyRange_eq s qubits (Nat.zero_le _), hs.size_eq, Finset.range_eq_Ico]
  intro a b c hab hbc
  rw [tallyRange_eq s qubits hab, tallyRange_eq s qubits hbc,
    tallyRange_eq s qubits (hab.trans hbc)]
  apply Array.ext (by simp)
  intro k _ _
  simp only [Array.getElem_zipWith, Array.getElem_ofFn]
  exact Finset.sum_Ico_consecutive _ hab hbc

end Marginals

end Statevector

end QuantumSim
