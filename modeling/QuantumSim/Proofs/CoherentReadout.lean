import Mathlib
import QuantumSim.Proofs.Branching
import QuantumSim.Proofs.PauliOperators
import QuantumSim.Proofs.Projection
import QuantumSim.Proofs.RegisterReadout
import QuantumSim.Proofs.SampledExecution

/-!
One distribution behind every readout. Over exact amplitudes the marginals of all lists of distinct
qubits are sums of the same squared magnitudes. They fit together when a list is permuted or
extended, and the probability of a single qubit is the same by every way of reading it.
-/
namespace QuantumSim
open BasisIndex

section LocalIndices

/-- A number is the reading of an index at distinct qubits if it has its bits. -/
theorem localIndex_eq_iff {qubits : List Qubit} (hnodup : qubits.Nodup) {k : ℕ}
    (hk : k < 2 ^ qubits.length) (i : ℕ) : localIndex (qubits.map Qubit.index) i = k ↔
      ∀ q ∈ qubits, k.testBit (qubits.idxOf q) = i.testBit q.index := by
  have hbit (q : Qubit) (hq : q ∈ qubits) :
      (localIndex (qubits.map Qubit.index) i).testBit (qubits.idxOf q) = i.testBit q.index := by
    rw [testBit_localIndex, List.getElem?_map, List.getElem?_idxOf hq]
    rfl
  constructor
  · rintro rfl
    exact hbit
  · intro hbits
    apply Nat.eq_of_testBit_eq
    intro j
    by_cases hj : j < qubits.length
    · have hplace : qubits.idxOf qubits[j] = j := hnodup.idxOf_getElem j hj
      have hmem : qubits[j] ∈ qubits := List.getElem_mem hj
      rw [← hplace, hbit _ hmem, hbits _ hmem]
    · have hlt := localIndex_lt (qubits.map Qubit.index) i
      rw [List.length_map] at hlt
      rw [testBit_eq_false_of_lt hlt (not_lt.1 hj), testBit_eq_false_of_lt hk (not_lt.1 hj)]

/-- The reading of one more qubit is the bit above the others. -/
theorem localIndex_append_eq_iff {ts : List ℕ} {k : ℕ} (hk : k < 2 ^ ts.length) (t i : ℕ)
    (b : Bool) : localIndex (ts ++ [t]) i = k + 2 ^ ts.length * b.toNat ↔
      localIndex ts i = k ∧ i.testBit t = b := by
  have hlt := localIndex_lt ts i
  rw [localIndex_append_singleton]
  cases i.testBit t <;> cases b <;> simp <;> omega

end LocalIndices

namespace Statevector

variable {s : Statevector ℝ} {qubits : List Qubit}

/-- The entry of a marginal for a reading of the listed qubits. -/
noncomputable def marginalAt (s : Statevector ℝ) (qubits : List Qubit) (k : ℕ) : ℝ :=
  ∑ i ∈ Finset.range (2 ^ s.numQubits), s.share qubits k i

/-- Distinct qubits of a register. -/
structure Reads (s : Statevector ℝ) (qubits : List Qubit) : Prop where
  register : s.IsRegister
  distinct : qubits.Nodup
  range : ∀ q ∈ qubits, q.index < s.numQubits

theorem Reads.marginal_eq (h : s.Reads qubits) : s.marginalProbabilities qubits =
    .ok (Array.ofFn fun k : Fin (2 ^ qubits.length) => s.marginalAt qubits k) :=
  marginalProbabilities_eq h.register
    ((Circuit.length_le_of_nodup h.distinct h.range).trans_lt h.register.width) h.range

/-- The entries of a marginal add up to the squared norm. -/
theorem sum_marginalAt (hs : s.IsRegister) (qubits : List Qubit) :
    ∑ k ∈ Finset.range (2 ^ qubits.length), s.marginalAt qubits k = s.normSq :=
  (sum_share s qubits).trans (normSq_eq_mass hs).symm

/-- Readings of one list in two orders have equal entries if their bits agree on every qubit. -/
theorem marginalAt_perm {qubits' : List Qubit} (hnodup : qubits.Nodup) (hperm : qubits'.Perm qubits)
    {k k' : ℕ} (hk : k < 2 ^ qubits.length) (hk' : k' < 2 ^ qubits.length)
    (hbits : ∀ q ∈ qubits, k'.testBit (qubits'.idxOf q) = k.testBit (qubits.idxOf q)) :
    s.marginalAt qubits' k' = s.marginalAt qubits k := by
  apply Finset.sum_congr rfl
  intro i _
  have hiff : localIndex (qubits'.map Qubit.index) i = k' ↔
      localIndex (qubits.map Qubit.index) i = k := by
    rw [localIndex_eq_iff (hperm.nodup_iff.2 hnodup) (hperm.length_eq.symm ▸ hk'),
      localIndex_eq_iff hnodup hk]
    constructor
    · intro h q hq
      rw [← hbits q hq, h q (hperm.mem_iff.2 hq)]
    · intro h q hq
      rw [hbits q (hperm.mem_iff.1 hq), h q (hperm.mem_iff.1 hq)]
  simp only [share, hiff]

/-- The reading whose bits are those of a reading in another order. -/
theorem exists_permuted {qubits' : List Qubit} (hperm : qubits'.Perm qubits) (k : ℕ) :
    ∃ k' < 2 ^ qubits.length,
      ∀ q ∈ qubits, k'.testBit (qubits'.idxOf q) = k.testBit (qubits.idxOf q) := by
  refine ⟨localIndex (qubits'.map fun q => qubits.idxOf q) k, ?_, fun q hq => ?_⟩
  · rw [← hperm.length_eq]
    simpa using localIndex_lt (qubits'.map fun q => qubits.idxOf q) k
  · rw [testBit_localIndex, List.getElem?_map, List.getElem?_idxOf (hperm.mem_iff.2 hq)]
    rfl

/-- Summing over the last qubit of a list leaves the marginal of the others. -/
theorem marginalAt_append (s : Statevector ℝ) {k : ℕ} (hk : k < 2 ^ qubits.length) (q : Qubit) :
    s.marginalAt (qubits ++ [q]) k + s.marginalAt (qubits ++ [q]) (k + 2 ^ qubits.length) =
      s.marginalAt qubits k := by
  have hlt : k < 2 ^ (qubits.map Qubit.index).length := by rwa [List.length_map]
  have hzero (i : ℕ) := localIndex_append_eq_iff hlt q.index i false
  have hone (i : ℕ) := localIndex_append_eq_iff hlt q.index i true
  simp only [List.length_map, Bool.toNat_false, Bool.toNat_true, Nat.mul_zero, Nat.mul_one,
    Nat.add_zero] at hzero hone
  unfold marginalAt
  rw [← Finset.sum_add_distrib]
  apply Finset.sum_congr rfl
  intro i _
  simp only [share, List.map_append, List.map_singleton, hzero, hone]
  by_cases hread : localIndex (qubits.map Qubit.index) i = k <;> cases hbit : i.testBit q.index <;>
    simp [hread]

/-- The marginal of one qubit holds the norms of the two parts of the state. -/
theorem marginalAt_singleton (s : Statevector ℝ) (q : Qubit) (b : Bool) :
    s.marginalAt [q] b.toNat = mass s.numQubits (onBit q.index b s.coefficient) := by
  apply Finset.sum_congr rfl
  intro i _
  rw [share, normSq_onBit]
  cases hbit : i.testBit q.index <;> cases b <;> simp [localIndex, hbit]

/-- The marginal of the whole register is the list of squared magnitudes. -/
theorem marginalProbabilities_range_eq (hs : s.IsRegister) :
    s.marginalProbabilities (Qubit.range s.numQubits.toUInt32) = .ok s.probabilities := by
  have hword : s.numQubits.toUInt32.toNat = s.numQubits :=
    UInt32.toNat_ofNat_of_lt' (hs.width.trans (by decide))
  rw [marginalProbabilities_range ⟨hs, hword.symm⟩, hword]
  apply congrArg Except.ok
  apply Array.ext
  · rw [Array.size_ofFn, probabilities, Array.size_map, hs.size]
  · intro i _ hi
    have hsize : i < s.amplitudes.size := by simpa [probabilities] using hi
    simp [probabilities, coefficient, Kernel.valueAt, hsize, Amplitude.normSq_real]

theorem probabilityOne_eq (hs : s.IsRegister) {q : ℕ} (hq : q < s.numQubits) :
    s.probabilityOne q = .ok (mass s.numQubits (onBit q true s.coefficient)) := by
  unfold probabilityOne
  rw [bitMask_eq (hq.trans hs.width), ok_bind, sumSplit_eq, hs.size_eq]
  apply congrArg Except.ok
  apply Finset.sum_congr rfl
  intro i _
  rw [normSq_onBit]
  cases hbit : i.testBit q <;> simp [and_two_pow_eq_zero, hbit, coefficient, Amplitude.normSq_real]

end Statevector

/-- A sum over the indices of a list that pass a test. -/
theorem sum_filter_zipIdx (amps : List (Amplitude ℝ)) (test : ℕ → Bool) (start : ℕ) :
    (((amps.zipIdx start).filter fun e => test e.2).map fun e => e.1.normSq).sum =
      ∑ i ∈ Finset.range amps.length,
        if test (start + i) then (amps[i]?.getD .zero).normSq else 0 := by
  induction amps generalizing start with
  | nil => rfl
  | cons a amps ih =>
    rw [List.zipIdx_cons, List.filter_cons, List.length_cons, Finset.sum_range_succ']
    have hshift (i : ℕ) : start + 1 + i = start + (i + 1) := by omega
    have hrest := ih (start + 1)
    simp only [hshift] at hrest
    cases test start <;> simp [hrest, add_comm]

theorem StateData.probabilityOne_eq {s : Statevector ℝ} (hs : s.IsRegister) {q : Qubit}
    (hq : q.index < s.numQubits) (n : UInt32) :
    (⟨n, s.amplitudes⟩ : StateData ℝ).probabilityOne q.id =
      .ok (mass s.numQubits (onBit q.index true s.coefficient)) := by
  have hmask : bitMask q.id.toNat = .ok (2 ^ q.index) := bitMask_eq (hq.trans hs.width)
  have hbit (i : ℕ) : (i &&& 2 ^ q.index != 0) = i.testBit q.index := by
    rw [Nat.and_two_pow]
    cases i.testBit q.index <;> simp
  unfold probabilityOne
  rw [hmask, ok_bind]
  apply congrArg Except.ok
  rw [← Array.foldl_toList, Scalar.zero_real, ← List.sum_eq_foldl, Array.toList_map,
    Array.toList_filter, Array.toList_zipIdx]
  simp only [hbit]
  apply (sum_filter_zipIdx s.amplitudes.toList (fun i => i.testBit q.index) 0).trans
  rw [Array.length_toList, hs.size]
  apply Finset.sum_congr rfl
  intro i _
  rw [normSq_onBit, Nat.zero_add, Array.getElem?_toList]
  rfl

namespace Statevector

variable {s : Statevector ℝ}

/-- The expectation of the operator `z` on a qubit is the norm of the part on zero less that of the
part on one. -/
theorem expectation_z (hs : s.IsRegister) {q : Qubit} (hq : q.index < s.numQubits) :
    s.expectation (.z q) = .ok (mass s.numQubits (onBit q.index false s.coefficient) -
      mass s.numQubits (onBit q.index true s.coefficient)) := by
  have hz : (Observable.z q : Observable ℝ) = ⟨[⟨1, ⟨[(q, .z)]⟩⟩]⟩ := by
    simp [Observable.z, Observable.ofPauli, PauliString.ofOps]
  have hon : (⟨[(q, .z)]⟩ : PauliString).IsOn s.numQubits :=
    ⟨by simp, by simpa using hq⟩
  have hoverlap : (overlap s.numQubits s.coefficient
      ((⟨[(q, .z)]⟩ : PauliString).masks.act s.coefficient)).re =
        mass s.numQubits (onBit q.index false s.coefficient) -
          mass s.numQubits (onBit q.index true s.coefficient) := by
    unfold overlap mass
    rw [Complex.re_sum, ← Finset.sum_sub_distrib]
    apply Finset.sum_congr rfl
    intro i _
    have hact : (⟨[(q, .z)]⟩ : PauliString).masks.act s.coefficient i =
        (if i.testBit q.index then -1 else 1) * s.coefficient i := by
      simp [PauliString.masks, PauliMasks.set, PauliMasks.act, Pauli.flips, Pauli.signs,
        signOf_and_two_pow]
    rw [hact, normSq_onBit, normSq_onBit]
    cases i.testBit q.index <;> simp [Complex.normSq_apply]
  unfold expectation
  rw [hz, List.foldlM_cons, termExpectation_eq_overlap ⟨hs, rfl⟩ hon, hoverlap]
  simp

/-- The probability of one by which a measurement is decided. -/
theorem eq_of_outcomes (hs : s.IsRegister) {q : ℕ} (hq : q < s.numQubits) {mask : ℕ} {p0 p1 : ℝ}
    (h : s.outcomes q = .ok (mask, p0, p1)) : p1 = s.probability q true := by
  unfold outcomes at h
  rw [bitMask_eq (hq.trans hs.width)] at h
  change (if Scalar.lt Scalar.tolerance (Scalar.abs (((s.outcomeProbabilities (2 ^ q)).1 +
    (s.outcomeProbabilities (2 ^ q)).2) - Scalar.one)) = true then Except.error _ else
      Except.ok (2 ^ q, s.outcomeProbabilities (2 ^ q))) = _ at h
  split at h
  · cases h
  · rw [outcomeProbabilities_eq hs, ← probability_eq_mass hs, ← probability_eq_mass hs] at h
    cases h
    rfl

/-- A measurement reads one exactly if its draw is below the probability of one. -/
theorem measureWith_outcome (hs : s.IsRegister) {q : ℕ} (hq : q < s.numQubits) {draw : ℝ}
    {outcome : Bool} {t : Statevector ℝ} (h : s.measureWith q draw = .ok (outcome, t)) :
    outcome = true ↔ draw < s.probability q true := by
  obtain ⟨⟨mask, p0, p1⟩, houtcomes, -⟩ := bind_eq_ok.1 h
  rw [(Branching.measureWith_mem_branches houtcomes h).1, eq_of_outcomes hs hq houtcomes]
  exact decide_eq_true_iff

/-- In a sampled run the draw is the next one of the source. -/
theorem run_measure_outcome {G : Type} [RandomSource G] (hs : s.IsRegister) {q : ℕ}
    (hq : q < s.numQubits) {g g' : G} {outcome : Bool} {t : Statevector ℝ}
    (h : (s.measure q : Sampling ℝ G (Bool × Statevector ℝ)).run g = (.ok (outcome, t), g')) :
    outcome = true ↔ (RandomSource.draw ℝ g).1 < s.probability q true := by
  apply measureWith_outcome hs hq (t := t)
  unfold measure at h
  cases houtcomes : s.outcomes q with
  | error e =>
    rw [houtcomes] at h
    cases h
  | ok p =>
    rw [houtcomes] at h
    exact bind_eq_ok.2 ⟨p, houtcomes, congrArg Prod.fst h⟩

/-- Marginals of distinct qubits are one distribution: the entries add up to the squared norm, a
permuted list permutes the bits of the readings, and adding up the values of a last qubit leaves the
marginal of the others. -/
theorem Reads.marginals_coherent {q : Qubit} (h : s.Reads qubits) (hq : q.index < s.numQubits)
    (hfresh : q ∉ qubits) :
    ∃ m joint, s.marginalProbabilities qubits = .ok m ∧ m.size = 2 ^ qubits.length ∧
      m.toList.sum = s.normSq ∧
      s.marginalProbabilities (qubits ++ [q]) = .ok joint ∧ joint.size = 2 ^ (qubits.length + 1) ∧
      (∀ k < 2 ^ qubits.length,
        joint.getD k 0 + joint.getD (k + 2 ^ qubits.length) 0 = m.getD k 0) ∧
      ∀ qubits' : List Qubit, qubits'.Perm qubits →
        ∃ m', s.marginalProbabilities qubits' = .ok m' ∧ m'.size = 2 ^ qubits.length ∧
          ∀ k < 2 ^ qubits.length, ∃ k' < 2 ^ qubits.length,
            (∀ p ∈ qubits, k'.testBit (qubits'.idxOf p) = k.testBit (qubits.idxOf p)) ∧
              m'.getD k' 0 = m.getD k 0 := by
  have hjoint : s.Reads (qubits ++ [q]) := by
    refine ⟨h.register, List.nodup_append.2 ⟨h.distinct, List.nodup_singleton q, ?_⟩, ?_⟩
    · rintro p hp _ hlast rfl
      exact hfresh (List.mem_singleton.1 hlast ▸ hp)
    · simpa [or_imp, forall_and] using ⟨h.range, hq⟩
  have hget (list : List Qubit) {k : ℕ} (hk : k < 2 ^ list.length) :
      (Array.ofFn fun k : Fin (2 ^ list.length) => s.marginalAt list k).getD k 0 =
        s.marginalAt list k := by
    simp [Array.getD, hk]
  have hlength : 2 ^ (qubits ++ [q]).length = 2 ^ qubits.length + 2 ^ qubits.length := by
    rw [List.length_append, List.length_singleton, pow_succ]
    omega
  refine ⟨_, _, h.marginal_eq, by simp, ?_, hjoint.marginal_eq, by simp, fun k hk => ?_,
    fun qubits' hperm => ?_⟩
  · rw [Array.toList_ofFn, List.sum_ofFn, Fin.sum_univ_eq_sum_range (s.marginalAt qubits),
      sum_marginalAt h.register]
  · rw [hget _ hk, hget _ (by omega), hget _ (by omega)]
    exact s.marginalAt_append hk q
  · have hsame : s.Reads qubits' := by
      refine ⟨h.register, hperm.nodup_iff.2 h.distinct, fun p hp => ?_⟩
      exact h.range p (hperm.mem_iff.1 hp)
    refine ⟨_, hsame.marginal_eq, by simp [hperm.length_eq], fun k hk => ?_⟩
    obtain ⟨k', hk', hbits⟩ := exists_permuted hperm k
    refine ⟨k', hk', hbits, ?_⟩
    rw [hget _ hk, hget _ (hperm.length_eq.symm ▸ hk')]
    exact marginalAt_perm h.distinct hperm hk hk' hbits

/-- The probability of one on a qubit is the same by every readout of it. -/
theorem probabilities_coherent (hs : s.IsRegister) {q : Qubit} (hq : q.index < s.numQubits) :
    s.probabilityOne q.index = .ok (s.probability q.index true) ∧
      s.marginalProbabilities [q] =
        .ok #[s.probability q.index false, s.probability q.index true] ∧
      s.outcomeProbabilities (2 ^ q.index) =
        (s.probability q.index false, s.probability q.index true) ∧
      (∀ n : UInt32, (⟨n, s.amplitudes⟩ : StateData ℝ).probabilityOne q.id =
        .ok (s.probability q.index true)) ∧
      ∃ z, s.expectation (.z q) = .ok z ∧ s.probability q.index true = (s.normSq - z) / 2 := by
  simp only [probability_eq_mass hs]
  refine ⟨probabilityOne_eq hs hq, ?_, outcomeProbabilities_eq hs _,
    StateData.probabilityOne_eq hs hq, _, expectation_z hs hq, ?_⟩
  · have hreads : s.Reads [q] := ⟨hs, List.nodup_singleton q, by simpa using hq⟩
    rw [hreads.marginal_eq, ← marginalAt_singleton, ← marginalAt_singleton]
    rfl
  · rw [normSq_eq_mass hs, ← mass_onBit_add s.numQubits q.index s.coefficient]
    ring

/-- All readouts of a state agree. Over distinct qubits of the register the marginal adds up to the
squared norm, follows every permutation of its list, and is what remains of a longer one when the
values of the last qubit are added up; over the whole register it is the list of squared magnitudes.
The probability of one on a qubit is its own readout, the second entry of its marginal, the number
that a measurement compares with its draw, the readout of the state that a result carries, and half
of what the expectation of `z` leaves of the squared norm. -/
theorem readouts_coherent {q : Qubit} (h : s.Reads qubits) (hq : q.index < s.numQubits)
    (hfresh : q ∉ qubits) :
    (∃ m joint, s.marginalProbabilities qubits = .ok m ∧ m.size = 2 ^ qubits.length ∧
      m.toList.sum = s.normSq ∧
      s.marginalProbabilities (qubits ++ [q]) = .ok joint ∧ joint.size = 2 ^ (qubits.length + 1) ∧
      (∀ k < 2 ^ qubits.length,
        joint.getD k 0 + joint.getD (k + 2 ^ qubits.length) 0 = m.getD k 0) ∧
      ∀ qubits' : List Qubit, qubits'.Perm qubits →
        ∃ m', s.marginalProbabilities qubits' = .ok m' ∧ m'.size = 2 ^ qubits.length ∧
          ∀ k < 2 ^ qubits.length, ∃ k' < 2 ^ qubits.length,
            (∀ p ∈ qubits, k'.testBit (qubits'.idxOf p) = k.testBit (qubits.idxOf p)) ∧
              m'.getD k' 0 = m.getD k 0) ∧
    s.marginalProbabilities (Qubit.range s.numQubits.toUInt32) = .ok s.probabilities ∧
    ∃ p0 p1, s.probabilityOne q.index = .ok p1 ∧ s.marginalProbabilities [q] = .ok #[p0, p1] ∧
      s.outcomeProbabilities (2 ^ q.index) = (p0, p1) ∧
      (∀ (draw : ℝ) (outcome : Bool) (t : Statevector ℝ),
        s.measureWith q.index draw = .ok (outcome, t) → (outcome = true ↔ draw < p1)) ∧
      (∀ (G : Type) [RandomSource G] (g g' : G) (outcome : Bool) (t : Statevector ℝ),
        (s.measure q.index : Sampling ℝ G (Bool × Statevector ℝ)).run g = (.ok (outcome, t), g') →
          (outcome = true ↔ (RandomSource.draw ℝ g).1 < p1)) ∧
      (∀ n : UInt32, (⟨n, s.amplitudes⟩ : StateData ℝ).probabilityOne q.id = .ok p1) ∧
      ∃ z, s.expectation (.z q) = .ok z ∧ p1 = (s.normSq - z) / 2 := by
  obtain ⟨hone, hmarginal, houtcomes, hdata, hz⟩ := probabilities_coherent h.register hq
  refine ⟨h.marginals_coherent hq hfresh, marginalProbabilities_range_eq h.register, _, _, hone,
    hmarginal, houtcomes, ?_, ?_, hdata, hz⟩
  · intro draw outcome t hmeasure
    exact measureWith_outcome h.register hq hmeasure
  · intro G _ g g' outcome t hrun
    exact run_measure_outcome h.register hq hrun

/-- Two qubits of three, read in both orders and with the third one, on amplitudes with a squared
norm that is not one. -/
theorem readouts_coherent_reordered :
    let s : Statevector ℝ := ⟨3, #[.one, .i, .one, .zero, .i, .ofReal 3, .one, -.i], {}⟩
    s.Reads [⟨2⟩, ⟨0⟩] ∧ (⟨1⟩ : Qubit).index < s.numQubits ∧ (⟨1⟩ : Qubit) ∉ [⟨2⟩, ⟨0⟩] ∧
      (∃ m m' joint, s.marginalProbabilities [⟨2⟩, ⟨0⟩] = .ok m ∧
        s.marginalProbabilities [⟨0⟩, ⟨2⟩] = .ok m' ∧
        s.marginalProbabilities [⟨2⟩, ⟨0⟩, ⟨1⟩] = .ok joint ∧ m'.getD 1 0 = m.getD 2 0 ∧
        joint.getD 2 0 + joint.getD 6 0 = m.getD 2 0 ∧ m.toList.sum = s.normSq) ∧
      ∃ p0 p1 z, s.probabilityOne 1 = .ok p1 ∧ s.marginalProbabilities [⟨1⟩] = .ok #[p0, p1] ∧
        s.expectation (.z ⟨1⟩) = .ok z ∧ p1 = (s.normSq - z) / 2 := by
  intro s
  have hreads : s.Reads [⟨2⟩, ⟨0⟩] := ⟨⟨by decide, rfl⟩, by decide, by decide⟩
  have hq : (⟨1⟩ : Qubit).index < s.numQubits := by decide
  have hfresh : (⟨1⟩ : Qubit) ∉ [⟨2⟩, ⟨0⟩] := by decide
  obtain ⟨⟨m, joint, hm, -, hsum, hjoint, -, hsplit, hperm⟩, -, p0, p1, hone, hmarginal, -, -, -, -,
    z, hz, hhalf⟩ := readouts_coherent hreads hq hfresh
  obtain ⟨m', hm', -, hbits⟩ := hperm [⟨0⟩, ⟨2⟩] (List.Perm.swap _ _ [])
  obtain ⟨k', hk', hbit, hentry⟩ := hbits 2 (by decide)
  refine ⟨hreads, hq, hfresh, ⟨m, m', joint, hm, hm', hjoint, ?_, hsplit 2 (by decide), hsum⟩,
    p0, p1, z, hone, hmarginal, hz, hhalf⟩
  -- the bits of the permuted reading leave one number
  obtain rfl : k' = 1 := by
    have hk' : k' < 4 := hk'
    interval_cases k' <;> revert hbit <;> decide
  exact hentry

end Statevector

end QuantumSim
