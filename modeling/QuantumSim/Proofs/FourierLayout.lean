import Mathlib
import QuantumSim.Proofs.Exact
import QuantumSim.Proofs.FourierCircuit
import QuantumSim.Simulator.Config

/-!
Where the instructions of the Fourier transform stand. The stages of the qubits follow one another,
each of them a Hadamard gate with the turns by the qubits above, and the swaps come last. The angles
take the transform to 32 qubits and no further.
-/
namespace QuantumSim

section Stages

variable {α : Type} (f : ℕ → List α)

theorem length_flatMap_range (m : ℕ) :
    ((List.range m).flatMap f).length = ∑ k ∈ Finset.range m, (f k).length := by
  induction m with
  | zero => rfl
  | succ m ih =>
    rw [List.range_succ, List.flatMap_append, List.flatMap_singleton, List.length_append, ih,
      Finset.sum_range_succ]

/-- An element of one of the lists stands behind all the lists before. -/
theorem getElem?_flatMap_range {m i p : ℕ} (hi : i < m) (hp : p < (f i).length) :
    ((List.range m).flatMap f)[∑ k ∈ Finset.range i, (f k).length + p]? = (f i)[p]? := by
  induction m with
  | zero => cases hi
  | succ m ih =>
    rw [List.range_succ, List.flatMap_append, List.flatMap_singleton]
    rcases Nat.lt_succ_iff_lt_or_eq.1 hi with hlt | rfl
    · have hin : ∑ k ∈ Finset.range i, (f k).length + p < ((List.range m).flatMap f).length := by
        have hle : ∑ k ∈ Finset.range (i + 1), (f k).length ≤ ∑ k ∈ Finset.range m, (f k).length :=
          Finset.sum_le_sum_of_subset (Finset.range_subset_range.2 hlt)
        rw [Finset.sum_range_succ] at hle
        rw [length_flatMap_range]
        omega
      rw [List.getElem?_append_left hin, ih hlt]
    · rw [← length_flatMap_range, List.getElem?_append_right (Nat.le_add_right _ _),
        Nat.add_sub_cancel_left]

/-- Every element stands in one of the lists. -/
theorem exists_of_lt_flatMap_range {m p : ℕ} (hp : p < ∑ k ∈ Finset.range m, (f k).length) :
    ∃ i < m, ∃ q < (f i).length, p = ∑ k ∈ Finset.range i, (f k).length + q := by
  induction m with
  | zero => simp at hp
  | succ m ih =>
    rw [Finset.sum_range_succ] at hp
    rcases Nat.lt_or_ge p (∑ k ∈ Finset.range m, (f k).length) with hlt | hge
    · obtain ⟨i, hi, found⟩ := ih hlt
      exact ⟨i, hi.trans (Nat.lt_succ_self m), found⟩
    · exact ⟨m, Nat.lt_succ_self m, p - ∑ k ∈ Finset.range m, (f k).length, by omega, by omega⟩

end Stages

namespace Circuit

variable {R : Type} [Scalar R]

/-- Where the stage of a qubit starts: behind a Hadamard gate and the turns of every qubit below. -/
def fourierStart (n i : ℕ) : ℕ := ∑ k ∈ Finset.range i, (n - k)

/-- The instructions of a Fourier transform on `n` qubits by their places. -/
structure FourierLayout (n : ℕ) (insts : List (Instruction R)) : Prop where
  length : insts.length = fourierStart n n + n / 2
  hadamard : ∀ i < n, insts[fourierStart n i]? = some (.standard (.plain .h) [⟨i.toUInt32⟩])
  /-- Qubit `i` is turned by qubit `j` at the distance of the two behind the Hadamard gate. -/
  turn : ∀ i j, i < j → j < n → insts[fourierStart n i + (j - i)]? =
    some (.standard (.rotation .cp (.value (Scalar.pi / Scalar.ofNat (2 ^ (j - i)))))
      [⟨j.toUInt32⟩, ⟨i.toUInt32⟩])
  /-- All of that comes before the Hadamard gate of the next qubit. -/
  order : ∀ i j, i < j → j < n → fourierStart n i < fourierStart n i + (j - i) ∧
    fourierStart n i + (j - i) < fourierStart n (i + 1)
  swap : ∀ i < n / 2, insts[fourierStart n n + i]? =
    some (.standard (.plain .swap) [⟨i.toUInt32⟩, ⟨(n - 1 - i).toUInt32⟩])
  /-- There is no other turn of the two qubits. -/
  once : ∀ i j, i < j → j < n → ∀ p angles,
    insts[p]? = some (.standard ⟨.cp, angles⟩ [⟨j.toUInt32⟩, ⟨i.toUInt32⟩]) →
      p = fourierStart n i + (j - i)
  /-- There are no other instructions. -/
  only : ∀ p < insts.length, (∃ i < n, p = fourierStart n i) ∨
    (∃ i j, i < j ∧ j < n ∧ p = fourierStart n i + (j - i)) ∨ ∃ i < n / 2, p = fourierStart n n + i

theorem fourierStart_succ (n i : ℕ) : fourierStart n (i + 1) = fourierStart n i + (n - i) :=
  Finset.sum_range_succ _ _

theorem fourierStart_mono (n : ℕ) : Monotone (fourierStart n) := fun _ _ h =>
  Finset.sum_le_sum_of_subset (Finset.range_subset_range.2 h)

theorem fourierStage_eq (n i : ℕ) : (fourierStage n i : List (Instruction R)) =
    .standard (.plain .h GateSymbol.arity_h) [⟨i.toUInt32⟩] ::
      (List.range (n - (i + 1))).map fun k => fourierTurn i (i + 1 + k) := by
  rw [fourierStage, List.singleton_append, List.map_eq_flatMap]

theorem length_fourierStage {n i : ℕ} (hi : i < n) :
    (fourierStage n i : List (Instruction R)).length = n - i := by
  rw [fourierStage_eq, List.length_cons, List.length_map, List.length_range]
  omega

theorem sum_length_fourierStage {n i : ℕ} (hi : i ≤ n) :
    ∑ k ∈ Finset.range i, (fourierStage n k : List (Instruction R)).length = fourierStart n i := by
  apply Finset.sum_congr rfl
  intro k hk
  exact length_fourierStage ((Finset.mem_range.1 hk).trans_le hi)

omit [Scalar R] in
theorem fourierSwaps_eq (n : ℕ) : (fourierSwaps n : List (Instruction R)) =
    (List.range (n / 2)).map fun i =>
      .standard (.plain .swap GateSymbol.arity_swap) [⟨i.toUInt32⟩, ⟨(n - 1 - i).toUInt32⟩] :=
  List.map_eq_flatMap.symm

theorem length_fourierStages (n : ℕ) :
    ((List.range n).flatMap (fourierStage n) : List (Instruction R)).length = fourierStart n n := by
  rw [length_flatMap_range, sum_length_fourierStage le_rfl]

theorem length_fourierInstructions (n : ℕ) :
    (fourierInstructions n : List (Instruction R)).length = fourierStart n n + n / 2 := by
  rw [fourierInstructions, List.length_append, length_fourierStages, fourierSwaps_eq,
    List.length_map, List.length_range]

/-- Within the stage of a qubit. -/
theorem getElem?_fourierStage {n i d : ℕ} (hi : i < n) (hd : d < n - i) :
    (fourierInstructions n : List (Instruction R))[fourierStart n i + d]? =
      (fourierStage n i)[d]? := by
  have hplace := getElem?_flatMap_range (fourierStage n : ℕ → List (Instruction R)) hi
    (length_fourierStage (R := R) hi ▸ hd)
  rw [sum_length_fourierStage hi.le] at hplace
  have hin : fourierStart n i + d < fourierStart n n := by
    have hnext := fourierStart_mono n (Nat.succ_le_of_lt hi)
    rw [fourierStart_succ] at hnext
    omega
  rw [fourierInstructions, List.getElem?_append_left (length_fourierStages (R := R) n ▸ hin),
    hplace]

theorem getElem?_fourierTurn {n i j : ℕ} (hij : i < j) (hj : j < n) :
    (fourierInstructions n : List (Instruction R))[fourierStart n i + (j - i)]? =
      some (.standard (.rotation .cp (.value (Scalar.pi / Scalar.ofNat (2 ^ (j - i)))))
        [⟨j.toUInt32⟩, ⟨i.toUInt32⟩]) := by
  obtain ⟨k, rfl⟩ : ∃ k, j = i + 1 + k := ⟨j - (i + 1), by omega⟩
  have hdistance : i + 1 + k - i = k + 1 := by omega
  have hk : k < n - (i + 1) := by omega
  rw [getElem?_fourierStage (hij.trans hj) (by omega), fourierStage_eq, hdistance,
    List.getElem?_cons_succ, List.getElem?_map, List.getElem?_range hk, Option.map_some,
    fourierTurn, hdistance, Nat.one_shiftLeft]

theorem getElem?_fourierSwap {n i : ℕ} (hi : i < n / 2) :
    (fourierInstructions n : List (Instruction R))[fourierStart n n + i]? =
      some (.standard (.plain .swap) [⟨i.toUInt32⟩, ⟨(n - 1 - i).toUInt32⟩]) := by
  have hlength := length_fourierStages (R := R) n
  rw [fourierInstructions, List.getElem?_append_right (hlength ▸ Nat.le_add_right _ _), hlength,
    Nat.add_sub_cancel_left, fourierSwaps_eq, List.getElem?_map, List.getElem?_range hi]
  rfl

theorem fourier_only {n p : ℕ}
    (hp : p < (fourierInstructions n : List (Instruction R)).length) :
    (∃ i < n, p = fourierStart n i) ∨
      (∃ i j, i < j ∧ j < n ∧ p = fourierStart n i + (j - i)) ∨
        ∃ i < n / 2, p = fourierStart n n + i := by
  rw [length_fourierInstructions] at hp
  rcases Nat.lt_or_ge p (fourierStart n n) with hlt | hge
  · rw [← sum_length_fourierStage (R := R) le_rfl] at hlt
    obtain ⟨i, hi, q, hq, rfl⟩ := exists_of_lt_flatMap_range _ hlt
    rw [length_fourierStage hi] at hq
    rw [sum_length_fourierStage hi.le]
    rcases Nat.eq_zero_or_pos q with rfl | hpos
    · exact .inl ⟨i, hi, rfl⟩
    · exact .inr (.inl ⟨i, i + q, by omega, by omega, by omega⟩)
  · exact .inr (.inr ⟨p - fourierStart n n, by omega, by omega⟩)

/-- The operands tell the turns apart, and nothing else is a turn. -/
theorem fourier_once {n : ℕ} (hn : n ≤ 2 ^ 32) {i j : ℕ} (hij : i < j) (hj : j < n) {p : ℕ}
    {angles : Vector (Parameter R) GateSymbol.cp.arity}
    (h : (fourierInstructions n)[p]? =
      some (.standard ⟨.cp, angles⟩ [⟨j.toUInt32⟩, ⟨i.toUInt32⟩])) :
    p = fourierStart n i + (j - i) := by
  rcases fourier_only (List.getElem?_eq_some_iff.1 h).1 with
    ⟨k, hk, rfl⟩ | ⟨k, l, hkl, hl, rfl⟩ | ⟨k, hk, rfl⟩
  · have hplace := getElem?_fourierStage (R := R) hk (d := 0) (by omega)
    rw [fourierStage_eq] at hplace
    cases hplace.symm.trans h
  · have hqubits := congrArg Instruction.qubits
      (Option.some.inj ((getElem?_fourierTurn hkl hl).symm.trans h))
    obtain ⟨hfirst, hrest⟩ := List.cons.inj hqubits
    obtain ⟨hsecond, -⟩ := List.cons.inj hrest
    have hlj : l = j := not_imp_not.1 (Qubit.toUInt32_ne (by omega) (by omega)) hfirst
    have hki : k = i := not_imp_not.1 (Qubit.toUInt32_ne (by omega) (by omega)) hsecond
    rw [hlj, hki]
  · cases (getElem?_fourierSwap hk).symm.trans h

theorem fourierLayout {n : ℕ} (hn : n ≤ 2 ^ 32) :
    FourierLayout n (fourierInstructions n : List (Instruction R)) := by
  constructor
  · exact length_fourierInstructions n
  · intro i hi
    have hfirst := getElem?_fourierStage (R := R) hi (d := 0) (by omega)
    rw [fourierStage_eq] at hfirst
    exact hfirst
  · intro i j hij hj
    exact getElem?_fourierTurn hij hj
  · intro i j hij hj
    rw [fourierStart_succ]
    omega
  · intro i hi
    exact getElem?_fourierSwap hi
  · intro i j hij hj p angles h
    exact fourier_once hn hij hj h
  · intro p hp
    exact fourier_only hp

/-- Up to 32 qubits the construction of the Fourier transform never leaves the range of a word. It
returns a valid circuit in which every two qubits have exactly one turn, by the half circle divided
by two to the power of their distance, between the Hadamard gates of the lower qubit and of the one
above it; the swaps follow, and nothing else is there. From 33 qubits on it stops at the turn of
qubit 0 by qubit 32, whose angle takes a shift by the width of the word. The simulator can be
configured for registers of that size. -/
theorem qft_layout (n : UInt32) :
    (n.toNat ≤ 32 → ∃ c : Circuit R, qft n = .ok c ∧ c.validate = .ok () ∧ c.numQubits = n ∧
      c.numClbits = 0 ∧ FourierLayout n.toNat c.instructions) ∧
    (32 < n.toNat → (qft n : Except (CircuitError R) (Circuit R)) = .error (.fault .shift)) ∧
    32 < SimulatorConfig.supportedQubits.toNat := by
  refine ⟨fun hn => ?_, fun hn => qft_eq_fault hn, by decide⟩
  have hlayout : FourierLayout n.toNat (fourierInstructions n.toNat : List (Instruction R)) :=
    fourierLayout n.toNat_lt.le
  rcases Nat.eq_zero_or_pos n.toNat with hzero | hpos
  · obtain rfl : n = 0 := UInt32.toNat_inj.1 hzero
    exact ⟨empty "qft_0", rfl, rfl, rfl, rfl, hlayout⟩
  · refine ⟨_, qft_eq_ok hpos hn, ?_, rfl, rfl, hlayout⟩
    exact (validate_eq_ok _).2 (fits_fourierInstructions (c := ⟨"qft", n, 0, _⟩))

/-- Three qubits, and the smallest register without a transform. -/
theorem qft_layout_three_and_thirtyThree :
    (3 : UInt32).toNat ≤ 32 ∧ 32 < (33 : UInt32).toNat ∧
      (∃ c : Circuit ℝ, qft 3 = .ok c ∧ c.instructions.length = 7 ∧
        c.instructions[2]? = some (.standard (.rotation .cp (.value (Real.pi / 4))) [⟨2⟩, ⟨0⟩])) ∧
      (qft 33 : Except (CircuitError ℝ) (Circuit ℝ)) = .error (.fault .shift) := by
  have hsmall : (3 : UInt32).toNat ≤ 32 := by decide
  have hlarge : 32 < (33 : UInt32).toNat := by decide
  obtain ⟨hbuilt, -, -⟩ := qft_layout (R := ℝ) 3
  obtain ⟨-, hfault, -⟩ := qft_layout (R := ℝ) 33
  obtain ⟨c, hc, -, -, -, hlayout⟩ := hbuilt hsmall
  have hturn := hlayout.turn 0 2 (by decide) (by decide)
  have hangle : (Scalar.pi / Scalar.ofNat (2 ^ 2) : ℝ) = Real.pi / 4 := by
    rw [Scalar.pi_real, Scalar.ofNat_real]
    norm_num
  rw [show (2 - 0) = 2 from rfl, hangle] at hturn
  exact ⟨hsmall, hlarge, ⟨c, hc, hlayout.length, hturn⟩, hfault hlarge⟩

end Circuit

end QuantumSim
