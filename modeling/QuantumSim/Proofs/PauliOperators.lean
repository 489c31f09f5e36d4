import Mathlib
import QuantumSim.Proofs.NormPreservation
import QuantumSim.Proofs.Expectation

/-!
Pauli strings as operators. The masks of a string stand for an operator on vectors, with a sign, a
flip of the index and a power of the imaginary unit. On distinct qubits it is the composite of the
gates of the string, and it is Hermitian, so that the masked sum over a state is its overlap with
the image that the gates compute.
-/
namespace QuantumSim
open BasisIndex

namespace Statevector

section Parity

theorem oddBits_zero : oddBits 0 = false := by rw [oddBits, if_pos rfl]

theorem oddBits_eq (n : ℕ) : oddBits n = (n.testBit 0 != oddBits (n / 2)) := by
  by_cases hn : n = 0
  · subst hn
    simp [oddBits_zero]
  · rw [oddBits, if_neg hn, Nat.testBit_zero, Bool.beq_eq_decide_eq]

/-- The parity of the bits is additive. -/
theorem oddBits_xor (a b : ℕ) : oddBits (a ^^^ b) = (oddBits a != oddBits b) := by
  induction a using Nat.strong_induction_on generalizing b with
  | _ a ih =>
    by_cases ha : a = 0
    · subst ha
      simp [oddBits_zero]
    · have hhalf : a / 2 < a := by omega
      rw [oddBits_eq (a ^^^ b), oddBits_eq a, oddBits_eq b, Nat.testBit_xor, Nat.xor_div_two,
        ih _ hhalf]
      cases a.testBit 0 <;> cases b.testBit 0 <;> cases oddBits (a / 2) <;>
        cases oddBits (b / 2) <;> rfl

theorem oddBits_two_pow (q : ℕ) : oddBits (2 ^ q) = true := by
  induction q with
  | zero => simp [oddBits_eq 1, oddBits_zero]
  | succ q ih =>
    have hhalf : 2 ^ (q + 1) / 2 = 2 ^ q := by omega
    rw [oddBits_eq, hhalf, ih, Nat.testBit_two_pow]
    simp

/-- The sign that the parity of the bits stands for. -/
def signOf (n : ℕ) : ℂ := if oddBits n then -1 else 1

@[simp] theorem signOf_zero : signOf 0 = 1 := by simp [signOf, oddBits_zero]

@[simp] theorem signOf_two_pow (q : ℕ) : signOf (2 ^ q) = -1 := by simp [signOf, oddBits_two_pow]

theorem signOf_xor (a b : ℕ) : signOf (a ^^^ b) = signOf a * signOf b := by
  unfold signOf
  rw [oddBits_xor]
  cases oddBits a <;> cases oddBits b <;> simp

theorem signOf_and_two_pow (i q : ℕ) : signOf (i &&& 2 ^ q) = if i.testBit q then -1 else 1 := by
  rw [Nat.and_two_pow]
  cases i.testBit q <;> simp

@[simp] theorem conj_signOf (n : ℕ) : (starRingEnd ℂ) (signOf n) = signOf n := by
  unfold signOf
  split <;> simp

end Parity

namespace PauliMasks

/-- The operator that the masks of a string stand for. -/
noncomputable def act (m : PauliMasks) (v : ℕ → ℂ) (i : ℕ) : ℂ :=
  Complex.I ^ m.numY * (signOf ((i ^^^ m.flip) &&& m.sign) * v (i ^^^ m.flip))

/-- The masks of a single operator. -/
def single (qubit : Qubit) (op : Pauli) : PauliMasks := set {} qubit op

/-- The masks of a string and then another, on other qubits. -/
def merge (m m' : PauliMasks) : PauliMasks :=
  ⟨m.flip ^^^ m'.flip, m.sign ^^^ m'.sign, m.numY + m'.numY⟩

/-- Masks that do not have the bit of a qubit. -/
structure Misses (m : PauliMasks) (q : ℕ) : Prop where
  flip : m.flip.testBit q = false
  sign : m.sign.testBit q = false

/-- Masks whose bits of both kinds are as many as the operators `y`, up to an even number. -/
def Balanced (m : PauliMasks) : Prop := signOf (m.flip &&& m.sign) = (-1) ^ m.numY

/-- Two operators in turn are one, up to the sign that moving the flips past the signs costs. -/
theorem act_act (m m' : PauliMasks) (v : ℕ → ℂ) (i : ℕ) :
    m'.act (m.act v) i = signOf (m.flip &&& m'.sign) * (m.merge m').act v i := by
  have hindex : i ^^^ (m.flip ^^^ m'.flip) = i ^^^ m'.flip ^^^ m.flip := by
    rw [Nat.xor_assoc, Nat.xor_comm m.flip]
  have hsquare : signOf (m.flip &&& m'.sign) * signOf (m.flip &&& m'.sign) = 1 := by
    unfold signOf
    split <;> simp
  have hsign : signOf ((i ^^^ m'.flip ^^^ m.flip) &&& m'.sign) * signOf (m.flip &&& m'.sign) =
      signOf ((i ^^^ m'.flip) &&& m'.sign) := by
    rw [Nat.and_xor_distrib_right, signOf_xor, mul_assoc, hsquare, mul_one]
  unfold act merge
  dsimp only
  rw [hindex, Nat.and_xor_distrib_left, signOf_xor, ← hsign, pow_add]
  ring

theorem act_empty (v : ℕ → ℂ) : act {} v = v := by
  funext i
  simp [act]

theorem misses_empty (q : ℕ) : Misses {} q := ⟨Nat.zero_testBit q, Nat.zero_testBit q⟩

theorem balanced_empty : Balanced {} := by simp [Balanced]

theorem act_congr {m : PauliMasks} {n : ℕ} (hflip : m.flip < 2 ^ n) {v w : ℕ → ℂ}
    (h : ∀ i < 2 ^ n, v i = w i) {i : ℕ} (hi : i < 2 ^ n) : m.act v i = m.act w i := by
  unfold act
  rw [h _ (Nat.xor_lt_two_pow hi hflip)]

/-- Seen from the flipped index, the operator reads the amplitude at the index itself. -/
theorem act_flipped (m : PauliMasks) (v : ℕ → ℂ) (i : ℕ) :
    m.act v (i ^^^ m.flip) = Complex.I ^ m.numY * (signOf (i &&& m.sign) * v i) := by
  unfold act
  rw [Nat.xor_xor_cancel_right]

/-- Balanced masks stand for a Hermitian operator. -/
theorem Balanced.conj_act {m : PauliMasks} (h : m.Balanced) (v : ℕ → ℂ) (i : ℕ) :
    v (i ^^^ m.flip) * (starRingEnd ℂ) (m.act v (i ^^^ m.flip)) =
      (starRingEnd ℂ) (v i) * m.act v i := by
  have hphase : (starRingEnd ℂ) (Complex.I ^ m.numY) = Complex.I ^ m.numY * (-1) ^ m.numY := by
    rw [map_pow, Complex.conj_I, ← mul_pow, mul_neg_one]
  rw [act_flipped, map_mul, map_mul, hphase, conj_signOf, ← h]
  unfold act
  rw [Nat.and_xor_distrib_right, signOf_xor]
  ring

section Single

variable {m : PauliMasks} {qubit : Qubit}

theorem Misses.set_eq_merge (h : m.Misses qubit.index) (op : Pauli) :
    m.set qubit op = m.merge (single qubit op) := by
  cases op <;>
    simp [set, single, merge, Pauli.flips, Pauli.signs, or_two_pow_eq_xor h.flip,
      or_two_pow_eq_xor h.sign]

theorem Misses.and_single (h : m.Misses qubit.index) (op : Pauli) :
    m.flip &&& (single qubit op).sign = 0 ∧ (single qubit op).flip &&& m.sign = 0 := by
  have hflip : m.flip &&& 2 ^ qubit.index = 0 := and_two_pow_eq_zero.2 h.flip
  have hsign : 2 ^ qubit.index &&& m.sign = 0 := by
    rw [Nat.and_comm]
    exact and_two_pow_eq_zero.2 h.sign
  cases op <;> simp [set, single, Pauli.flips, Pauli.signs, hflip, hsign]

/-- An operator on a qubit of its own follows the operators before it. -/
theorem Misses.act_set (h : m.Misses qubit.index) (op : Pauli) (v : ℕ → ℂ) :
    (m.set qubit op).act v = (single qubit op).act (m.act v) := by
  funext i
  rw [act_act, (h.and_single op).1, signOf_zero, one_mul, h.set_eq_merge]

theorem single_flip_lt {n : ℕ} (h : qubit.index < n) (op : Pauli) :
    (single qubit op).flip < 2 ^ n := by
  have hbit : 2 ^ qubit.index < 2 ^ n := Nat.pow_lt_pow_right (by decide) h
  cases op <;> simp [single, set, Pauli.flips, hbit]

theorem balanced_single (qubit : Qubit) (op : Pauli) : (single qubit op).Balanced := by
  cases op <;> simp [Balanced, single, set, Pauli.flips, Pauli.signs]

theorem Balanced.set (hm : m.Balanced) (h : m.Misses qubit.index) (op : Pauli) :
    (m.set qubit op).Balanced := by
  obtain ⟨hleft, hright⟩ := h.and_single op
  have hsingle : signOf ((single qubit op).flip &&& (single qubit op).sign) = _ :=
    balanced_single qubit op
  rw [h.set_eq_merge]
  unfold Balanced merge
  dsimp only
  rw [Nat.and_xor_distrib_left, Nat.and_xor_distrib_right, Nat.and_xor_distrib_right, hleft,
    hright, Nat.xor_zero, Nat.zero_xor, signOf_xor, hm, hsingle, pow_add]

theorem Misses.set_of_ne {q : ℕ} (h : m.Misses q) (hq : qubit.index ≠ q) (op : Pauli) :
    (m.set qubit op).Misses q := by
  constructor
  · cases op <;> simp [set, Pauli.flips, h.flip, hq]
  · cases op <;> simp [set, Pauli.signs, h.sign, hq]

end Single

/-- The masks of operators on distinct qubits stand for the composite of the operators, in the order
of the list, and stay balanced. -/
theorem act_foldl_set {ops : List (Qubit × Pauli)} (hnodup : (ops.map (·.1)).Nodup)
    {m : PauliMasks} (hm : m.Balanced) (hmisses : ∀ op ∈ ops, m.Misses op.1.index) (v : ℕ → ℂ) :
    (ops.foldl (fun m op => m.set op.1 op.2) m).act v =
        ops.foldl (fun w op => (single op.1 op.2).act w) (m.act v) ∧
      (ops.foldl (fun m op => m.set op.1 op.2) m).Balanced := by
  induction ops generalizing m with
  | nil => exact ⟨rfl, hm⟩
  | cons op ops ih =>
    rw [List.map_cons, List.nodup_cons] at hnodup
    obtain ⟨hfirst, hrest⟩ := List.forall_mem_cons.1 hmisses
    have hlater : ∀ later ∈ ops, (m.set op.1 op.2).Misses later.1.index := by
      intro later hlater
      apply (hrest later hlater).set_of_ne
      intro hindex
      have hqubit : op.1 = later.1 := Qubit.index_injective hindex
      exact hnodup.1 (hqubit ▸ List.mem_map_of_mem hlater)
    rw [List.foldl_cons, List.foldl_cons, ← hfirst.act_set]
    exact ih hnodup.2 (hm.set hfirst op.2) hlater

end PauliMasks

end Statevector

namespace Pauli

def symbol : Pauli → GateSymbol
  | i => .i
  | x => .x
  | y => .y
  | z => .z

theorem arity_symbol (op : Pauli) : op.symbol.arity = 0 := by cases op <;> rfl

/-- The gate of the fixed set that applies an operator. -/
def gate {R : Type} (op : Pauli) : StandardGate (Parameter R) := .plain op.symbol op.arity_symbol

end Pauli

namespace PauliString
open Statevector

/-- The gates of a string, in the order of the list. An identity needs none. -/
def instructions {R : Type} (p : PauliString) : List (Instruction R) :=
  (p.ops.filter fun op => op.2 ≠ .i).map fun op => .standard op.2.gate [op.1]

theorem instructions_cons_of_identity {R : Type} {op : Qubit × Pauli} (h : op.2 = .i)
    (ops : List (Qubit × Pauli)) :
    (instructions ⟨op :: ops⟩ : List (Instruction R)) = instructions ⟨ops⟩ := by
  simp [instructions, h]

theorem instructions_cons {R : Type} {op : Qubit × Pauli} (h : op.2 ≠ .i)
    (ops : List (Qubit × Pauli)) : (instructions ⟨op :: ops⟩ : List (Instruction R)) =
      .standard op.2.gate [op.1] :: instructions ⟨ops⟩ := by
  simp [instructions, h]

/-- A string on distinct qubits of a register. -/
structure IsOn (p : PauliString) (n : ℕ) : Prop where
  distinct : (p.ops.map (·.1)).Nodup
  range : ∀ op ∈ p.ops, op.1.index < n

instance (p : PauliString) (n : ℕ) : Decidable (p.IsOn n) :=
  decidable_of_iff ((p.ops.map (·.1)).Nodup ∧ ∀ op ∈ p.ops, op.1.index < n)
    ⟨fun h => ⟨h.1, h.2⟩, fun h => ⟨h.distinct, h.range⟩⟩

variable {p : PauliString} {n : ℕ}

/-- The masks of a string on distinct qubits stand for the composite of its operators. -/
theorem IsOn.act_masks (h : p.IsOn n) (v : ℕ → ℂ) :
    p.masks.act v = p.ops.foldl (fun w op => (PauliMasks.single op.1 op.2).act w) v := by
  have hmasks := PauliMasks.act_foldl_set h.distinct PauliMasks.balanced_empty
    (fun _ _ => PauliMasks.misses_empty _) v
  rw [PauliMasks.act_empty] at hmasks
  exact hmasks.1

theorem IsOn.balanced_masks (h : p.IsOn n) : p.masks.Balanced :=
  (PauliMasks.act_foldl_set h.distinct PauliMasks.balanced_empty
    (fun _ _ => PauliMasks.misses_empty _) 0).2

theorem IsOn.flip_lt (h : p.IsOn n) : p.masks.flip < 2 ^ n :=
  flip_lt_iff.2 fun op hop _ => h.range op hop

end PauliString

/-- The inner product of two vectors over a register. -/
noncomputable def overlap (n : ℕ) (v w : ℕ → ℂ) : ℂ :=
  ∑ i ∈ Finset.range (2 ^ n), (starRingEnd ℂ) (v i) * w i

theorem overlap_congr {n : ℕ} {v w w' : ℕ → ℂ} (h : ∀ i < 2 ^ n, w i = w' i) :
    overlap n v w = overlap n v w' :=
  Finset.sum_congr rfl fun i hi => by rw [h i (Finset.mem_range.1 hi)]

/-- Flipping bits permutes the indices of a register. -/
theorem sum_flipped {n flip : ℕ} (hflip : flip < 2 ^ n) (f : ℕ → ℂ) :
    ∑ i ∈ Finset.range (2 ^ n), f (i ^^^ flip) = ∑ i ∈ Finset.range (2 ^ n), f i := by
  have hmem : ∀ i ∈ Finset.range (2 ^ n), i ^^^ flip ∈ Finset.range (2 ^ n) := fun i hi =>
    Finset.mem_range.2 (Nat.xor_lt_two_pow (Finset.mem_range.1 hi) hflip)
  apply Finset.sum_nbij' (· ^^^ flip) (· ^^^ flip) hmem hmem
  · intro i _
    exact Nat.xor_xor_cancel_right i flip
  · intro i _
    exact Nat.xor_xor_cancel_right i flip
  · intro i _
    rfl

/-- The overlap of a vector with its image under balanced masks is real. -/
theorem Statevector.PauliMasks.Balanced.conj_overlap {m : PauliMasks} (h : m.Balanced) {n : ℕ}
    (hflip : m.flip < 2 ^ n) (v : ℕ → ℂ) :
    (starRingEnd ℂ) (overlap n v (m.act v)) = overlap n v (m.act v) := by
  calc (starRingEnd ℂ) (overlap n v (m.act v))
      = ∑ i ∈ Finset.range (2 ^ n), v i * (starRingEnd ℂ) (m.act v i) := by
        simp only [overlap, map_sum, map_mul, Complex.conj_conj]
    _ = ∑ i ∈ Finset.range (2 ^ n), v (i ^^^ m.flip) * (starRingEnd ℂ) (m.act v (i ^^^ m.flip)) :=
        (sum_flipped hflip fun i => v i * (starRingEnd ℂ) (m.act v i)).symm
    _ = overlap n v (m.act v) := Finset.sum_congr rfl fun i _ => h.conj_act v i

namespace Statevector

variable {s : Statevector ℝ} {n : ℕ}

/-- What an index adds to a masked sum. -/
noncomputable def maskedTerm (s : Statevector ℝ) (m : PauliMasks) (i : ℕ) : Amplitude ℝ :=
  ((Kernel.valueAt s.amplitudes (i ^^^ m.flip)).conj * Kernel.valueAt s.amplitudes i).scale
    (if oddBits (i &&& m.sign) then -Scalar.one else Scalar.one)

theorem maskedSum_eq (hs : s.HasWidth n) {m : PauliMasks} (hflip : m.flip < 2 ^ n) :
    s.maskedSum m =
      .ok ((List.range s.size).foldl (fun acc i => acc + s.maskedTerm m i) Amplitude.zero) := by
  apply foldlM_eq_foldl
  intro acc i hi
  have hi : i < s.amplitudes.size := List.mem_range.1 hi
  have hpartner : i ^^^ m.flip < s.amplitudes.size := by
    rw [hs.size_eq] at hi ⊢
    exact Nat.xor_lt_two_pow hi hflip
  rw [Kernel.elementAt_eq hpartner, Kernel.elementAt_eq hi]
  rfl

theorem toComplex_foldl_add (g : ℕ → Amplitude ℝ) (k : ℕ) :
    ((List.range k).foldl (fun acc i => acc + g i) Amplitude.zero).toComplex =
      ∑ i ∈ Finset.range k, (g i).toComplex := by
  induction k with
  | zero => simp
  | succ k ih =>
    rw [List.range_succ, List.foldl_append, Finset.sum_range_succ, ← ih]
    rfl

/-- An index adds what the flipped index adds to the overlap with the image. -/
theorem toComplex_maskedTerm (s : Statevector ℝ) (m : PauliMasks) (i : ℕ) :
    Complex.I ^ m.numY * (s.maskedTerm m i).toComplex =
      (starRingEnd ℂ) (s.coefficient (i ^^^ m.flip)) * m.act s.coefficient (i ^^^ m.flip) := by
  have hsign : ((if oddBits (i &&& m.sign) then -Scalar.one else Scalar.one : ℝ) : ℂ) =
      signOf (i &&& m.sign) := by
    unfold signOf
    split <;> simp
  rw [PauliMasks.act_flipped, maskedTerm, Amplitude.toComplex_scale, hsign]
  show Complex.I ^ m.numY * ((starRingEnd ℂ) (s.coefficient (i ^^^ m.flip)) * s.coefficient i *
    signOf (i &&& m.sign)) = _
  ring

/-- The masked sum with its power of the imaginary unit is the overlap with the image. -/
theorem exists_maskedSum_eq_overlap (hs : s.HasWidth n) {m : PauliMasks} (hflip : m.flip < 2 ^ n) :
    ∃ value, s.maskedSum m = .ok value ∧ (Amplitude.iPow m.numY * value).toComplex =
      overlap n s.coefficient (m.act s.coefficient) := by
  refine ⟨_, maskedSum_eq hs hflip, ?_⟩
  rw [Amplitude.toComplex_mul, Amplitude.toComplex_iPow, toComplex_foldl_add, Finset.mul_sum, size,
    hs.size_eq]
  simp only [toComplex_maskedTerm]
  exact sum_flipped hflip fun i => (starRingEnd ℂ) (s.coefficient i) * m.act s.coefficient i

/-- The value of a term is its weight times the overlap. -/
theorem termExpectation_eq_overlap (hs : s.HasWidth n) {term : ObservableTerm ℝ}
    (hterm : term.pauli.IsOn n) : s.termExpectation term =
      .ok (term.coeff * (overlap n s.coefficient (term.pauli.masks.act s.coefficient)).re) := by
  have hn : n < 64 := hs.width ▸ hs.register.width
  have hmasks := PauliString.pauliMasks_eq fun op hop => (hterm.range op hop).trans hn
  obtain ⟨value, hvalue, hoverlap⟩ := exists_maskedSum_eq_overlap hs hterm.flip_lt
  unfold termExpectation
  rw [hmasks, ok_bind, hvalue, ← hoverlap]
  rfl

end Statevector

namespace Pauli

/-- What the gate of an operator does to its target. -/
def operator {R : Type} [Scalar R] : Pauli → Operator R
  | i => .diagonal .one .one
  | x => .single .x
  | y => .single .y
  | z => .diagonal .one (-.one)

theorem lower_gate (op : Pauli) :
    (GateKind.standard op.gate).lower = .ok (⟨op.operator, 0⟩ : LoweredGate ℝ) := by
  rw [gate, GateKind.lower_plain]
  cases op <;> rfl

theorem numTargets_operator (op : Pauli) : (op.operator : Operator ℝ).numTargets = 1 := by
  cases op <;> rfl

open Statevector in
/-- A row of the operator is the row that the masks say. -/
theorem toComplex_rowAt (op : Pauli) (qubit : Qubit) (f : ℕ → Amplitude ℝ) (j : ℕ) :
    (op.operator.rowAt [qubit.index] f j).toComplex =
      (PauliMasks.single qubit op).act (fun k => (f k).toComplex) j := by
  have hflip : (j ^^^ 2 ^ qubit.index).testBit qubit.index = !j.testBit qubit.index := by
    simp [Nat.testBit_xor]
  cases op with
  | i => simp [operator, Operator.rowAt, PauliMasks.act, PauliMasks.single, PauliMasks.set, flips,
      signs]
  | z =>
    cases hbit : j.testBit qubit.index <;>
      simp [operator, Operator.rowAt, PauliMasks.act, PauliMasks.single, PauliMasks.set, flips,
        signs, signOf_and_two_pow, hbit]
  | x =>
    cases hbit : j.testBit qubit.index <;>
      simp [operator, Operator.rowAt, Kernel.singleRow, GateMatrix.x, PauliMasks.act,
        PauliMasks.single, PauliMasks.set, flips, signs, withBit, hbit, Vector.get_eq_getElem]
  | y =>
    cases hbit : j.testBit qubit.index <;>
      simp [operator, Operator.rowAt, Kernel.singleRow, GateMatrix.y, PauliMasks.act,
        PauliMasks.single, PauliMasks.set, flips, signs, withBit, signOf_and_two_pow, hflip, hbit,
        Vector.get_eq_getElem]

end Pauli

namespace Statevector

variable {s : Statevector ℝ} {n : ℕ}

/-- The gate of an operator acts as its masks do. -/
theorem exists_apply_pauli (hs : s.HasWidth n) {qubit : Qubit} (hq : qubit.index < n)
    (op : Pauli) : ∃ t, s.apply (.standard op.gate [qubit]) = .ok t ∧ t.HasWidth n ∧
      ∀ i < 2 ^ n, t.coefficient i = (PauliMasks.single qubit op).act s.coefficient i := by
  let lowered : LoweredGate ℝ := ⟨op.operator, 0⟩
  let g : Gate ℝ := .ofStandard op.gate
  have haccepts : lowered.Accepts s.numQubits g [qubit] := by
    constructor
    · simp [lowered, op.numTargets_operator]
    · simp [g, Gate.ofStandard]
    · simpa [g, Gate.ofStandard, hs.width] using hq
  have happly : s.apply (.standard op.gate [qubit]) =
      .ok { s with amplitudes := Kernel.transform (gatePass lowered g [qubit]) s.amplitudes } :=
    bind_eq_ok.2 ⟨lowered, op.lower_gate, applyLowered_eq hs.register haccepts⟩
  refine ⟨_, happly, ⟨⟨hs.register.width, ?_⟩, hs.width⟩, fun i hi => ?_⟩
  · exact (Kernel.size_transform _ _).trans hs.register.size
  · have hsize : i < s.amplitudes.size := hs.size_eq ▸ hi
    have hselected : Selected ([qubit].take lowered.controls) g.controls i := by
      simp [lowered, g, Gate.ofStandard, Selected]
    unfold coefficient
    rw [Kernel.valueAt_transform _ hsize, gatePass, if_pos hselected]
    exact op.toComplex_rowAt qubit _ i

/-- The gates of a string apply to every state and act in turn as the operators do. -/
theorem exists_applyAll_pauli {ops : List (Qubit × Pauli)} (hrange : ∀ op ∈ ops, op.1.index < n)
    (hs : s.HasWidth n) {v : ℕ → ℂ} (hv : ∀ i < 2 ^ n, s.coefficient i = v i) :
    ∃ t, s.applyAll (PauliString.instructions ⟨ops⟩) = .ok t ∧ t.HasWidth n ∧ ∀ i < 2 ^ n,
      t.coefficient i = ops.foldl (fun w op => (PauliMasks.single op.1 op.2).act w) v i := by
  induction ops generalizing s v with
  | nil => exact ⟨s, rfl, hs, hv⟩
  | cons op ops ih =>
    obtain ⟨hfirst, hrest⟩ := List.forall_mem_cons.1 hrange
    have hact : ∀ i < 2 ^ n, (PauliMasks.single op.1 op.2).act s.coefficient i =
        (PauliMasks.single op.1 op.2).act v i := fun i hi =>
      PauliMasks.act_congr (PauliMasks.single_flip_lt hfirst op.2) hv hi
    rw [List.foldl_cons]
    by_cases hop : op.2 = .i
    · -- an identity applies no gate, and its masks stand for the identity
      have hsame : (PauliMasks.single op.1 op.2).act s.coefficient = s.coefficient := by
        rw [hop]
        exact PauliMasks.act_empty _
      rw [PauliString.instructions_cons_of_identity hop]
      exact ih hrest hs fun i hi => (congrFun hsame i).symm.trans (hact i hi)
    · obtain ⟨u, happly, hu, hcoeff⟩ := exists_apply_pauli hs hfirst op.2
      obtain ⟨t, hrun, ht⟩ := ih hrest hu fun i hi => (hcoeff i hi).trans (hact i hi)
      refine ⟨t, ?_, ht⟩
      rw [PauliString.instructions_cons hop, applyAll_cons]
      exact bind_eq_ok.2 ⟨u, happly, hrun⟩

/-- On distinct qubits of a register the gates of a string compute what its masks stand for. -/
theorem exists_applyAll_masks (hs : s.HasWidth n) {p : PauliString} (hp : p.IsOn n) :
    ∃ t, s.applyAll p.instructions = .ok t ∧ t.HasWidth n ∧
      ∀ i < 2 ^ n, t.coefficient i = p.masks.act s.coefficient i := by
  obtain ⟨t, happly, ht, hcoeff⟩ := exists_applyAll_pauli hp.range hs fun _ _ => rfl
  rw [← hp.act_masks s.coefficient] at hcoeff
  exact ⟨t, happly, ht, hcoeff⟩

/-- The image that the gates of a string compute has a real overlap with the state, the one that the
masks give. -/
theorem exists_applyAll_overlap (hs : s.HasWidth n) {p : PauliString} (hp : p.IsOn n) :
    ∃ t, s.applyAll p.instructions = .ok t ∧
      (overlap n s.coefficient t.coefficient).im = 0 ∧
      overlap n s.coefficient t.coefficient =
        overlap n s.coefficient (p.masks.act s.coefficient) := by
  obtain ⟨t, happly, -, hcoeff⟩ := exists_applyAll_masks hs hp
  have hoverlap : overlap n s.coefficient t.coefficient =
      overlap n s.coefficient (p.masks.act s.coefficient) := overlap_congr hcoeff
  refine ⟨t, happly, ?_, hoverlap⟩
  rw [← Complex.conj_eq_iff_im, hoverlap]
  exact hp.balanced_masks.conj_overlap hp.flip_lt _

/-- The value of an observable is the sum of the values of its terms. -/
theorem expectation_eq_sum {o : Observable ℝ} {value : ObservableTerm ℝ → ℝ}
    (h : ∀ term ∈ o.terms, s.termExpectation term = .ok (value term)) :
    s.expectation o = .ok (o.terms.map value).sum := by
  have hloop : s.expectation o =
      .ok (o.terms.foldl (fun acc term => acc + value term) (-Scalar.zero)) := by
    apply foldlM_eq_foldl
    intro acc term hterm
    rw [h term hterm]
    rfl
  rw [hloop, List.sum_eq_foldl, List.foldl_map, Scalar.zero_real, neg_zero]

/-- The value of an observable whose terms are on distinct qubits of the register is the weighted
sum of the overlaps of the state with the images that the gates of the terms compute, and every
overlap is real. -/
theorem expectation_eq_overlap {s : Statevector ℝ} (hs : s.IsRegister) {o : Observable ℝ}
    (hterms : ∀ term ∈ o.terms, term.pauli.IsOn s.numQubits) :
    ∃ image : PauliString → Statevector ℝ,
      (∀ term ∈ o.terms, s.applyAll term.pauli.instructions = .ok (image term.pauli) ∧
        (overlap s.numQubits s.coefficient (image term.pauli).coefficient).im = 0) ∧
      ∃ value, s.expectation o = .ok value ∧
        (value : ℂ) = (o.terms.map fun term => (term.coeff : ℂ) *
          overlap s.numQubits s.coefficient (image term.pauli).coefficient).sum := by
  have hwidth : s.HasWidth s.numQubits := ⟨hs, rfl⟩
  have hstates : Nonempty (Statevector ℝ) := ⟨s⟩
  choose! image happly hreal hoverlap using
    fun (p : PauliString) (hp : p.IsOn s.numQubits) => exists_applyAll_overlap hwidth hp
  refine ⟨image, fun term hterm => ⟨happly _ (hterms term hterm), hreal _ (hterms term hterm)⟩, _,
    expectation_eq_sum fun term hterm => termExpectation_eq_overlap hwidth (hterms term hterm), ?_⟩
  rw [← Complex.ofRealHom_eq_coe, map_list_sum, List.map_map]
  apply congrArg List.sum
  apply List.map_congr_left
  intro term hterm
  have hp := hterms term hterm
  have hre : ((overlap s.numQubits s.coefficient (image term.pauli).coefficient).re : ℂ) =
      overlap s.numQubits s.coefficient (image term.pauli).coefficient :=
    Complex.ext rfl (hreal _ hp).symm
  rw [← hre, hoverlap _ hp]
  simp

/-- Two unsorted strings, one with two operators `y` and one with an identity, on amplitudes that
are not real. -/
theorem expectation_eq_overlap_unsorted :
    let s : Statevector ℝ := ⟨3, #[.one, .i, .one, .zero, .i, .ofReal 3, .one, -.i], {}⟩
    let p : PauliString := ⟨[(⟨2⟩, .y), (⟨0⟩, .y), (⟨1⟩, .x)]⟩
    let p' : PauliString := ⟨[(⟨1⟩, .z), (⟨0⟩, .i), (⟨2⟩, .y)]⟩
    let o : Observable ℝ := ⟨[⟨2, p⟩, ⟨-1, p'⟩]⟩
    (∀ term ∈ o.terms, term.pauli.IsOn s.numQubits) ∧
      ∃ t t' value, s.applyAll p.instructions = .ok t ∧ s.applyAll p'.instructions = .ok t' ∧
        s.expectation o = .ok value ∧ (value : ℂ) =
          2 * overlap 3 s.coefficient t.coefficient - overlap 3 s.coefficient t'.coefficient := by
  intro s p p' o
  have hp : p.IsOn s.numQubits := by decide
  have hp' : p'.IsOn s.numQubits := by decide
  have hterms : ∀ term ∈ o.terms, term.pauli.IsOn s.numQubits := by
    simp only [o, List.forall_mem_cons]
    exact ⟨hp, hp', by simp⟩
  obtain ⟨image, himage, value, hvalue, hsum⟩ :=
    expectation_eq_overlap (s := s) ⟨by decide, rfl⟩ hterms
  have hfirst := (himage ⟨2, p⟩ (by simp [o])).1
  have hsecond := (himage ⟨-1, p'⟩ (by simp [o])).1
  refine ⟨hterms, image p, image p', value, hfirst, hsecond, hvalue, ?_⟩
  rw [hsum]
  simp [o, s, sub_eq_add_neg]

end Statevector

end QuantumSim
