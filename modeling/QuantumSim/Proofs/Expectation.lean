import Mathlib
import QuantumSim.Proofs.Robustness

/-!
Expectation values of Pauli strings as they are listed, in any order and with identities. A string
has a value if no listed qubit leaves the word and none that is flipped leaves the register; the
other operators outside the register are passed over.
-/
namespace QuantumSim

namespace Pauli

def flips : Pauli → Bool
  | x | y => true
  | i | z => false

def signs : Pauli → Bool
  | y | z => true
  | i | x => false

end Pauli

namespace Statevector.PauliMasks

/-- The masks with one more operator, on a qubit of any position. -/
def set (m : PauliMasks) (qubit : Qubit) (op : Pauli) : PauliMasks where
  flip := if op.flips then m.flip ||| 2 ^ qubit.index else m.flip
  sign := if op.signs then m.sign ||| 2 ^ qubit.index else m.sign
  numY := if op = .y then m.numY + 1 else m.numY

theorem add_eq {m : PauliMasks} {qubit : Qubit} (h : qubit.index < 64) (op : Pauli) :
    m.add qubit op = .ok (m.set qubit op) := by
  unfold add
  rw [bitMask_eq h, ok_bind]
  cases op <;> rfl

theorem exists_add_eq_ok (m : PauliMasks) (qubit : Qubit) (op : Pauli) :
    (∃ m', m.add qubit op = .ok m') ↔ qubit.index < 64 := by
  by_cases h : qubit.index < 64
  · exact iff_of_true ⟨_, add_eq h op⟩ h
  · refine iff_of_false ?_ h
    rintro ⟨m', hm⟩
    unfold add bitMask at hm
    rw [if_neg h] at hm
    cases hm

theorem testBit_foldl_set (ops : List (Qubit × Pauli)) (m : PauliMasks) (k : ℕ) :
    (ops.foldl (fun m op => m.set op.1 op.2) m).flip.testBit k = true ↔
      m.flip.testBit k = true ∨ ∃ op ∈ ops, op.2.flips = true ∧ op.1.index = k := by
  induction ops generalizing m with
  | nil => simp
  | cons op ops ih =>
    have hfirst : (m.set op.1 op.2).flip.testBit k = true ↔
        m.flip.testBit k = true ∨ (op.2.flips = true ∧ op.1.index = k) := by
      simp only [set]
      split
      next h => simp [h, Nat.testBit_or, Nat.testBit_two_pow]
      next h => simp [h]
    rw [List.foldl_cons, ih, hfirst, or_assoc, List.exists_mem_cons_iff]

end Statevector.PauliMasks

namespace PauliString

open Statevector

/-- The masks of a string. -/
def masks (p : PauliString) : PauliMasks := p.ops.foldl (fun m op => m.set op.1 op.2) {}

/-- Every listed qubit is in a word, and every flipped one among the first `n`. -/
def Readable (p : PauliString) (n : ℕ) : Prop :=
  ∀ op ∈ p.ops, op.1.index < 64 ∧ (op.2.flips = true → op.1.index < n)

instance (p : PauliString) (n : ℕ) : Decidable (p.Readable n) :=
  inferInstanceAs (Decidable (∀ op ∈ p.ops, _))

/-- The operators on the first `n` qubits. -/
def within (p : PauliString) (n : ℕ) : PauliString := ⟨p.ops.filter fun op => op.1.index < n⟩

theorem pauliMasks_eq {p : PauliString} (h : ∀ op ∈ p.ops, op.1.index < 64) :
    pauliMasks p = .ok p.masks :=
  foldlM_eq_foldl (fun _ op hop => PauliMasks.add_eq (h op hop) op.2) _

theorem exists_pauliMasks_eq_ok {p : PauliString} :
    (∃ m, pauliMasks p = .ok m) ↔ ∀ op ∈ p.ops, op.1.index < 64 :=
  exists_foldlM_eq_ok_iff (fun m op _ => m.exists_add_eq_ok op.1 op.2) _

theorem testBit_flip (p : PauliString) (k : ℕ) :
    p.masks.flip.testBit k = true ↔ ∃ op ∈ p.ops, op.2.flips = true ∧ op.1.index = k := by
  rw [masks, PauliMasks.testBit_foldl_set, Nat.zero_testBit, Bool.false_eq_true, false_or]

theorem flip_lt_iff {p : PauliString} {n : ℕ} :
    p.masks.flip < 2 ^ n ↔ ∀ op ∈ p.ops, op.2.flips = true → op.1.index < n := by
  constructor
  · intro h op hop hflips
    by_contra hge
    have hset := (p.testBit_flip op.1.index).2 ⟨op, hop, hflips, rfl⟩
    have hclear := BasisIndex.testBit_eq_false_of_lt h (Nat.le_of_not_lt hge)
    exact Bool.false_ne_true (hclear.symm.trans hset)
  · intro h
    apply Nat.lt_pow_two_of_testBit
    intro k hk
    rw [← Bool.not_eq_true]
    intro hset
    obtain ⟨op, hop, hflips, hindex⟩ := (p.testBit_flip k).1 hset
    have hlt := h op hop hflips
    omega

/-- Masks that agree on the first `n` qubits. -/
structure Agree (n : ℕ) (m m' : PauliMasks) : Prop where
  flip : m.flip = m'.flip
  numY : m.numY = m'.numY
  sign : ∀ k < n, m.sign.testBit k = m'.sign.testBit k

theorem Agree.set {n : ℕ} {m m' : PauliMasks} (h : Agree n m m') (qubit : Qubit) (op : Pauli) :
    Agree n (m.set qubit op) (m'.set qubit op) := by
  constructor
  · simp only [PauliMasks.set, h.flip]
  · simp only [PauliMasks.set, h.numY]
  · intro k hk
    simp only [PauliMasks.set]
    split
    · simp only [Nat.testBit_or, h.sign k hk]
    · exact h.sign k hk

theorem Agree.set_left {n : ℕ} {m m' : PauliMasks} (h : Agree n m m') {qubit : Qubit} {op : Pauli}
    (hflips : op.flips = false) (hindex : n ≤ qubit.index) : Agree n (m.set qubit op) m' := by
  have hy : op ≠ .y := by
    rintro rfl
    cases hflips
  constructor
  · simp only [PauliMasks.set, hflips]
    exact h.flip
  · simp only [PauliMasks.set, hy]
    exact h.numY
  · intro k hk
    have hne : qubit.index ≠ k := by omega
    simp only [PauliMasks.set]
    split
    · simp only [Nat.testBit_or, Nat.testBit_two_pow, hne, decide_false, Bool.or_false, h.sign k hk]
    · exact h.sign k hk

theorem agree_foldl_within {n : ℕ} {ops : List (Qubit × Pauli)}
    (h : ∀ op ∈ ops, op.2.flips = true → op.1.index < n) {m m' : PauliMasks} (hm : Agree n m m') :
    Agree n (ops.foldl (fun m op => m.set op.1 op.2) m)
      ((ops.filter fun op => op.1.index < n).foldl (fun m op => m.set op.1 op.2) m') := by
  induction ops generalizing m m' with
  | nil => exact hm
  | cons op ops ih =>
    obtain ⟨hfirst, hrest⟩ := List.forall_mem_cons.1 h
    rw [List.filter_cons, List.foldl_cons]
    by_cases hindex : op.1.index < n
    · rw [if_pos (by simpa using hindex), List.foldl_cons]
      exact ih hrest (hm.set op.1 op.2)
    · rw [if_neg (by simpa using hindex)]
      refine ih hrest (hm.set_left ?_ (Nat.le_of_not_lt hindex))
      exact Bool.eq_false_iff.2 fun hflips => hindex (hfirst hflips)

theorem agree_within {p : PauliString} {n : ℕ} (h : p.Readable n) :
    Agree n p.masks (p.within n).masks :=
  agree_foldl_within (fun op hop => (h op hop).2) ⟨rfl, rfl, fun _ _ => rfl⟩

end PauliString

namespace Observable

variable {R : Type}

def Readable (o : Observable R) (n : ℕ) : Prop := ∀ term ∈ o.terms, term.pauli.Readable n

instance (o : Observable R) (n : ℕ) : Decidable (o.Readable n) :=
  inferInstanceAs (Decidable (∀ term ∈ o.terms, term.pauli.Readable n))

/-- The observable without the operators outside the first `n` qubits. -/
def within (o : Observable R) (n : ℕ) : Observable R :=
  ⟨o.terms.map fun term => { term with pauli := term.pauli.within n }⟩

end Observable

namespace Statevector

variable {R : Type} [Scalar R] {s : Statevector R} {n : ℕ}

theorem exists_maskedSum_eq_ok (hs : s.HasWidth n) (m : PauliMasks) :
    (∃ v, s.maskedSum m = .ok v) ↔ m.flip < 2 ^ n := by
  have hstep : (∃ v, s.maskedSum m = .ok v) ↔ ∀ i ∈ List.range s.size, i ^^^ m.flip < 2 ^ n := by
    refine exists_foldlM_eq_ok_iff (fun acc i hi => ?_) _
    have hi : i < s.amplitudes.size := List.mem_range.1 hi
    rw [elementAt_eq hi, ← hs.size_eq]
    by_cases hpartner : i ^^^ m.flip < s.amplitudes.size
    · rw [elementAt_eq hpartner]
      exact iff_of_true ⟨_, rfl⟩ hpartner
    · rw [elementAt_eq_error (Nat.le_of_not_lt hpartner)]
      exact iff_of_false (by rintro ⟨v, ⟨⟩⟩) hpartner
  rw [hstep]
  constructor
  · intro h
    -- index 0 leads to the flip mask itself
    have hzero : 0 < s.size := by
      unfold size
      rw [hs.size_eq]
      positivity
    simpa using h 0 (List.mem_range.2 hzero)
  · intro h i hi
    have hi : i < 2 ^ n := hs.size_eq ▸ List.mem_range.1 hi
    exact Nat.xor_lt_two_pow hi h

theorem maskedSum_congr (hs : s.HasWidth n) {m m' : PauliMasks} (h : PauliString.Agree n m m') :
    s.maskedSum m = s.maskedSum m' := by
  refine foldlM_congr (fun i hi acc => ?_) _
  have hi : i < 2 ^ n := hs.size_eq ▸ List.mem_range.1 hi
  have hsign : i &&& m.sign = i &&& m'.sign := by
    apply Nat.eq_of_testBit_eq
    intro k
    rw [Nat.testBit_and, Nat.testBit_and]
    by_cases hk : k < n
    · rw [h.sign k hk]
    · rw [BasisIndex.testBit_eq_false_of_lt hi (Nat.le_of_not_lt hk), Bool.false_and,
        Bool.false_and]
  rw [h.flip, hsign]

theorem exists_termExpectation_eq_ok (hs : s.HasWidth n) (term : ObservableTerm R) :
    (∃ v, s.termExpectation term = .ok v) ↔ term.pauli.Readable n := by
  constructor
  · rintro ⟨v, h⟩
    obtain ⟨m, hm, h⟩ := bind_eq_ok.1 h
    obtain ⟨value, hvalue, -⟩ := bind_eq_ok.1 h
    have hwords := PauliString.exists_pauliMasks_eq_ok.1 ⟨m, hm⟩
    rw [PauliString.pauliMasks_eq hwords] at hm
    cases hm
    have hflip := (exists_maskedSum_eq_ok hs _).1 ⟨value, hvalue⟩
    exact fun op hop => ⟨hwords op hop, PauliString.flip_lt_iff.1 hflip op hop⟩
  · intro h
    have hflip := PauliString.flip_lt_iff.2 fun op hop => (h op hop).2
    obtain ⟨value, hvalue⟩ := (exists_maskedSum_eq_ok hs _).2 hflip
    have hmasks := PauliString.pauliMasks_eq fun op hop => (h op hop).1
    exact ⟨_, bind_eq_ok.2 ⟨_, hmasks, bind_eq_ok.2 ⟨value, hvalue, rfl⟩⟩⟩

/-- An observable has a value on a register exactly if it is readable. -/
theorem exists_expectation_eq_ok (hs : s.HasWidth n) (o : Observable R) :
    (∃ v, s.expectation o = .ok v) ↔ o.Readable n := by
  refine exists_foldlM_eq_ok_iff (fun acc term _ => ?_) _
  rw [← exists_termExpectation_eq_ok hs term]
  constructor
  · rintro ⟨v, h⟩
    obtain ⟨value, hvalue, -⟩ := bind_eq_ok.1 h
    exact ⟨value, hvalue⟩
  · rintro ⟨value, hvalue⟩
    exact ⟨_, bind_eq_ok.2 ⟨value, hvalue, rfl⟩⟩

theorem termExpectation_within (hs : s.HasWidth n) {term : ObservableTerm R}
    (h : term.pauli.Readable n) :
    s.termExpectation { term with pauli := term.pauli.within n } = s.termExpectation term := by
  have hagree := PauliString.agree_within h
  have hwithin : ∀ op ∈ (term.pauli.within n).ops, op.1.index < 64 := fun op hop =>
    (h op (List.mem_of_mem_filter hop)).1
  unfold termExpectation
  rw [PauliString.pauliMasks_eq hwithin,
    PauliString.pauliMasks_eq fun op hop => (h op hop).1, ok_bind, ok_bind,
    maskedSum_congr hs hagree, hagree.numY]

/-- The value of a readable observable owes nothing to the operators outside the register. -/
theorem expectation_within (hs : s.HasWidth n) {o : Observable R} (h : o.Readable n) :
    s.expectation (o.within n) = s.expectation o := by
  unfold expectation Observable.within
  rw [List.foldlM_map]
  refine foldlM_congr (fun term hterm acc => ?_) _
  rw [termExpectation_within hs (h term hterm)]

end Statevector

end QuantumSim
