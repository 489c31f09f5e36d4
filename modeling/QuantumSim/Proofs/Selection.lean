import Mathlib
import QuantumSim.State
import QuantumSim.Proofs.Basis
import QuantumSim.Proofs.Validation

/-!
Which indices a gate selects. Controls are folded into a mask and a value; on distinct qubits the
mask selects exactly the indices on which every control holds, and bits outside the mask do not
matter.
-/
namespace QuantumSim
open BasisIndex

/-- An index on which the leading operands are one and the extra controls fire. -/
def Selected (leading : List Qubit) (controls : List Control) (i : ℕ) : Prop :=
  (∀ q ∈ leading, i.testBit q.index = true) ∧
    ∀ c ∈ controls, c.firesOn (i.testBit c.qubit.index) = true

instance (leading : List Qubit) (controls : List Control) :
    DecidablePred (Selected leading controls) :=
  fun _ => inferInstanceAs (Decidable (_ ∧ _))

/-- Only the bits at controls decide whether an index is selected. -/
theorem selected_congr {leading : List Qubit} {controls : List Control} {i j : ℕ}
    (h : ∀ q ∈ leading ++ controls.map (·.qubit), i.testBit q.index = j.testBit q.index) :
    Selected leading controls i ↔ Selected leading controls j := by
  refine and_congr (forall₂_congr fun q hq => ?_) (forall₂_congr fun c hc => ?_)
  · rw [h q (List.mem_append_left _ hq)]
  · rw [h c.qubit (List.mem_append_right _ (List.mem_map_of_mem hc))]

namespace ControlMask

/-- The mask of a list of bits with the values that they must have. -/
structure Represents (c : ControlMask) (conds : List (ℕ × Bool)) : Prop where
  mask : ∀ p, c.mask.testBit p = true ↔ p ∈ conds.map (·.1)
  value : ∀ p, c.value.testBit p = true → c.mask.testBit p = true
  fires : ∀ i, c.fires i = true ↔ ∀ e ∈ conds, i.testBit e.1 = e.2

theorem fires_iff (c : ControlMask) (i : ℕ) :
    c.fires i = true ↔ ∀ p, (i.testBit p && c.mask.testBit p) = c.value.testBit p := by
  unfold fires
  rw [beq_iff_eq]
  constructor
  · intro h p
    rw [← h, Nat.testBit_and]
  · intro h
    apply Nat.eq_of_testBit_eq
    intro p
    rw [Nat.testBit_and, h p]

theorem represents_nil : Represents {} [] where
  mask p := by simp
  value p h := by simp at h
  fires i := by simp [fires]

/-- A condition on a fresh bit is tested beside the others. -/
theorem fires_withBit {c : ControlMask} {q : ℕ} (hmask : c.mask.testBit q = false)
    (hvalue : c.value.testBit q = false) (b : Bool) (i : ℕ) :
    ControlMask.fires ⟨c.mask ||| 2 ^ q, if b then c.value ||| 2 ^ q else c.value⟩ i = true ↔
      c.fires i = true ∧ i.testBit q = b := by
  rw [fires_iff, fires_iff]
  constructor
  · intro hall
    refine ⟨fun p => ?_, ?_⟩
    · by_cases hpq : p = q
      · simp [hpq, hmask, hvalue]
      · have := hall p
        cases b <;> simpa [Nat.testBit_or, Ne.symm hpq] using this
    · have := hall q
      cases b <;> simpa [Nat.testBit_or, hvalue] using this
  · rintro ⟨hall, hb⟩ p
    by_cases hpq : p = q
    · subst hpq
      cases b <;> simp [Nat.testBit_or, hvalue, hb]
    · have := hall p
      cases b <;> simpa [Nat.testBit_or, Ne.symm hpq] using this

theorem Represents.add {c : ControlMask} {conds : List (ℕ × Bool)} (h : c.Represents conds) {q : ℕ}
    (hq : q ∉ conds.map (·.1)) (b : Bool) :
    Represents { mask := c.mask ||| 2 ^ q, value := if b then c.value ||| 2 ^ q else c.value }
      (conds ++ [(q, b)]) := by
  have hmask : c.mask.testBit q = false := by
    rw [← Bool.not_eq_true, h.mask]
    exact hq
  have hvalue : c.value.testBit q = false := by
    rw [← Bool.not_eq_true]
    intro hv
    rw [h.value q hv] at hmask
    simp at hmask
  constructor
  · intro p
    by_cases hpq : p = q
    · simp [hpq]
    · simpa [Nat.testBit_or, Nat.testBit_two_pow, hpq, Ne.symm hpq] using h.mask p
  · intro p hp
    by_cases hpq : p = q
    · simp [hpq]
    · have hp : c.value.testBit p = true := by
        cases b <;> simpa [Nat.testBit_or, Ne.symm hpq] using hp
      simp [Nat.testBit_or, h.value p hp]
  · intro i
    rw [fires_withBit hmask hvalue, h.fires]
    simp [or_imp, forall_and]

end ControlMask

namespace Statevector

variable {R : Type}

theorem position_eq {s : Statevector R} {q : Qubit} (h : q.index < s.numQubits) (gate : String) :
    s.position gate q = .ok q.index := if_pos h

/-- The bits that a gate tests, with the values on which it acts. -/
def conditions (leading : List Qubit) (controls : List Control) : List (ℕ × Bool) :=
  leading.map (fun q => (q.index, true)) ++
    controls.map fun c => (c.qubit.index, c.polarity == .positive)

theorem selected_iff_conditions (leading : List Qubit) (controls : List Control) (i : ℕ) :
    Selected leading controls i ↔ ∀ e ∈ conditions leading controls, i.testBit e.1 = e.2 := by
  have hfires (c : Control) : c.firesOn (i.testBit c.qubit.index) = true ↔
      i.testBit c.qubit.index = (c.polarity == .positive) := by
    have hneg : (Polarity.negative == Polarity.positive) = false := rfl
    cases hc : c.polarity <;> simp [Control.firesOn, hc, hneg]
  simp only [Selected, conditions, List.mem_append, or_imp, forall_and, List.forall_mem_map, hfires]

/-- One control after another, on qubits of the register that carry none yet. -/
theorem foldlM_addOne {s : Statevector R} (hn : s.numQubits ≤ 64) (gate : String) {α : Type}
    (qubit : α → Qubit) (onOne : α → Bool) {l : List α} {mask : ControlMask}
    {conds : List (ℕ × Bool)} (hmask : mask.Represents conds)
    (hrange : ∀ a ∈ l, (qubit a).index < s.numQubits)
    (hnodup : (conds.map (·.1) ++ l.map fun a => (qubit a).index).Nodup) :
    ∃ result : ControlMask,
      l.foldlM (fun (mask : ControlMask) a => (do
        SimulationError.ofChecked (mask.add (← s.position gate (qubit a)) (onOne a)) :
          Except (SimulationError R) ControlMask)) mask = .ok result ∧
        result.Represents (conds ++ l.map fun a => ((qubit a).index, onOne a)) := by
  induction l generalizing mask conds with
  | nil => exact ⟨mask, rfl, by simpa using hmask⟩
  | cons a l ih =>
    have ha := hrange a (by simp)
    have hfresh : (qubit a).index ∉ conds.map (·.1) := by
      intro h
      exact (List.nodup_append.1 hnodup).2.2 _ h _ (by simp) rfl
    obtain ⟨result, hresult, hrep⟩ := ih (hmask.add hfresh (onOne a))
      (fun b hb => hrange b (List.mem_cons_of_mem _ hb)) (by simpa using hnodup)
    refine ⟨result, ?_, by simpa using hrep⟩
    rw [List.foldlM_cons, position_eq ha, ok_bind, ControlMask.add, bitMask_eq (ha.trans_le hn)]
    exact hresult

/-- The condition that a gate on distinct qubits of the register tests. -/
theorem controlMask_eq {s : Statevector R} (hn : s.numQubits ≤ 64) (gate : String)
    {leading : List Qubit} {controls : List Control}
    (hrange : ∀ q ∈ leading ++ controls.map (·.qubit), q.index < s.numQubits)
    (hnodup : (leading ++ controls.map (·.qubit)).Nodup) :
    ∃ mask, s.controlMask gate leading controls = .ok mask ∧
      mask.Represents (conditions leading controls) := by
  have hnodup := hnodup.map Qubit.index_injective
  rw [List.map_append, List.map_map] at hnodup
  obtain ⟨first, hfirst, hrep⟩ :=
    foldlM_addOne hn gate id (fun _ => true) ControlMask.represents_nil
    (fun q hq => hrange q (List.mem_append_left _ hq)) (by simpa using hnodup.of_append_left)
  obtain ⟨mask, hmask, hrep⟩ :=
    foldlM_addOne hn gate Control.qubit (fun c => c.polarity == .positive)
    hrep (fun c hc => hrange _ (List.mem_append_right _ (List.mem_map_of_mem hc)))
    (by simpa [Function.comp_def] using hnodup)
  refine ⟨mask, ?_, by simpa [conditions] using hrep⟩
  unfold controlMask
  exact (congrArg (· >>= _) hfirst).trans hmask

end Statevector

end QuantumSim
