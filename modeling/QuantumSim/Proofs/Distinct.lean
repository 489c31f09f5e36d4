import Mathlib
import QuantumSim.Circuit.Analysis
import QuantumSim.Proofs.Validation

/-!
Lists without repetitions. Sorting and dropping repeated neighbours keeps every member once.
-/
namespace QuantumSim

section EraseReps

variable {α : Type} [DecidableEq α]

theorem mem_eraseReps_loop {a x : α} {l acc : List α} :
    x ∈ List.eraseRepsBy.loop (· == ·) a l acc ↔ x = a ∨ x ∈ l ∨ x ∈ acc := by
  induction l generalizing a acc with
  | nil => simp [List.eraseRepsBy.loop, or_comm]
  | cons b l ih =>
    rw [List.eraseRepsBy.loop]
    split
    next h =>
      rw [ih, List.mem_cons, beq_iff_eq.1 h]
      tauto
    next h =>
      rw [ih, List.mem_cons, List.mem_cons]
      tauto

theorem mem_eraseReps {x : α} {l : List α} : x ∈ l.eraseReps ↔ x ∈ l := by
  cases l with
  | nil => simp [List.eraseReps, List.eraseRepsBy]
  | cons a l =>
    rw [List.eraseReps, List.eraseRepsBy, mem_eraseReps_loop]
    simp

theorem nodup_eraseReps_loop {r : α → α → Prop} (hanti : ∀ a b, r a b → r b a → a = b) {a : α}
    {l acc : List α} (hsorted : (a :: l).Pairwise r) (hacc : acc.Nodup)
    (hapart : ∀ b ∈ acc, b ∉ a :: l) : (List.eraseRepsBy.loop (· == ·) a l acc).Nodup := by
  induction l generalizing a acc with
  | nil =>
    rw [List.eraseRepsBy.loop, List.nodup_reverse, List.nodup_cons]
    exact ⟨fun h => hapart a h (by simp), hacc⟩
  | cons b l ih =>
    obtain ⟨hfirst, hrest⟩ := List.pairwise_cons.1 hsorted
    rw [List.eraseRepsBy.loop]
    split
    next h =>
      have hab : a = b := beq_iff_eq.1 h
      exact ih (hab ▸ hrest) hacc fun c hc hmem => hapart c hc (by simp_all)
    next h =>
      have hab : a ≠ b := fun hab => by simp [hab] at h
      refine ih hrest (List.nodup_cons.2 ⟨fun h => hapart a h (by simp), hacc⟩) fun c hc hmem => ?_
      rcases List.mem_cons.1 hc with rfl | hc
      · rcases List.mem_cons.1 hmem with rfl | hmem
        · exact hab rfl
        -- equal members of a sorted list have only equal ones between them
        · exact hab (hanti c b (hfirst b (by simp)) ((List.pairwise_cons.1 hrest).1 c hmem))
      · exact hapart c hc (List.mem_cons_of_mem _ hmem)

theorem eraseReps_sublist_loop (a : α) (l acc : List α) :
    (List.eraseRepsBy.loop (· == ·) a l acc).Sublist (acc.reverse ++ a :: l) := by
  induction l generalizing a acc with
  | nil =>
    rw [List.eraseRepsBy.loop, List.reverse_cons]
  | cons b l ih =>
    rw [List.eraseRepsBy.loop]
    split
    · have hdrop : (a :: l).Sublist (a :: b :: l) := (List.sublist_cons_self b l).cons_cons a
      exact (ih a acc).trans ((List.Sublist.refl _).append hdrop)
    · simpa using ih b (a :: acc)

theorem eraseReps_sublist (l : List α) : l.eraseReps.Sublist l := by
  cases l with
  | nil => exact List.Sublist.refl _
  | cons a l => exact eraseReps_sublist_loop a l []

theorem nodup_eraseReps {r : α → α → Prop} (hanti : ∀ a b, r a b → r b a → a = b) {l : List α}
    (hsorted : l.Pairwise r) : l.eraseReps.Nodup := by
  cases l with
  | nil => simp [List.eraseReps, List.eraseRepsBy]
  | cons a l => exact nodup_eraseReps_loop hanti hsorted List.nodup_nil (by simp)

end EraseReps

/-- Sorting by a word puts the words in order. -/
theorem pairwise_mergeSort_word {α : Type} (key : α → UInt32) (l : List α) :
    (l.mergeSort fun a b => decide (key a ≤ key b)).Pairwise fun a b => key a ≤ key b := by
  have hsorted : (l.mergeSort fun a b => decide (key a ≤ key b)).Pairwise
      fun a b => decide (key a ≤ key b) = true := by
    refine List.pairwise_mergeSort (fun a b c hab hbc => ?_) (fun a b => ?_) l
    · simp only [decide_eq_true_eq] at *
      exact UInt32.le_trans hab hbc
    · simpa using UInt32.le_total (key a) (key b)
  exact hsorted.imp of_decide_eq_true

namespace Circuit

theorem mem_distinctQubits {q : Qubit} {qs : List Qubit} : q ∈ distinctQubits qs ↔ q ∈ qs := by
  unfold distinctQubits
  rw [mem_eraseReps, List.mem_mergeSort]

theorem nodup_distinctQubits (qs : List Qubit) : (distinctQubits qs).Nodup := by
  refine nodup_eraseReps (fun a b hab hba => ?_) (pairwise_mergeSort_word Qubit.id qs)
  rcases a with ⟨a⟩
  rcases b with ⟨b⟩
  exact congrArg Qubit.mk (UInt32.le_antisymm hab hba)

theorem pairwise_distinctQubits (qs : List Qubit) :
    (distinctQubits qs).Pairwise fun a b => a.id < b.id := by
  have hsorted := (pairwise_mergeSort_word Qubit.id qs).sublist (eraseReps_sublist _)
  refine (hsorted.and (nodup_distinctQubits qs)).imp fun {a b} h => ?_
  refine UInt32.lt_of_le_of_ne h.1 fun heq => h.2 ?_
  rcases a with ⟨a⟩
  rcases b with ⟨b⟩
  exact congrArg Qubit.mk heq

/-- Distinct qubits of a register are no more than the register has. -/
theorem length_distinctQubits_le {qs : List Qubit} {n : ℕ} (h : ∀ q ∈ qs, q.index < n) :
    (distinctQubits qs).length ≤ n :=
  length_le_of_nodup (nodup_distinctQubits qs) fun q hq => h q (mem_distinctQubits.1 hq)

/-- The qubits of a register stand in their order, each once. -/
theorem distinctQubits_range (n : UInt32) : distinctQubits (Qubit.range n) = Qubit.range n := by
  have hperm : (distinctQubits (Qubit.range n)).Perm (Qubit.range n) :=
    (List.perm_ext_iff_of_nodup (nodup_distinctQubits _) (Qubit.nodup_range n)).2 fun q =>
      mem_distinctQubits
  have hsorted : (Qubit.range n).Pairwise fun a b => a.id < b.id := by
    have hrange : ((Qubit.range n).map Qubit.index).Pairwise (· < ·) := by
      rw [Qubit.map_index_range]
      exact List.pairwise_lt_range
    exact (List.pairwise_map.1 hrange).imp UInt32.lt_iff_toNat_lt.2
  exact hperm.eq_of_pairwise (fun a b _ _ hab hba => absurd hba (UInt32.lt_asymm hab))
    (pairwise_distinctQubits _) hsorted

end Circuit

end QuantumSim
