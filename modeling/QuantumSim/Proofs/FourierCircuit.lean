import Mathlib
import QuantumSim.Circuit.Family
import QuantumSim.Proofs.Composition

/-!
The instructions of the Fourier transform. Its loops append a list that can be written down: for
every qubit a Hadamard gate and the turns by the qubits above it, then the swaps that reverse the
register. The angles are divided by powers of two that are made as 32-bit words.
-/
namespace QuantumSim

namespace Qubit

theorem index_toUInt32 {i : ℕ} (hi : i < 2 ^ 32) : Qubit.index ⟨i.toUInt32⟩ = i :=
  UInt32.toNat_ofNat_of_lt' hi

theorem toUInt32_ne {i j : ℕ} (hi : i < 2 ^ 32) (hj : j < 2 ^ 32) (hne : i ≠ j) :
    (⟨i.toUInt32⟩ : Qubit) ≠ ⟨j.toUInt32⟩ := by
  intro h
  have hindex := congrArg Qubit.index h
  rw [index_toUInt32 hi, index_toUInt32 hj] at hindex
  exact hne hindex

end Qubit

namespace GateSymbol

theorem arity_h : GateSymbol.h.arity = 0 := rfl

theorem arity_swap : GateSymbol.swap.arity = 0 := rfl

theorem arity_cx : GateSymbol.cx.arity = 0 := rfl

theorem arity_cp : GateSymbol.cp.arity = 1 := rfl

end GateSymbol

namespace Circuit

variable {R : Type}

section Loops

theorem appendAll_singleton (c : Circuit R) (inst : Instruction R) :
    c.appendAll [inst] = c.append inst := by
  unfold appendAll
  cases c.append inst with
  | error e => rfl
  | ok c' => rfl

theorem appendAll_append (c : Circuit R) (insts insts' : List (Instruction R)) :
    c.appendAll (insts ++ insts') = c.appendAll insts >>= fun c => c.appendAll insts' := by
  induction insts generalizing c with
  | nil => rfl
  | cons inst insts ih =>
    rw [List.cons_append, appendAll, appendAll]
    cases c.append inst with
    | error e => rfl
    | ok c' => exact ih c'

/-- A loop whose steps append instructions appends all of them. -/
theorem build_forM {α : Type} {step : α → Builder R PUnit} {insts : α → List (Instruction R)}
    {l : List α} (h : ∀ a ∈ l, ∀ c : Circuit R, c.build (step a) = c.appendAll (insts a))
    (c : Circuit R) : c.build (l.forM step) = c.appendAll (l.flatMap insts) := by
  induction l generalizing c with
  | nil => rfl
  | cons a l ih =>
    obtain ⟨hfirst, hrest⟩ := List.forall_mem_cons.1 h
    rw [List.forM, build_seq, hfirst, List.flatMap_cons, appendAll_append]
    cases c.appendAll (insts a) with
    | error e => rfl
    | ok c' => exact ih hrest c'

/-- Instructions that fit are appended. -/
theorem appendAll_eq_ok {c : Circuit R} {insts : List (Instruction R)}
    (h : ∀ inst ∈ insts, c.Fits inst) :
    c.appendAll insts = .ok { c with instructions := c.instructions ++ insts } := by
  rw [appendAll_eq, (c.checkAll_eq_ok insts).2 h]
  rfl

/-- A gate of the fixed set fits on distinct qubits of the register. -/
theorem fits_standard {c : Circuit R} {g : StandardGate (Parameter R)} {qubits : List Qubit}
    (hlen : qubits.length = g.numQubits.toNat) (hnodup : qubits.Nodup)
    (hrange : ∀ q ∈ qubits, q.index < c.numQubits.toNat) : c.Fits (.standard g qubits) where
  gate g' hg' := by
    cases hg'
    exact hlen
  measure := nofun
  nodup := by
    show (qubits ++ []).Nodup
    rwa [List.append_nil]
  qubits q hq := by
    have hq : q ∈ qubits ++ [] := hq
    rw [List.append_nil] at hq
    exact hrange q hq
  clbits := nofun

/-- A gate of two operands fits on two positions of the register. -/
theorem fits_pair {c : Circuit R} {g : StandardGate (Parameter R)} (hg : g.numQubits.toNat = 2)
    {i j : ℕ} (hi : i < c.numQubits.toNat) (hj : j < c.numQubits.toNat) (hne : i ≠ j) :
    c.Fits (.standard g [⟨i.toUInt32⟩, ⟨j.toUInt32⟩]) := by
  have hi' : i < 2 ^ 32 := hi.trans c.numQubits.toNat_lt
  have hj' : j < 2 ^ 32 := hj.trans c.numQubits.toNat_lt
  apply fits_standard
  · exact hg.symm
  · rw [List.nodup_cons, List.mem_singleton]
    exact ⟨Qubit.toUInt32_ne hi' hj' hne, List.nodup_singleton _⟩
  · rw [List.forall_mem_cons, List.forall_mem_singleton, Qubit.index_toUInt32 hi',
      Qubit.index_toUInt32 hj']
    exact ⟨hi, hj⟩

end Loops

variable [Scalar R]

/-- Qubit `i` is turned by qubit `j` above it. -/
def fourierTurn (i j : ℕ) : Instruction R :=
  .standard (.rotation .cp (.value (Scalar.pi / Scalar.ofNat (1 <<< (j - i)))) GateSymbol.arity_cp)
    [⟨j.toUInt32⟩, ⟨i.toUInt32⟩]

/-- What the transform does for qubit `i` of a register. -/
def fourierStage (n i : ℕ) : List (Instruction R) :=
  [.standard (.plain .h GateSymbol.arity_h) [⟨i.toUInt32⟩]] ++
    (List.range (n - (i + 1))).flatMap fun k => [fourierTurn i (i + 1 + k)]

/-- The swaps that reverse a register. -/
def fourierSwaps (n : ℕ) : List (Instruction R) :=
  (List.range (n / 2)).flatMap fun i =>
    [.standard (.plain .swap GateSymbol.arity_swap) [⟨i.toUInt32⟩, ⟨(n - 1 - i).toUInt32⟩]]

def fourierInstructions (n : ℕ) : List (Instruction R) :=
  (List.range n).flatMap (fourierStage n) ++ fourierSwaps n

theorem build_appendTurn {i j : ℕ} (h : j - i < 32) (c : Circuit R) :
    c.build (appendTurn i j) = c.append (fourierTurn i j) := by
  rw [appendTurn, build_lift_bind, powerWord, if_pos h]
  rfl

/-- A turn between qubits at a distance of 32 or more has no angle. -/
theorem build_appendTurn_eq_fault {i j : ℕ} (h : 32 ≤ j - i) (c : Circuit R) :
    c.build (appendTurn i j) = .error (.fault .shift) := by
  rw [appendTurn, build_lift_bind, powerWord, if_neg (Nat.not_lt.2 h)]
  rfl

theorem build_turns {i count : ℕ} (h : count < 32) (c : Circuit R) :
    c.build ((List.range' (i + 1) count).forM (appendTurn i)) =
      c.appendAll ((List.range count).flatMap fun k => [fourierTurn i (i + 1 + k)]) := by
  rw [List.range'_eq_map_range, List.forM_eq_forM, List.forM_map]
  apply build_forM
  intro k hk c
  have hk := List.mem_range.1 hk
  rw [build_appendTurn (by omega), appendAll_singleton]

/-- On up to 32 qubits the transform appends its instructions to an empty circuit. -/
theorem qft_eq_appendAll {n : UInt32} (hpos : 1 ≤ n.toNat) (hn : n.toNat ≤ 32) :
    (qft n : Except (CircuitError R) (Circuit R)) =
      (withSize "qft" n 0).appendAll (fourierInstructions n.toNat) := by
  have hne : n ≠ 0 := by
    rintro rfl
    exact absurd hpos (by decide)
  have hstages (c : Circuit R) : c.build ((List.range n.toNat).forM fun i => do
      Builder.h ⟨i.toUInt32⟩
      fourierTurns n i) = c.appendAll ((List.range n.toNat).flatMap (fourierStage n.toNat)) := by
    apply build_forM
    intro i hi c
    have hi := List.mem_range.1 hi
    rw [build_seq, fourierStage, appendAll_append, appendAll_singleton]
    apply bind_congr
    intro c
    exact build_turns (by omega) c
  have hswaps (c : Circuit R) : c.build ((List.range (n.toNat / 2)).forM fun i =>
      Builder.swap ⟨i.toUInt32⟩ ⟨(n.toNat - 1 - i).toUInt32⟩) =
        c.appendAll (fourierSwaps n.toNat) := by
    apply build_forM
    intro i _ c
    exact (appendAll_singleton c _).symm
  unfold qft
  rw [if_neg hne, build_seq, hstages, fourierInstructions, appendAll_append]
  simp only [hswaps]

theorem fits_fourierTurn {c : Circuit R} {i j : ℕ} (hij : i < j) (hj : j < c.numQubits.toNat) :
    c.Fits (fourierTurn i j) :=
  fits_pair rfl hj (hij.trans hj) hij.ne'

theorem fits_fourierInstructions {c : Circuit R} :
    ∀ inst ∈ fourierInstructions c.numQubits.toNat, c.Fits inst := by
  intro inst hinst
  rcases List.mem_append.1 hinst with hinst | hinst
  · obtain ⟨i, hi, hinst⟩ := List.mem_flatMap.1 hinst
    have hi := List.mem_range.1 hi
    rcases List.mem_append.1 hinst with hinst | hinst
    · obtain rfl := List.mem_singleton.1 hinst
      apply fits_standard rfl (List.nodup_singleton _)
      rwa [List.forall_mem_singleton, Qubit.index_toUInt32 (hi.trans c.numQubits.toNat_lt)]
    · obtain ⟨k, hk, hinst⟩ := List.mem_flatMap.1 hinst
      have hk := List.mem_range.1 hk
      obtain rfl := List.mem_singleton.1 hinst
      exact fits_fourierTurn (by omega) (by omega)
  · obtain ⟨i, hi, hinst⟩ := List.mem_flatMap.1 hinst
    have hi := List.mem_range.1 hi
    obtain rfl := List.mem_singleton.1 hinst
    exact fits_pair rfl (by omega) (by omega) (by omega)

theorem qft_eq_ok {n : UInt32} (hpos : 1 ≤ n.toNat) (hn : n.toNat ≤ 32) :
    (qft n : Except (CircuitError R) (Circuit R)) =
      .ok ⟨"qft", n, 0, fourierInstructions n.toNat⟩ :=
  (qft_eq_appendAll hpos hn).trans
    (appendAll_eq_ok (fits_fourierInstructions (c := withSize "qft" n 0)))

/-- The turns of qubit 0 stop at the first one that is too far away. -/
theorem fourierTurns_eq_fault {n : UInt32} (hn : 33 ≤ n.toNat) {c : Circuit R}
    (hc : c.numQubits = n) : c.build (fourierTurns n 0) = .error (.fault .shift) := by
  obtain ⟨far, hfar⟩ := Nat.exists_eq_add_of_le hn
  have hcount : n.toNat - (0 + 1) = 31 + (far + 1) := by omega
  have hsplit : List.range' (0 + 1) (n.toNat - (0 + 1)) =
      List.range' (0 + 1) 31 ++ 32 :: List.range' 33 far := by
    rw [hcount, ← List.range'_append_1]
    rfl
  have hnear : ∀ inst ∈ (List.range 31).flatMap fun k => [fourierTurn 0 (0 + 1 + k)],
      c.Fits (inst : Instruction R) := by
    intro inst hinst
    obtain ⟨k, hk, hinst⟩ := List.mem_flatMap.1 hinst
    have hk := List.mem_range.1 hk
    obtain rfl := List.mem_singleton.1 hinst
    exact fits_fourierTurn (by omega) (by rw [hc]; omega)
  have hbefore := build_turns (i := 0) (by omega : 31 < 32) c
  rw [appendAll_eq_ok hnear] at hbefore
  rw [fourierTurns, hsplit, List.forM_eq_forM, List.forM_append, List.forM_cons]
  rw [build_seq, ← List.forM_eq_forM, hbefore, ok_bind, build_seq,
    build_appendTurn_eq_fault le_rfl]
  rfl

/-- On more than 32 qubits there is no transform. -/
theorem qft_eq_fault {n : UInt32} (hn : 33 ≤ n.toNat) :
    (qft n : Except (CircuitError R) (Circuit R)) = .error (.fault .shift) := by
  have hne : n ≠ 0 := by
    rintro rfl
    exact absurd hn (by decide)
  have hfirst : (withSize "qft" n 0 : Circuit R).Fits
      (.standard (.plain .h) [⟨Nat.toUInt32 0⟩]) := by
    apply fits_standard rfl (List.nodup_singleton _)
    rw [List.forall_mem_singleton]
    exact (Nat.succ_pos 32).trans_le hn
  have hstage : (withSize "qft" n 0 : Circuit R).build (do
      Builder.h ⟨Nat.toUInt32 0⟩
      fourierTurns n 0) = .error (.fault .shift) := by
    have hh : (withSize "qft" n 0 : Circuit R).build (.h ⟨Nat.toUInt32 0⟩) = _ :=
      append_eq_ok.2 ⟨hfirst, rfl⟩
    rw [build_seq, hh, ok_bind]
    exact fourierTurns_eq_fault hn rfl
  have hrange : List.range n.toNat = 0 :: List.range' 1 (n.toNat - 1) := by
    obtain ⟨m, hm⟩ : ∃ m, n.toNat = m + 1 := ⟨n.toNat - 1, by omega⟩
    rw [hm, List.range_eq_range']
    rfl
  unfold qft
  rw [if_neg hne, hrange, List.forM, build_seq, build_seq, hstage]
  rfl

end Circuit

end QuantumSim
