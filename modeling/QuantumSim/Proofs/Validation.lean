import Mathlib
import QuantumSim.Circuit
import QuantumSim.Proofs.Outcome

/-!
What it means that an instruction fits a circuit. Operand counts are compared as 32-bit words; since
the qubits are distinct members of the register, equal words are equal counts.
-/
namespace QuantumSim

theorem Qubit.index_injective : Function.Injective Qubit.index := by
  rintro ⟨a⟩ ⟨b⟩ h
  exact congrArg Qubit.mk (UInt32.toNat_inj.1 h)

theorem Qubit.map_index_range (n : UInt32) : (range n).map index = List.range n.toNat := by
  rw [range, List.map_map]
  refine (List.map_congr_left fun k hk => ?_).trans (List.map_id _)
  exact UInt32.toNat_ofNat_of_lt' ((List.mem_range.1 hk).trans n.toNat_lt)

theorem Qubit.index_lt_of_mem_range {n : UInt32} {q : Qubit} (h : q ∈ Qubit.range n) :
    q.index < n.toNat :=
  List.mem_range.1 (map_index_range n ▸ List.mem_map_of_mem h)

theorem Qubit.nodup_range (n : UInt32) : (range n).Nodup :=
  List.Nodup.of_map index (map_index_range n ▸ List.nodup_range)

namespace Circuit

variable {R : Type}

/-- An instruction whose operands and extra controls are distinct qubits of the register, as many as
its gate or measurement takes, and whose classical bits are in the register. -/
structure Fits (c : Circuit R) (inst : Instruction R) : Prop where
  gate : ∀ g, inst.operation = .gate g → inst.qubits.length = g.numQubits.toNat
  measure : inst.operation = .measure → inst.qubits.length = inst.clbits.length
  nodup : inst.allQubits.Nodup
  qubits : ∀ q ∈ inst.allQubits, q.index < c.numQubits.toNat
  clbits : ∀ b ∈ inst.clbits, b.index < c.numClbits.toNat

theorem checkQubits_eq_ok {n : UInt32} {gate : Option String} {seen qs : List Qubit} :
    checkQubits n gate seen qs = (.ok () : Except (CircuitError R) Unit) ↔
      qs.Nodup ∧ ∀ q ∈ qs, q.index < n.toNat ∧ q ∉ seen := by
  induction qs generalizing seen with
  | nil => simp [checkQubits]
  | cons q qs ih =>
    have hle : n ≤ q.id ↔ n.toNat ≤ q.index := UInt32.le_iff_toNat_le
    unfold checkQubits
    rw [List.nodup_cons, List.forall_mem_cons]
    split
    next h => simp [Nat.not_lt.2 (hle.1 h)]
    next h =>
      have hlt : q.index < n.toNat := Nat.lt_of_not_le fun h' => h (hle.2 h')
      split
      next hs => simp [hs]
      next hs =>
        rw [ih]
        constructor
        · rintro ⟨hnodup, hall⟩
          refine ⟨⟨fun hq => (hall q hq).2 (by simp), hnodup⟩, ⟨hlt, hs⟩, fun p hp => ?_⟩
          exact ⟨(hall p hp).1, fun h => (hall p hp).2 (List.mem_cons_of_mem _ h)⟩
        · rintro ⟨⟨hq, hnodup⟩, -, hall⟩
          refine ⟨hnodup, fun p hp => ⟨(hall p hp).1, ?_⟩⟩
          rw [List.mem_cons, not_or]
          exact ⟨fun h => hq (h ▸ hp), (hall p hp).2⟩

theorem checkClbits_eq_ok {n : UInt32} {bs : List Clbit} :
    checkClbits n bs = (.ok () : Except (CircuitError R) Unit) ↔ ∀ b ∈ bs, b.index < n.toNat := by
  induction bs with
  | nil => simp [checkClbits]
  | cons b bs ih =>
    have hle : n ≤ b.id ↔ n.toNat ≤ b.index := UInt32.le_iff_toNat_le
    unfold checkClbits
    rw [List.forall_mem_cons]
    split
    next h => simp [Nat.not_lt.2 (hle.1 h)]
    next h => simp [ih, Nat.lt_of_not_le fun h' => h (hle.2 h')]

/-- Distinct qubits of a register are no more than its size. -/
theorem length_le_of_nodup {qs : List Qubit} {n : ℕ} (hnodup : qs.Nodup)
    (hrange : ∀ q ∈ qs, q.index < n) : qs.length ≤ n := by
  have hsub : qs.map Qubit.index ⊆ List.range n := by
    intro i hi
    obtain ⟨q, hq, rfl⟩ := List.mem_map.1 hi
    exact List.mem_range.2 (hrange q hq)
  simpa using ((hnodup.map Qubit.index_injective).subperm hsub).length_le

theorem eq_toUInt32_iff {n : UInt32} {k : ℕ} (hk : k < UInt32.size) :
    n = k.toUInt32 ↔ k = n.toNat := by
  rw [← UInt32.toNat_inj, Nat.toUInt32_eq, UInt32.toNat_ofNat_of_lt' hk, eq_comm]

theorem checkCounts_eq_ok {inst : Instruction R} (hlen : inst.qubits.length < UInt32.size) :
    checkCounts inst = .ok () ↔
      (∀ g, inst.operation = .gate g → inst.qubits.length = g.numQubits.toNat) ∧
        (inst.operation = .measure → inst.qubits.length = inst.clbits.length) := by
  unfold checkCounts
  cases hop : inst.operation with
  | gate g => simp [eq_toUInt32_iff hlen]
  | measure => simp
  | reset => simp
  | barrier => simp

/-- Checking accepts exactly the instructions that fit. -/
theorem check_eq_ok (c : Circuit R) (inst : Instruction R) :
    c.check inst = .ok () ↔ c.Fits inst := by
  have hparts : c.check inst = .ok () ↔ checkCounts inst = .ok () ∧
      checkQubits c.numQubits (inst.gate?.map Gate.name) [] inst.allQubits =
        (.ok () : Except (CircuitError R) Unit) ∧
      checkClbits c.numClbits inst.clbits = (.ok () : Except (CircuitError R) Unit) := by
    simp only [check, bind_eq_ok]
    constructor
    · rintro ⟨_, h1, _, h2, h3⟩
      exact ⟨h1, h2, h3⟩
    · rintro ⟨h1, h2, h3⟩
      exact ⟨(), h1, (), h2, h3⟩
  rw [hparts, checkQubits_eq_ok, checkClbits_eq_ok]
  have hlen (hnodup : inst.allQubits.Nodup)
      (hrange : ∀ q ∈ inst.allQubits, q.index < c.numQubits.toNat) :
      inst.qubits.length < UInt32.size := by
    have hall := length_le_of_nodup hnodup hrange
    have hsub : inst.qubits.length ≤ inst.allQubits.length := by simp [Instruction.allQubits]
    exact (hsub.trans hall).trans_lt c.numQubits.toNat_lt
  constructor
  · rintro ⟨hcounts, ⟨hnodup, hall⟩, hclbits⟩
    have hrange := fun q hq => (hall q hq).1
    obtain ⟨hgate, hmeasure⟩ := (checkCounts_eq_ok (hlen hnodup hrange)).1 hcounts
    exact ⟨hgate, hmeasure, hnodup, hrange, hclbits⟩
  · rintro ⟨hgate, hmeasure, hnodup, hrange, hclbits⟩
    refine ⟨(checkCounts_eq_ok (hlen hnodup hrange)).2 ⟨hgate, hmeasure⟩, ⟨hnodup, fun q hq => ?_⟩,
      hclbits⟩
    exact ⟨hrange q hq, List.not_mem_nil⟩

theorem checkAll_eq_ok (c : Circuit R) (insts : List (Instruction R)) :
    c.checkAll insts = .ok () ↔ ∀ inst ∈ insts, c.Fits inst := by
  induction insts with
  | nil => simp [checkAll]
  | cons inst insts ih =>
    unfold checkAll
    rw [bind_eq_ok, List.forall_mem_cons, ← ih, ← check_eq_ok]
    exact ⟨fun ⟨(), h⟩ => h, fun h => ⟨(), h⟩⟩

/-- A circuit is valid if every instruction fits it. -/
theorem validate_eq_ok (c : Circuit R) :
    c.validate = .ok () ↔ ∀ inst ∈ c.instructions, c.Fits inst :=
  c.checkAll_eq_ok c.instructions

end Circuit

end QuantumSim
