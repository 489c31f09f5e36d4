import Mathlib
import QuantumSim.Proofs.Building

/-!
Adding one circuit to another. Composition compares the sizes of the registers and takes the
instructions over without a check. The sum of two circuits is therefore valid exactly if the
instructions could have been appended one by one, which is certain only for a circuit that has
passed its own check.
-/
namespace QuantumSim.Circuit

variable {R : Type}

/-- Appends instructions one by one, up to the first that does not fit. -/
def appendAll (c : Circuit R) : List (Instruction R) → Except (CircuitError R) (Circuit R)
  | [] => .ok c
  | inst :: rest => do (← c.append inst).appendAll rest

/-- A check looks at the registers of a circuit and not at its instructions. -/
theorem checkAll_of_instructions (c : Circuit R) (present insts : List (Instruction R)) :
    checkAll { c with instructions := present } insts = c.checkAll insts := by
  induction insts with
  | nil => rfl
  | cons inst insts ih =>
    unfold checkAll
    rw [ih]
    rfl

theorem checkAll_append (c : Circuit R) (insts insts' : List (Instruction R)) :
    c.checkAll (insts ++ insts') = c.checkAll insts >>= fun _ => c.checkAll insts' := by
  induction insts with
  | nil => rfl
  | cons inst insts ih =>
    rw [List.cons_append, checkAll, checkAll, ih]
    cases c.check inst with
    | error e => rfl
    | ok _ => rfl

/-- Appending one by one fails as the check of all of them does. -/
theorem appendAll_eq (c : Circuit R) (insts : List (Instruction R)) :
    c.appendAll insts =
      (c.checkAll insts).map fun _ => { c with instructions := c.instructions ++ insts } := by
  induction insts generalizing c with
  | nil => simp [appendAll, checkAll, Except.map]
  | cons inst insts ih =>
    rw [appendAll, append, build, Builder.run_append, checkAll]
    cases c.check inst with
    | error e => rfl
    | ok _ =>
      show appendAll { c with instructions := c.instructions ++ [inst] } insts = _
      rw [ih, checkAll_of_instructions]
      simp

theorem compose_eq_error {c other : Circuit R} {e : CircuitError R} :
    c.compose other = .error e ↔ (c.numQubits < other.numQubits ∨ c.numClbits < other.numClbits) ∧
      e = .incompatible other.size c.size := by
  rw [compose, build, Builder.run_compose]
  by_cases hlarge : c.numQubits < other.numQubits ∨ c.numClbits < other.numClbits
  · simp [hlarge, eq_comm]
  · simp [hlarge]

/-- The sum with a valid circuit is checked as the added instructions are. -/
theorem validate_of_compose {c c' other : Circuit R} (hvalid : c.validate = .ok ())
    (h : c.compose other = .ok c') : c'.validate = c.checkAll other.instructions := by
  obtain ⟨-, rfl⟩ := compose_eq_ok.1 h
  show checkAll { c with instructions := c.instructions ++ other.instructions }
    (c.instructions ++ other.instructions) = _
  have hpresent : c.checkAll c.instructions = .ok () := hvalid
  rw [checkAll_of_instructions, checkAll_append, hpresent, ok_bind]

/-- Adding any circuit to a valid one. It is refused exactly if a register is too small, and then
nothing has changed. A sum that is not refused is the valid circuit that appending the instructions
one by one yields, or it is invalid and appending would have been refused with the error that the
check of the sum finds. The first is the case exactly if every added instruction fits, and always
for a circuit that is valid itself. -/
theorem composition_valid_iff {c : Circuit R} (hvalid : c.validate = .ok ()) (other : Circuit R) :
    ((∃ e, c.compose other = .error e) ↔
      c.numQubits < other.numQubits ∨ c.numClbits < other.numClbits) ∧
    (∀ e, c.compose other = .error e →
      e = .incompatible other.size c.size ∧ (Builder.compose other).run.run c = (.error e, c)) ∧
    ∀ c', c.compose other = .ok c' →
      (c'.validate = .ok () ↔ c.appendAll other.instructions = .ok c') ∧
      (∀ e, c'.validate = .error e ↔ c.appendAll other.instructions = .error e) ∧
      (c'.validate = .ok () ↔ ∀ inst ∈ other.instructions, c.Fits inst) ∧
      (other.validate = .ok () → c'.validate = .ok ()) := by
  refine ⟨?_, fun e h => ?_, fun c' h => ?_⟩
  · simp only [compose_eq_error, exists_and_left, exists_eq, and_true]
  · obtain ⟨hlarge, rfl⟩ := compose_eq_error.1 h
    exact ⟨rfl, by rw [Builder.run_compose, if_pos hlarge]⟩
  · have hcheck := validate_of_compose hvalid h
    obtain ⟨-, rfl⟩ := compose_eq_ok.1 h
    refine ⟨?_, fun e => ?_, ?_, fun hother => validate_compose hvalid hother h⟩
    · rw [hcheck, appendAll_eq]
      cases c.checkAll other.instructions <;> simp [Except.map]
    · rw [hcheck, appendAll_eq]
      cases c.checkAll other.instructions <;> simp [Except.map]
    · rw [hcheck, checkAll_eq_ok]

/-- A circuit with an operand outside both registers is added to an empty one of the same size. The
sum has the fault that appending would have found. -/
theorem composition_valid_iff_unchecked :
    let c : Circuit Float := withSize "whole" 1 0
    let other : Circuit Float := ⟨"part", 1, 0, [.standard (.plain .x) [⟨5⟩]]⟩
    let missing : CircuitError Float := .qubitNotFound ⟨5⟩ 1 (some "x")
    c.validate = .ok () ∧ ∃ sum, c.compose other = .ok sum ∧ sum.validate = .error missing ∧
      c.appendAll other.instructions = .error missing := by
  intro c other missing
  have hvalid : c.validate = .ok () := rfl
  obtain ⟨-, -, hsum⟩ := composition_valid_iff hvalid other
  obtain ⟨-, hfails, -⟩ := hsum { c with instructions := other.instructions } rfl
  have happend : c.appendAll other.instructions = .error missing := rfl
  exact ⟨hvalid, _, rfl, (hfails missing).2 happend, happend⟩

end QuantumSim.Circuit
