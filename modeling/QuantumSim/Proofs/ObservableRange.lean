import Mathlib
import QuantumSim.Proofs.Acceptance
import QuantumSim.Proofs.Expectation

/-!
The width check of observables. A request is checked at the last listed qubit of every Pauli string,
which is the highest one only if the string is sorted.
-/
namespace QuantumSim

theorem word_max_le_iff {a b c : UInt32} : max a b ≤ c ↔ a ≤ c ∧ b ≤ c := by
  rw [UInt32.max_def]
  split
  next h => exact ⟨fun hb => ⟨UInt32.le_trans h hb, hb⟩, And.right⟩
  next h =>
    have hba := (UInt32.le_total a b).resolve_left h
    exact ⟨fun ha => ⟨ha, UInt32.le_trans hba ha⟩, And.left⟩

instance wordLawfulOrderMax : Std.LawfulOrderMax UInt32 :=
  .of_max_le_iff (fun _ _ _ => word_max_le_iff) fun a b => by
    rw [UInt32.max_def]
    split
    · exact .inr rfl
    · exact .inl rfl

namespace PauliString

/-- Listed in ascending order of the qubits. -/
def Sorted (p : PauliString) : Prop := p.ops.Pairwise fun a b => a.1.index ≤ b.1.index

theorem sorted_ofOps (ops : List (Qubit × Pauli)) : (ofOps ops).Sorted :=
  (pairwise_mergeSort_word (fun op : Qubit × Pauli => op.1.id) _).imp UInt32.le_iff_toNat_le.1

theorem sorted_zz (qubits : List Qubit) : (zz qubits).Sorted := sorted_ofOps _

theorem sorted_identity : identity.Sorted := List.Pairwise.nil

/-- Made by one of the constructors, not read from a document. -/
def Constructed (p : PauliString) : Prop :=
  (∃ ops, p = ofOps ops) ∨ (∃ qubits, p = zz qubits) ∨ p = identity

theorem Constructed.sorted {p : PauliString} (h : p.Constructed) : p.Sorted := by
  rcases h with ⟨ops, rfl⟩ | ⟨qubits, rfl⟩ | rfl
  · exact sorted_ofOps ops
  · exact sorted_zz qubits
  · exact sorted_identity

/-- Every qubit of a sorted string is at most the last one. -/
theorem Sorted.index_le {p : PauliString} (h : p.Sorted) {op : Qubit × Pauli} (hop : op ∈ p.ops) :
    ∃ q, p.maxQubit? = some q ∧ op.1.index ≤ q.index := by
  obtain ⟨init, last, hops⟩ := List.eq_nil_or_concat p.ops |>.resolve_left (List.ne_nil_of_mem hop)
  have hmax : p.maxQubit? = some last.1 := by
    unfold maxQubit?
    rw [hops, List.concat_eq_append, List.getLast?_concat]
    rfl
  refine ⟨last.1, hmax, ?_⟩
  unfold Sorted at h
  rw [hops, List.concat_eq_append] at h
  rw [hops, List.concat_eq_append] at hop
  rcases List.mem_append.1 hop with hinit | hlast
  · exact (List.pairwise_append.1 h).2.2 op hinit last (by simp)
  · rw [List.mem_singleton.1 hlast]

end PauliString

namespace Observable

variable {R : Type}

/-- The last listed qubits of the strings. -/
def lastQubits (o : Observable R) : List Qubit := o.terms.filterMap (·.pauli.maxQubit?)

/-- Every last listed qubit is among the first `n`. -/
def LastWithin (o : Observable R) (n : ℕ) : Prop := ∀ q ∈ o.lastQubits, q.index < n

/-- A string ends with the last qubit that a word can name. -/
def EndsAtLimit (o : Observable R) : Prop := ∃ q ∈ o.lastQubits, q.index + 1 = UInt32.size

/-- Every operator other than the identity acts on one of the first `n` qubits. -/
def Within (o : Observable R) (n : ℕ) : Prop :=
  ∀ term ∈ o.terms, ∀ op ∈ term.pauli.ops, op.2 ≠ .i → op.1.index < n

def Sorted (o : Observable R) : Prop := ∀ term ∈ o.terms, term.pauli.Sorted

section Decidable

variable (o : Observable R) (n : ℕ)

instance : Decidable (o.LastWithin n) := inferInstanceAs (Decidable (∀ q ∈ o.lastQubits, _))

instance : Decidable o.EndsAtLimit := inferInstanceAs (Decidable (∃ q ∈ o.lastQubits, _))

instance : Decidable (o.Within n) :=
  inferInstanceAs (Decidable (∀ term ∈ o.terms, ∀ op ∈ term.pauli.ops, _))

instance : Decidable o.Sorted :=
  inferInstanceAs (Decidable (∀ term ∈ o.terms, term.pauli.ops.Pairwise _))

end Decidable

theorem Sorted.index_lt {o : Observable R} (h : o.Sorted) {n : ℕ} (hlast : o.LastWithin n) :
    ∀ term ∈ o.terms, ∀ op ∈ term.pauli.ops, op.1.index < n := by
  intro term hterm op hop
  obtain ⟨q, hq, hle⟩ := (h term hterm).index_le hop
  exact hle.trans_lt (hlast q (List.mem_filterMap.2 ⟨term, hterm, hq⟩))

/-- The needed number of qubits is zero, or the word after the highest of the last listed qubits. -/
theorem minQubits_eq (o : Observable R) :
    (o.lastQubits = [] ∧ o.minQubits = .ok 0) ∨
      ∃ top ∈ o.lastQubits, (∀ q ∈ o.lastQubits, q.index ≤ top.index) ∧
        o.minQubits = nextWord top.id := by
  unfold minQubits
  split
  next hnone => exact .inl ⟨List.map_eq_nil_iff.1 hnone, rfl⟩
  next q rest hsome =>
    have hids : o.lastQubits.map (·.id) = q :: rest := hsome
    obtain ⟨hmem, hle⟩ : rest.foldl max q ∈ q :: rest ∧ ∀ x ∈ q :: rest, x ≤ rest.foldl max q :=
      List.max?_eq_some_iff.1 rfl
    rw [← hids] at hmem hle
    obtain ⟨top, htop, htopid⟩ := List.mem_map.1 hmem
    rw [← htopid] at hle ⊢
    exact .inr ⟨top, htop, fun p hp => UInt32.le_iff_toNat_le.1 (hle p.id (List.mem_map_of_mem hp)),
      rfl⟩

/-- The needed number of qubits has no word exactly if a string ends at the limit; otherwise a
register is wide enough exactly if it has every last listed qubit. -/
theorem minQubits_spec (o : Observable R) :
    (o.EndsAtLimit ∧ o.minQubits = .error .overflow) ∨
      (¬o.EndsAtLimit ∧ ∃ k, o.minQubits = .ok k ∧ ∀ n : UInt32, k ≤ n ↔ o.LastWithin n.toNat) := by
  obtain ⟨hnone, hzero⟩ | ⟨top, htop, hupper, hnext⟩ := o.minQubits_eq
  · right
    refine ⟨by simp [EndsAtLimit, hnone], 0, hzero, fun n => ?_⟩
    simp [LastWithin, hnone, UInt32.le_iff_toNat_le]
  have hlimit : top.index < UInt32.size := top.id.toNat_lt
  by_cases hfits : top.index + 1 < UInt32.size
  · right
    refine ⟨?_, top.id + 1, hnext.trans (if_pos hfits), fun n => ?_⟩
    · rintro ⟨q, hq, hend⟩
      have hle := hupper q hq
      omega
    · have hword : (top.id + 1).toNat = top.index + 1 := by
        rw [UInt32.toNat_add]
        exact Nat.mod_eq_of_lt hfits
      rw [UInt32.le_iff_toNat_le, hword]
      constructor
      · intro h q hq
        have hle := hupper q hq
        omega
      · intro h
        exact h top htop
  · left
    exact ⟨⟨top, htop, by omega⟩, hnext.trans (if_neg hfits)⟩

end Observable

/-- A refusal that stands for a machine operation without a result. -/
def RequestError.IsFault {R : Type} : RequestError R → Prop
  | fault _ | circuit (.fault _) => True
  | _ => False

namespace Circuit

variable {R : Type}

theorem checkQubits_ne_fault {n : UInt32} {gate : Option String} {seen qs : List Qubit}
    {cause : Fault} :
    checkQubits n gate seen qs ≠ (.error (.fault cause) : Except (CircuitError R) Unit) := by
  induction qs generalizing seen with
  | nil => simp [checkQubits]
  | cons q qs ih =>
    unfold checkQubits
    split
    · simp
    · split
      · simp
      · exact ih

theorem checkClbits_ne_fault {n : UInt32} {bs : List Clbit} {cause : Fault} :
    checkClbits n bs ≠ (.error (.fault cause) : Except (CircuitError R) Unit) := by
  induction bs with
  | nil => simp [checkClbits]
  | cons b bs ih =>
    unfold checkClbits
    split
    · simp
    · exact ih

theorem checkCounts_ne_fault {inst : Instruction R} {cause : Fault} :
    checkCounts inst ≠ .error (.fault cause) := by
  unfold checkCounts
  split
  · dsimp only
    split <;> simp
  · split <;> simp
  · simp

/-- Checking a circuit is free of machine arithmetic that could stop it. -/
theorem validate_ne_fault (c : Circuit R) (cause : Fault) : c.validate ≠ .error (.fault cause) := by
  have hcheck (inst : Instruction R) : c.check inst ≠ .error (.fault cause) := by
    intro h
    rcases bind_eq_error.1 h with h | ⟨_, -, h⟩
    · exact checkCounts_ne_fault h
    · rcases bind_eq_error.1 h with h | ⟨_, -, h⟩
      · exact checkQubits_ne_fault h
      · exact checkClbits_ne_fault h
  have hall (insts : List (Instruction R)) : c.checkAll insts ≠ .error (.fault cause) := by
    induction insts with
    | nil => simp [checkAll]
    | cons inst insts ih =>
      intro h
      rcases bind_eq_error.1 h with h | ⟨_, -, h⟩
      · exact hcheck inst h
      · exact ih h
  exact hall c.instructions

end Circuit

namespace ExecutionRequest

variable {R : Type}

/-- An observable ends at the limit, and those before it are in range at their last listed
qubits. -/
def ReachesLimit (n : ℕ) (os : List (Observable R)) : Prop :=
  ∃ before o after, os = before ++ o :: after ∧ (∀ p ∈ before, p.LastWithin n) ∧ o.EndsAtLimit

theorem reachesLimit_cons {n : ℕ} {o : Observable R} {os : List (Observable R)} :
    ReachesLimit n (o :: os) ↔ o.EndsAtLimit ∨ (o.LastWithin n ∧ ReachesLimit n os) := by
  constructor
  · rintro ⟨before, p, after, hsplit, hbefore, hlimit⟩
    cases before with
    | nil =>
      cases hsplit
      exact .inl hlimit
    | cons first before =>
      cases hsplit
      obtain ⟨hfirst, hbefore⟩ := List.forall_mem_cons.1 hbefore
      exact .inr ⟨hfirst, before, p, after, rfl, hbefore, hlimit⟩
  · rintro (hlimit | ⟨hfirst, before, p, after, rfl, hbefore, hlimit⟩)
    · exact ⟨[], o, os, rfl, by simp, hlimit⟩
    · exact ⟨o :: before, p, after, rfl, List.forall_mem_cons.2 ⟨hfirst, hbefore⟩, hlimit⟩

theorem checkObservables_eq_ok {c : Circuit R} {os : List (Observable R)} :
    checkObservables c os = .ok () ↔ ∀ o ∈ os, o.LastWithin c.numQubits.toNat := by
  induction os with
  | nil => simp [checkObservables]
  | cons o os ih =>
    unfold checkObservables
    rw [List.forall_mem_cons]
    obtain ⟨hlimit, hneeded⟩ | ⟨-, k, hneeded, hwide⟩ := o.minQubits_spec
    · have hnot : ¬o.LastWithin c.numQubits.toNat := by
        obtain ⟨q, hq, hend⟩ := hlimit
        intro hlast
        have hlt := hlast q hq
        have hword : c.numQubits.toNat < UInt32.size := c.numQubits.toNat_lt
        omega
      simp [hneeded, Except.mapError, hnot]
    · rw [hneeded]
      simp only [Except.mapError, ok_bind, ← hwide]
      split
      next hnarrow => simp [UInt32.not_le.2 hnarrow]
      next hfits => simp [ih, UInt32.not_lt.1 hfits]

theorem checkObservables_fault_iff {c : Circuit R} {os : List (Observable R)} :
    (∃ e, checkObservables c os = .error e ∧ e.IsFault) ↔ ReachesLimit c.numQubits.toNat os := by
  induction os with
  | nil =>
    simp [checkObservables, ReachesLimit]
  | cons o os ih =>
    unfold checkObservables
    rw [reachesLimit_cons]
    obtain ⟨hlimit, hneeded⟩ | ⟨hnolimit, k, hneeded, hwide⟩ := o.minQubits_spec
    · rw [hneeded]
      exact iff_of_true ⟨_, rfl, trivial⟩ (.inl hlimit)
    · rw [hneeded]
      simp only [Except.mapError, ok_bind, ← hwide]
      split
      next hnarrow =>
        refine iff_of_false ?_ (by simp [hnolimit, UInt32.not_le.2 hnarrow])
        rintro ⟨e, ⟨⟩, hfault⟩
        exact hfault
      next hfits => simp [ih, hnolimit, UInt32.not_lt.1 hfits]

variable [Scalar R]

theorem not_isFault_of_options {o : RunOptions R} {e : RequestError R} (h : o.validate = .error e) :
    ¬e.IsFault := by
  unfold RunOptions.validate at h
  split at h
  · cases h
    exact id
  · split at h
    · cases h
      exact id
    · split at h
      · cases h
        exact id
      · cases h

/-- Nothing before the observables stops validation at a machine operation. -/
theorem reachesObservables_of_fault {r : ExecutionRequest R} {e : RequestError R}
    (h : r.validate = .error e) (hfault : e.IsFault) : r.ReachesObservables := by
  rcases bind_eq_error.1 h with hoptions | ⟨_, hoptions, h⟩
  · exact absurd hfault (not_isFault_of_options hoptions)
  rcases bind_eq_error.1 h with hcircuit | ⟨_, hcircuit, h⟩
  · cases hc : r.circuit.validate with
    | ok _ =>
      rw [hc] at hcircuit
      cases hcircuit
    | error cause =>
      rw [hc] at hcircuit
      cases hcircuit
      cases cause with
      | fault cause => exact absurd hc (r.circuit.validate_ne_fault cause)
      | _ => exact hfault.elim
  split at h
  next =>
    cases h
    exact hfault.elim
  next hstate => exact ⟨hoptions, mapError_eq_ok.1 hcircuit, hstate⟩

/-- Validation stops at a machine operation exactly if it reaches an observable that ends at the
limit. -/
theorem validate_fault_iff (r : ExecutionRequest R) :
    (∃ e, r.validate = .error e ∧ e.IsFault) ↔
      r.ReachesObservables ∧ ReachesLimit r.circuit.numQubits.toNat r.options.observables := by
  rw [← checkObservables_fault_iff]
  constructor
  · rintro ⟨e, h, hfault⟩
    have hreaches := reachesObservables_of_fault h hfault
    rw [validate_eq hreaches] at h
    rcases bind_eq_error.1 h with hobservables | ⟨_, -, h⟩
    · exact ⟨hreaches, e, hobservables, hfault⟩
    · dsimp only at h
      split at h
      · cases h
      · cases h
        exact hfault.elim
  · rintro ⟨hreaches, e, hobservables, hfault⟩
    rw [validate_eq hreaches, hobservables]
    exact ⟨e, rfl, hfault⟩

/-- What validation settles about the observables of a request. It stops at a machine operation
exactly if it reaches an observable that ends at the limit, and it looks at last listed qubits only.
An accepted observable that is sorted, as all are whose strings are constructed, is in range and has
a value. Any other has one exactly if it is readable, and then the operators outside the register
count for nothing. -/
theorem validate_observables (r : ExecutionRequest R) :
    ((∃ e, r.validate = .error e ∧ e.IsFault) ↔
      r.ReachesObservables ∧ ReachesLimit r.circuit.numQubits.toNat r.options.observables) ∧
    (r.validate = .ok () ↔ r.ReachesObservables ∧ r.BindsAll ∧
      ∀ o ∈ r.options.observables, o.LastWithin r.circuit.numQubits.toNat) ∧
    (r.validate = .ok () → ∀ o ∈ r.options.observables,
      (o.Sorted → o.Within r.circuit.numQubits.toNat) ∧
      ∀ s : Statevector R, s.HasWidth r.circuit.numQubits.toNat →
        (o.Sorted → ∃ v, s.expectation o = .ok v) ∧
        ((∃ v, s.expectation o = .ok v) ↔ o.Readable r.circuit.numQubits.toNat) ∧
        (o.Readable r.circuit.numQubits.toNat →
          s.expectation (o.within r.circuit.numQubits.toNat) = s.expectation o)) ∧
    ∀ o : Observable R, (∀ term ∈ o.terms, term.pauli.Constructed) → o.Sorted := by
  refine ⟨r.validate_fault_iff, ?_, fun hvalid o ho => ?_,
    fun o hmade term hterm => (hmade term hterm).sorted⟩
  · rw [validate_eq_ok, checkObservables_eq_ok, and_comm (b := r.BindsAll)]
  · obtain ⟨-, hobservables, -⟩ := validate_eq_ok.1 hvalid
    have hlast := checkObservables_eq_ok.1 hobservables o ho
    refine ⟨fun hsorted term hterm op hop _ => hsorted.index_lt hlast term hterm op hop,
      fun s hs => ⟨fun hsorted => ?_, Statevector.exists_expectation_eq_ok hs o,
        Statevector.expectation_within hs⟩⟩
    refine (Statevector.exists_expectation_eq_ok hs o).2 fun term hterm op hop => ?_
    have hlt := hsorted.index_lt hlast term hterm op hop
    have hword := hs.width ▸ hs.register.width
    exact ⟨hlt.trans hword, fun _ => hlt⟩

/-- An unsorted string that is accepted on one qubit for its last entry and whose first one counts
for nothing, and a string at the limit. -/
theorem validate_observables_unsorted :
    let c : Circuit Float := ⟨"c", 1, 0, []⟩
    let unsorted : Observable Float := .ofPauli ⟨[(⟨5⟩, .z), (⟨0⟩, .z)]⟩
    let highest : Observable Float := .ofPauli ⟨[(⟨4294967295⟩, .z)]⟩
    (⟨c, { mode := .exact, observables := [unsorted] }⟩ : ExecutionRequest Float).validate
        = .ok () ∧
      ¬unsorted.Within 1 ∧
      (∀ s : Statevector Float, s.HasWidth 1 →
        s.expectation (unsorted.within 1) = s.expectation unsorted) ∧
      ∃ e, (⟨c, { mode := .exact, observables := [highest] }⟩ : ExecutionRequest Float).validate =
        .error e ∧ e.IsFault := by
  intro c unsorted highest
  have hlast : ∀ o ∈ [unsorted], o.LastWithin 1 := by decide
  have hreadable : unsorted.Readable 1 := by decide
  have hwithin : ¬unsorted.Within 1 := by decide
  have hlimit : highest.EndsAtLimit := by decide
  obtain ⟨-, haccepts, hvalues, -⟩ :=
    validate_observables
      (⟨c, { mode := .exact, observables := [unsorted] }⟩ : ExecutionRequest Float)
  have hvalid := haccepts.2 ⟨⟨rfl, rfl, by decide⟩, by decide +kernel, hlast⟩
  refine ⟨hvalid, hwithin, fun s hs => ?_, ?_⟩
  · exact ((hvalues hvalid unsorted (by simp)).2 s hs).2.2 hreadable
  · obtain ⟨hfault, -⟩ :=
      validate_observables
        (⟨c, { mode := .exact, observables := [highest] }⟩ : ExecutionRequest Float)
    exact hfault.2 ⟨⟨rfl, rfl, by decide⟩, [], highest, [], rfl, by simp, hlimit⟩

end ExecutionRequest

end QuantumSim
