import Mathlib
import QuantumSim.Proofs.NormPreservation
import QuantumSim.Proofs.Expectation

/-!
Gates that only change phases. A gate that the table of symbols calls diagonal lowers to an operator
with a diagonal unitary matrix, whatever its angles. Under any controls it multiplies each amplitude
by a number of magnitude one, so that no readout of squared magnitudes sees it.
-/
namespace QuantumSim
open BasisIndex

namespace Operator

/-- An operator that multiplies each basis state of its targets by a phase. -/
structure IsPhase (op : Operator ℝ) : Prop where
  diagonal : op.dense.IsDiag
  unitary : op.IsUnitary

/-- The entries of a diagonal unitary matrix have magnitude one. -/
theorem IsPhase.normSq_entry {op : Operator ℝ} (h : op.IsPhase) (k : Fin (2 ^ op.numTargets)) :
    Complex.normSq (op.dense k k) = 1 := by
  have hrow := congrFun (congrFun (Matrix.mem_unitaryGroup_iff.1 h.unitary) k) k
  rw [Matrix.mul_apply, Matrix.one_apply_eq, Finset.sum_eq_single k] at hrow
  · rw [Matrix.star_apply, Complex.star_def, Complex.mul_conj] at hrow
    exact_mod_cast hrow
  · intro j _ hj
    rw [h.diagonal hj.symm, zero_mul]
  · intro hk
    exact absurd (Finset.mem_univ k) hk

end Operator

/-- A diagonal gate of the fixed set has a diagonal matrix, at any angles. -/
theorem StandardGate.lower_isPhase {g : StandardGate ℝ} (h : g.isDiagonal = true) :
    g.lower.operator.IsPhase := by
  refine ⟨?_, g.lower_isUnitary⟩
  -- every symbol that the table calls diagonal has to be listed, and its matrix has to be
  match g, h with
  | ⟨.i, _⟩, _ | ⟨.z, _⟩, _ | ⟨.s, _⟩, _ | ⟨.sdg, _⟩, _ | ⟨.t, _⟩, _ | ⟨.tdg, _⟩, _ | ⟨.rz, _⟩, _
  | ⟨.p, _⟩, _ | ⟨.u1, _⟩, _ | ⟨.cz, _⟩, _ | ⟨.crz, _⟩, _ | ⟨.cp, _⟩, _ =>
    exact Matrix.isDiag_diagonal _
  | ⟨.rzz, angles⟩, _ =>
    show (GateMatrix.rzz _).toMatrix.IsDiag
    rw [GateMatrix.toMatrix_rzz]
    exact Matrix.isDiag_diagonal _

theorem Gate.exists_lower_isPhase {g : Gate ℝ} (hdiag : g.isDiagonal = true)
    (hexact : g.kind.IsExact) :
    ∃ lowered, g.kind.lower = .ok lowered ∧ lowered.operator.IsPhase := by
  obtain ⟨kind, controls⟩ := g
  cases kind with
  | standard g =>
    obtain ⟨lowered, hlower⟩ := hexact.ready.exists_lower
    obtain ⟨resolved, hresolved, rfl⟩ := GateKind.lower_standard_eq_ok.1 hlower
    have hsymbol : resolved.isDiagonal = true := by
      unfold StandardGate.isDiagonal
      rw [StandardGate.resolve_symbol hresolved]
      exact hdiag
    exact ⟨_, hlower, StandardGate.lower_isPhase hsymbol⟩
  | matrix g => cases hdiag

/-- An instruction with a diagonal gate that has numbers for angles. -/
def Instruction.IsPhase (inst : Instruction ℝ) : Prop :=
  ∃ g, inst.operation = .gate g ∧ g.isDiagonal = true ∧ g.kind.IsExact

/-- A phase operator keeps the magnitude at every index, selected or not. -/
theorem LoweredGate.Accepts.normSq_image {lowered : LoweredGate ℝ} {n : ℕ} {gate : Gate ℝ}
    {operands : List Qubit} (h : lowered.Accepts n gate operands)
    (hphase : lowered.operator.IsPhase) (v : ℕ → ℂ) (i : ℕ) :
    Complex.normSq (lowered.image gate.controls operands v i) = Complex.normSq (v i) := by
  unfold image
  dsimp only
  split
  -- of the row only the diagonal entry counts, and it stands at the index itself
  · have hself : replaceBits (lowered.targets operands)
        (lowered.operator.rowOf (lowered.targets operands) i) i = i := by
      rw [Operator.val_rowOf h.length_targets, replaceBits_localIndex h.nodup_targets]
    rw [Finset.sum_eq_single (lowered.operator.rowOf (lowered.targets operands) i), hself,
      Complex.normSq_mul, hphase.normSq_entry, one_mul]
    · intro k _ hk
      rw [hphase.diagonal hk.symm, zero_mul]
    · intro hk
      exact absurd (Finset.mem_univ _) hk
  · rfl

namespace Statevector

section Readouts

variable {R : Type} [Scalar R]

/-- Two states with the same probability of every basis index, summed over in the same order. -/
structure SameProbabilities (s t : Statevector R) : Prop where
  machine : t.machine = s.machine
  probabilities : t.probabilities = s.probabilities

variable {s t : Statevector R}

namespace SameProbabilities

theorem trans {u : Statevector R} (h : s.SameProbabilities t) (h' : t.SameProbabilities u) :
    s.SameProbabilities u :=
  ⟨h'.machine.trans h.machine, h'.probabilities.trans h.probabilities⟩

theorem size (h : s.SameProbabilities t) : t.size = s.size := by
  have hsize := congrArg Array.size h.probabilities
  simp only [Statevector.probabilities, Array.size_map] at hsize
  exact hsize

theorem split (h : s.SameProbabilities t) : t.split = s.split := by
  unfold Statevector.split
  rw [h.machine, h.size]

/-- At an index both states have amplitudes of one magnitude, or neither has one. -/
theorem amplitudes_or (h : s.SameProbabilities t) (i : ℕ) :
    (t.amplitudes[i]? = none ∧ s.amplitudes[i]? = none) ∨
      ∃ a b, t.amplitudes[i]? = some a ∧ s.amplitudes[i]? = some b ∧ a.normSq = b.normSq := by
  have hentry := congrArg (·[i]?) h.probabilities
  simp only [Statevector.probabilities, Array.getElem?_map] at hentry
  cases ht : t.amplitudes[i]? with
  | none =>
    rw [ht] at hentry
    exact .inl ⟨rfl, Option.map_eq_none_iff.1 hentry.symm⟩
  | some a =>
    rw [ht] at hentry
    obtain ⟨b, hs, hab⟩ := Option.map_eq_some_iff.1 hentry.symm
    exact .inr ⟨a, b, rfl, hs, hab.symm⟩

theorem sumSplit (h : s.SameProbabilities t) (f : ℕ → R → R) :
    (t.sumSplit fun i a => f i a.normSq) = s.sumSplit fun i a => f i a.normSq := by
  have hterm (i : ℕ) : t.term (fun i a => f i a.normSq) i = s.term (fun i a => f i a.normSq) i := by
    unfold term
    obtain ⟨ht, hs⟩ | ⟨a, b, ht, hs, hab⟩ := h.amplitudes_or i
    · rw [ht, hs]
    · simp only [ht, hs, hab]
  unfold Statevector.sumSplit sumRange
  simp only [hterm, h.split, h.size]

theorem probabilityOne (h : s.SameProbabilities t) (q : ℕ) :
    t.probabilityOne q = s.probabilityOne q := by
  unfold Statevector.probabilityOne
  cases bitMask q with
  | error e => rfl
  | ok mask =>
    exact congrArg Except.ok (h.sumSplit fun i p => if i &&& mask = 0 then Scalar.zero else p)

/-- A marginal reads an amplitude for its squared magnitude. -/
theorem addToMarginal (h : s.SameProbabilities t) (qubits : List Qubit) (m : Array R) (i : ℕ) :
    (elementAt t.amplitudes i >>= Statevector.addToMarginal qubits m i) =
      elementAt s.amplitudes i >>= Statevector.addToMarginal qubits m i := by
  unfold elementAt
  obtain ⟨ht, hs⟩ | ⟨a, b, ht, hs, hab⟩ := h.amplitudes_or i
  · rw [ht, hs]
  · simp only [ht, hs, ok_bind, Statevector.addToMarginal, hab]

theorem marginalProbabilities (h : s.SameProbabilities t) (qubits : List Qubit) :
    t.marginalProbabilities qubits = s.marginalProbabilities qubits := by
  unfold Statevector.marginalProbabilities
  simp only [h.addToMarginal, h.split, h.size]

end SameProbabilities

end Readouts

namespace SameProbabilities

variable {s t : Statevector ℝ}

/-- Without flips an amplitude meets its own conjugate. -/
theorem maskedSum (h : s.SameProbabilities t) {m : PauliMasks} (hflip : m.flip = 0) :
    t.maskedSum m = s.maskedSum m := by
  unfold Statevector.maskedSum
  rw [h.size, hflip]
  apply foldlM_congr
  intro i _ acc
  unfold elementAt
  rw [Nat.xor_zero]
  obtain ⟨ht, hs⟩ | ⟨a, b, ht, hs, hab⟩ := h.amplitudes_or i
  · rw [ht, hs]
  · simp only [ht, hs, ok_bind, Amplitude.conj_mul_self, hab]

theorem termExpectation (h : s.SameProbabilities t) {term : ObservableTerm ℝ}
    (hflips : ∀ op ∈ term.pauli.ops, op.2.flips = false) :
    t.termExpectation term = s.termExpectation term := by
  unfold Statevector.termExpectation
  cases hmasks : pauliMasks term.pauli with
  | error e => rfl
  | ok m =>
    have hword := PauliString.exists_pauliMasks_eq_ok.1 ⟨m, hmasks⟩
    have hflip : m.flip = 0 := by
      have hlt : term.pauli.masks.flip < 2 ^ 0 := PauliString.flip_lt_iff.2 fun op hop hflip =>
        absurd hflip (Bool.eq_false_iff.1 (hflips op hop))
      rw [PauliString.pauliMasks_eq hword] at hmasks
      cases hmasks
      exact Nat.lt_one_iff.1 hlt
    rw [ok_bind, ok_bind, h.maskedSum hflip]

theorem expectation (h : s.SameProbabilities t) {o : Observable ℝ}
    (hflips : ∀ term ∈ o.terms, ∀ op ∈ term.pauli.ops, op.2.flips = false) :
    t.expectation o = s.expectation o := by
  apply foldlM_congr
  intro term hterm acc
  rw [h.termExpectation (hflips term hterm)]

end SameProbabilities

theorem normSq_coefficient (s : Statevector ℝ) (i : ℕ) :
    Complex.normSq (s.coefficient i) = s.probabilities[i]?.getD 0 := by
  unfold coefficient Kernel.valueAt probabilities
  rw [← Amplitude.normSq_real, Array.getElem?_map]
  cases s.amplitudes[i]? with
  | none => simp [Amplitude.normSq_real]
  | some a => rfl

theorem probabilities_eq_of_normSq {s t : Statevector ℝ} (hsize : t.size = s.size)
    (h : ∀ i < s.size, Complex.normSq (t.coefficient i) = Complex.normSq (s.coefficient i)) :
    t.probabilities = s.probabilities := by
  have hs : s.probabilities.size = s.size := Array.size_map ..
  have ht : t.probabilities.size = s.size := (Array.size_map ..).trans hsize
  apply Array.ext (ht.trans hs.symm)
  intro i hit his
  have hentry := h i (hs ▸ his)
  rw [normSq_coefficient, normSq_coefficient] at hentry
  simpa [hit, his] using hentry

/-- A diagonal gate keeps every squared magnitude. -/
theorem exists_apply_sameProbabilities {c : Circuit ℝ} {s : Statevector ℝ} (hs : s.IsRegister)
    (hwidth : s.numQubits = c.numQubits.toNat) {inst : Instruction ℝ} (hfits : c.Fits inst)
    (hphase : inst.IsPhase) :
    ∃ t, s.apply inst = .ok t ∧ t.HasWidth s.numQubits ∧ s.SameProbabilities t := by
  obtain ⟨g, hop, hdiag, hexact⟩ := hphase
  obtain ⟨lowered, hlower, hoperator⟩ := Gate.exists_lower_isPhase hdiag hexact
  obtain ⟨haccepts, t, happly, ht, hn, hmachine, hsize, hcoeff⟩ :=
    exists_apply_gate_eq hs hwidth hfits hop hlower
  have hsame : t.probabilities = s.probabilities := by
    apply probabilities_eq_of_normSq hsize
    intro i hi
    rw [hcoeff i hi, haccepts.normSq_image hoperator]
  exact ⟨t, happly, ⟨ht, hn⟩, hmachine, hsame⟩

theorem exists_applyAll_sameProbabilities {c : Circuit ℝ} {insts : List (Instruction ℝ)}
    (hfits : ∀ inst ∈ insts, c.Fits inst) (hphase : ∀ inst ∈ insts, inst.IsPhase)
    {s : Statevector ℝ} (hs : s.IsRegister) (hwidth : s.numQubits = c.numQubits.toNat) :
    ∃ t, s.applyAll insts = .ok t ∧ t.HasWidth s.numQubits ∧ s.SameProbabilities t := by
  apply exists_applyAll_of_step
  · rintro inst hinst u ⟨hu, hsame⟩
    obtain ⟨t, happly, ht, hnext⟩ := exists_apply_sameProbabilities hu.register
      (hu.width.trans hwidth) (hfits inst hinst) (hphase inst hinst)
    exact ⟨t, happly, hu.width ▸ ht, hsame.trans hnext⟩
  · exact ⟨⟨hs, rfl⟩, rfl, rfl⟩

/-- A list of diagonal gates that fit the register, under any controls, applies to every state and
changes no squared magnitude. Probabilities, marginals and expectation values of strings that flip
nothing are those of the state before, and a readout that fails fails as before. -/
theorem probabilities_applyAll_diagonal {c : Circuit ℝ} {s : Statevector ℝ} (hs : s.IsRegister)
    (hwidth : s.numQubits = c.numQubits.toNat) {insts : List (Instruction ℝ)}
    (hcheck : ∀ inst ∈ insts, c.check inst = .ok ()) (hphase : ∀ inst ∈ insts, inst.IsPhase) :
    ∃ t, s.applyAll insts = .ok t ∧ t.HasWidth s.numQubits ∧
      (∀ i, Complex.normSq (t.coefficient i) = Complex.normSq (s.coefficient i)) ∧
      t.probabilities = s.probabilities ∧
      (∀ q, t.probabilityOne q = s.probabilityOne q) ∧
      (∀ qubits, t.marginalProbabilities qubits = s.marginalProbabilities qubits) ∧
      ∀ o : Observable ℝ, (∀ term ∈ o.terms, ∀ op ∈ term.pauli.ops, op.2.flips = false) →
        t.expectation o = s.expectation o := by
  have hfits : ∀ inst ∈ insts, c.Fits inst := fun inst hinst =>
    (c.check_eq_ok inst).1 (hcheck inst hinst)
  obtain ⟨t, happly, ht, hsame⟩ := exists_applyAll_sameProbabilities hfits hphase hs hwidth
  refine ⟨t, happly, ht, fun i => ?_, hsame.probabilities, hsame.probabilityOne,
    hsame.marginalProbabilities, fun o hflips => hsame.expectation hflips⟩
  rw [normSq_coefficient, normSq_coefficient, hsame.probabilities]

/-- A rotation of two qubits that fires on a zero and a controlled rotation with its operands
reversed, on amplitudes with different phases. -/
theorem probabilities_applyAll_diagonal_controlled :
    let c : Circuit ℝ := .withSize "phases" 3 0
    let rotation := (Gate.ofStandard (.rotation .rzz (.value 1))).withControls [⟨⟨1⟩, .negative⟩]
    let insts := [Instruction.ofGate rotation [⟨2⟩, ⟨0⟩],
      .standard (.rotation .crz (.value (1 / 2))) [⟨1⟩, ⟨0⟩], .standard (.plain .sdg) [⟨2⟩]]
    let s : Statevector ℝ := ⟨3, #[.one, .i, .one, .zero, .i, .ofReal 3, .one, .i],
      { parallelThreshold := some 4, divide := fun _ => .cut 3 .whole .whole }⟩
    let o : Observable ℝ := ⟨[⟨2, ⟨[(⟨2⟩, .z), (⟨1⟩, .i), (⟨0⟩, .z)]⟩⟩]⟩
    (∀ inst ∈ insts, c.check inst = .ok ()) ∧ (∀ inst ∈ insts, inst.IsPhase) ∧
      ∃ t, s.applyAll insts = .ok t ∧ t.probabilities = s.probabilities ∧
        t.marginalProbabilities [⟨2⟩, ⟨0⟩] = s.marginalProbabilities [⟨2⟩, ⟨0⟩] ∧
        t.expectation o = s.expectation o := by
  intro c rotation insts s o
  have hcheck : ∀ inst ∈ insts, c.check inst = .ok () := by
    simp only [insts, List.forall_mem_cons]
    exact ⟨rfl, rfl, rfl, by simp⟩
  have hphase : ∀ inst ∈ insts, inst.IsPhase := by
    simp only [insts, List.forall_mem_cons]
    exact ⟨⟨rotation, rfl, rfl, fun p hp => ⟨1, List.mem_singleton.1 hp⟩⟩,
      ⟨_, rfl, rfl, fun p hp => ⟨1 / 2, List.mem_singleton.1 hp⟩⟩,
      ⟨_, rfl, rfl, fun p hp => absurd hp List.not_mem_nil⟩, by simp⟩
  obtain ⟨t, happly, -, -, hprobabilities, -, hmarginal, hvalue⟩ :=
    probabilities_applyAll_diagonal (s := s) ⟨by decide, rfl⟩ rfl hcheck hphase
  have hflips : ∀ term ∈ o.terms, ∀ op ∈ term.pauli.ops, op.2.flips = false := by
    simp only [o, List.forall_mem_singleton]
    decide
  exact ⟨hcheck, hphase, t, happly, hprobabilities, hmarginal _, hvalue o hflips⟩

end Statevector

end QuantumSim
