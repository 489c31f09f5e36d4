import Mathlib
import QuantumSim.Proofs.DeferredMeasurement

/-!
Exact circuits keep the norm. Over exact amplitudes a standard gate at any angles is unitary, and a
user matrix with orthonormal rows is accepted as what it is, so that no circuit of such gates
changes the sum of the squared magnitudes of any state.
-/
namespace QuantumSim

section UserMatrices

namespace GateMatrix

variable {n : ℕ}

/-- The product of two rows is an entry of the product with the conjugate transpose. -/
theorem toComplex_rowProduct (m : GateMatrix ℝ n) (row col : Fin n) :
    (m.rowProduct row col).toComplex = (m.toMatrix * m.toMatrix.conjTranspose) row col := by
  have hloop (l : List (Fin n)) (acc : Amplitude ℝ) :
      (l.foldl (fun acc k => acc + m[row][k] * (m[col][k]).conj) acc).toComplex =
        acc.toComplex + (l.map fun k => m.toMatrix row k * star (m.toMatrix col k)).sum := by
    induction l generalizing acc with
    | nil => simp
    | cons k l ih =>
      rw [List.foldl_cons, ih, List.map_cons, List.sum_cons, ← add_assoc]
      rfl
  rw [rowProduct, hloop, Amplitude.toComplex_zero, zero_add, Matrix.mul_apply, Fin.sum_univ_def]
  rfl

/-- A matrix is accepted if the entries of its product with its adjoint are those of the identity
within the tolerance. -/
theorem nonUnitary?_eq_none_iff {m : GateMatrix ℝ n} : m.nonUnitary? = none ↔
    ∀ row col, ‖(m.toMatrix * m.toMatrix.conjTranspose - 1) row col‖ ≤ Scalar.tolerance := by
  have hfinite : (m.toList.flatMap Vector.toList).find? (fun z => !z.isFinite) = none := by
    simp only [List.find?_eq_none]
    rintro z - hz
    cases hz
  have hproduct (row col : Fin n) : (m.rowProduct row col -
      if row = col then Amplitude.one else Amplitude.zero).norm =
        ‖(m.toMatrix * m.toMatrix.conjTranspose - 1) row col‖ := by
    rw [Amplitude.norm_real, Amplitude.toComplex_sub, toComplex_rowProduct, Matrix.sub_apply,
      Matrix.one_apply]
    split <;> simp
  unfold nonUnitary?
  rw [hfinite]
  simp [hproduct, Scalar.lt_real]

/-- A matrix with orthonormal rows is accepted. -/
theorem nonUnitary?_eq_none {m : GateMatrix ℝ n}
    (hm : m.toMatrix * m.toMatrix.conjTranspose = 1) : m.nonUnitary? = none :=
  nonUnitary?_eq_none_iff.2 fun row col => by simp [hm, Scalar.tolerance_pos.le]

end GateMatrix

/-- A matrix of the right size on one or two qubits, with orthonormal rows. -/
structure MatrixGate.IsUnitary (g : MatrixGate ℝ) : Prop where
  width : g.numQubits = 1 ∨ g.numQubits = 2
  rows : ∃ m : GateMatrix ℝ (2 ^ g.numQubits.toNat),
    GateMatrix.ofEntries? (2 ^ g.numQubits.toNat) g.entries = some m ∧
      m.toMatrix * m.toMatrix.conjTranspose = 1

theorem MatrixGate.IsUnitary.exists_lower {g : MatrixGate ℝ} (h : g.IsUnitary) :
    ∃ lowered, g.lower = .ok lowered ∧ lowered.operator.IsUnitary := by
  obtain ⟨n, entries⟩ := g
  obtain ⟨hwidth, hrows⟩ := h
  unfold MatrixGate.lower
  obtain rfl | rfl : n = 1 ∨ n = 2 := hwidth
  · have hrows : ∃ m : GateMatrix ℝ 2, GateMatrix.ofEntries? 2 entries = some m ∧
      m.toMatrix * m.toMatrix.conjTranspose = 1 := hrows
    obtain ⟨m, hentries, hm⟩ := hrows
    exact ⟨⟨.single m, 0⟩, by simp [hentries, GateMatrix.nonUnitary?_eq_none hm],
      Matrix.mem_unitaryGroup_iff.2 hm⟩
  · have hrows : ∃ m : GateMatrix ℝ 4, GateMatrix.ofEntries? 4 entries = some m ∧
      m.toMatrix * m.toMatrix.conjTranspose = 1 := hrows
    obtain ⟨m, hentries, hm⟩ := hrows
    exact ⟨⟨.double m, 0⟩, by simp [hentries, GateMatrix.nonUnitary?_eq_none hm],
      Matrix.mem_unitaryGroup_iff.2 hm⟩

end UserMatrices

/-- A standard gate with numbers for angles, or a unitary user matrix. -/
def GateKind.IsExact : GateKind ℝ → Prop
  | .standard g => ∀ p ∈ g.parameters, ∃ angle, p = .value angle
  | .matrix g => g.IsUnitary

theorem GateKind.IsExact.ready {kind : GateKind ℝ} (h : kind.IsExact) : kind.Ready := by
  cases kind with
  | standard g =>
    intro p hp
    obtain ⟨angle, rfl⟩ := h p hp
    exact ⟨angle, rfl, rfl⟩
  | matrix g =>
    obtain ⟨lowered, hlower, -⟩ := MatrixGate.IsUnitary.exists_lower h
    exact ⟨lowered, hlower⟩

theorem GateKind.IsExact.exists_lower {kind : GateKind ℝ} (h : kind.IsExact) :
    ∃ lowered, kind.lower = .ok lowered ∧ lowered.operator.IsUnitary := by
  cases kind with
  | standard g =>
    obtain ⟨lowered, hlower⟩ := h.ready.exists_lower
    obtain ⟨resolved, -, rfl⟩ := GateKind.lower_standard_eq_ok.1 hlower
    exact ⟨_, hlower, resolved.lower_isUnitary⟩
  | matrix g =>
    obtain ⟨lowered, hlower, hunitary⟩ := MatrixGate.IsUnitary.exists_lower h
    exact ⟨lowered, GateKind.lower_matrix_eq_ok.2 hlower, hunitary⟩

/-- A circuit whose gates are all exact. -/
def Circuit.IsExact (c : Circuit ℝ) : Prop :=
  ∀ inst ∈ c.instructions, ∀ g, inst.operation = .gate g → g.kind.IsExact

theorem Circuit.IsExact.exists_compile {c : Circuit ℝ} (h : c.IsExact) :
    ∃ steps, c.compile = .ok steps :=
  exists_compile_eq_ok fun inst hinst g hop => (h inst hinst g hop).ready

theorem Circuit.IsExact.matricesUnitary {c : Circuit ℝ} (h : c.IsExact) : c.MatricesUnitary := by
  intro inst hinst g m lowered hop hkind hlower
  obtain ⟨lowered', hlower', hunitary⟩ := (h inst hinst g hop).exists_lower
  rw [hkind, GateKind.lower_matrix_eq_ok, hlower] at hlower'
  cases hlower'
  exact hunitary

namespace Statevector

/-- Registers of one width with the same norm. -/
structure SameNorm (s t : Statevector ℝ) : Prop where
  register : t.IsRegister
  width : t.numQubits = s.numQubits
  normSq : t.normSq = s.normSq

theorem applyAll_cons {R : Type} [Scalar R] (s : Statevector R) (inst : Instruction R)
    (insts : List (Instruction R)) :
    s.applyAll (inst :: insts) = s.apply inst >>= fun t => t.applyAll insts := by
  rw [applyAll, advance]
  cases s.apply inst with
  | error e => rfl
  | ok t => rfl

/-- A list of instructions applies to every state with a property that each of them keeps. -/
theorem exists_applyAll_of_step {R : Type} [Scalar R] {P : Statevector R → Prop}
    {insts : List (Instruction R)}
    (hstep : ∀ inst ∈ insts, ∀ u, P u → ∃ t, u.apply inst = .ok t ∧ P t) {s : Statevector R}
    (hs : P s) : ∃ t, s.applyAll insts = .ok t ∧ P t := by
  induction insts generalizing s with
  | nil => exact ⟨s, rfl, hs⟩
  | cons inst insts ih =>
    obtain ⟨hfirst, hrest⟩ := List.forall_mem_cons.1 hstep
    obtain ⟨u, happly, hu⟩ := hfirst s hs
    obtain ⟨t, hrun, ht⟩ := ih hrest hu
    rw [applyAll_cons, happly]
    exact ⟨t, hrun, ht⟩

/-- An instruction that fits the register and has an exact gate, if any, keeps the norm. -/
theorem exists_apply_eq {c : Circuit ℝ} {s : Statevector ℝ} (hs : s.IsRegister)
    (hwidth : s.numQubits = c.numQubits.toNat) {inst : Instruction ℝ} (hfits : c.Fits inst)
    (hexact : ∀ g, inst.operation = .gate g → g.kind.IsExact) :
    ∃ t, s.apply inst = .ok t ∧ s.SameNorm t := by
  cases hop : inst.operation with
  | gate g =>
    obtain ⟨lowered, hlower, hunitary⟩ := (hexact g hop).exists_lower
    obtain ⟨haccepts, t, happly, ht, hn, -, -, hcoeff⟩ :=
      exists_apply_gate_eq hs hwidth hfits hop hlower
    refine ⟨t, happly, ht, hn, ?_⟩
    rw [hs.size_eq] at hcoeff
    rw [normSq_eq_mass ht, normSq_eq_mass hs, hn, mass_congr hcoeff,
      haccepts.mass_image hunitary]
  | measure | reset | barrier =>
    unfold apply
    rw [hop]
    exact ⟨s, rfl, hs, rfl, rfl⟩

theorem exists_applyAll_eq {c : Circuit ℝ} {insts : List (Instruction ℝ)}
    (hfits : ∀ inst ∈ insts, c.Fits inst)
    (hexact : ∀ inst ∈ insts, ∀ g, inst.operation = .gate g → g.kind.IsExact)
    {s : Statevector ℝ} (hs : s.IsRegister) (hwidth : s.numQubits = c.numQubits.toNat) :
    ∃ t, s.applyAll insts = .ok t ∧ s.SameNorm t := by
  apply exists_applyAll_of_step
  · intro inst hinst u hu
    obtain ⟨t, happly, ht⟩ := exists_apply_eq hu.register (hu.width.trans hwidth)
      (hfits inst hinst) (hexact inst hinst)
    exact ⟨t, happly, ht.register, ht.width.trans hu.width, ht.normSq.trans hu.normSq⟩
  · exact ⟨hs, rfl, rfl⟩

/-- A state is made only on a register whose indices are machine words. -/
theorem lt_of_zero_eq_ok {R : Type} [Scalar R] {n : ℕ} {machine : Machine} {s : Statevector R}
    (h : zero n machine = .ok s) : n < 64 := by
  by_contra hn
  simp [zero, bitMask, hn] at h

theorem isNormal_of_zero_eq_ok {n : ℕ} {machine : Machine} {s : Statevector ℝ}
    (h : zero n machine = .ok s) : s.IsNormal n := by
  obtain ⟨s', hs', hnormal⟩ := exists_zero_eq (lt_of_zero_eq_ok h) machine
  cases h.symm.trans hs'
  exact hnormal

theorem IsNormal.normSq_eq_one {s : Statevector ℝ} {n : ℕ} (h : s.IsNormal n) : s.normSq = 1 := by
  rw [normSq_eq_mass h.register, h.width, h.norm]

end Statevector

/-- A valid circuit of exact gates keeps the sum of the squared magnitudes of every state. Started
from zero, the engine finds nothing to complain about after any of the gates, nor before it reads
the final state. -/
theorem Circuit.norm_preserved {c : Circuit ℝ} (hvalid : c.validate = .ok ()) (hexact : c.IsExact) :
    (∀ s : Statevector ℝ, s.IsRegister → s.numQubits = c.numQubits.toNat →
      ∃ t, s.applyAll c.instructions = .ok t ∧ t.IsRegister ∧ t.numQubits = s.numQubits ∧
        t.normSq = s.normSq) ∧
      ∃ steps, c.compile = .ok steps ∧ ∀ machine base,
        Statevector.zero c.numQubits.toNat machine = .ok base →
          (∀ k, ∃ t, base.evolve (steps.take k) = .ok t ∧ t.normSq = 1 ∧
            ∀ context, t.checkNorm context = .ok ()) ∧
          ∃ final, Sampler.finalState c steps machine = .ok final ∧ final.normSq = 1 := by
  have hfits := (validate_eq_ok c).1 hvalid
  obtain ⟨steps, hcompile⟩ := hexact.exists_compile
  have hsteps := compile_fits hvalid hcompile
  have hunitary := compile_isExact hexact.matricesUnitary hcompile
  refine ⟨fun s hs hwidth => ?_, steps, hcompile, fun machine base hbase => ⟨fun k => ?_, ?_⟩⟩
  · obtain ⟨t, happly, ht⟩ := Statevector.exists_applyAll_eq hfits hexact hs hwidth
    exact ⟨t, happly, ht.register, ht.width, ht.normSq⟩
  · obtain ⟨t, hevolve, ht, -⟩ := (Statevector.isNormal_of_zero_eq_ok hbase).exists_evolve_eq
      (fun step hstep => hsteps step (List.mem_of_mem_take hstep))
      (fun step hstep => hunitary step (List.mem_of_mem_take hstep))
    exact ⟨t, hevolve, ht.normSq_eq_one, ht.checkNorm⟩
  · have hn := Statevector.lt_of_zero_eq_ok hbase
    obtain ⟨_, final, -, -, hfinal, hnormal, -⟩ :=
      Sampler.exists_finalState_eq hn hsteps hunitary machine
    exact ⟨final, hfinal, hnormal.normSq_eq_one⟩

/-- A matrix with rational entries that fires on zero, between a Hadamard gate and a rotation, on a
state that is not normalized. -/
theorem Circuit.norm_preserved_reflected :
    let reflection : MatrixGate ℝ :=
      ⟨1, #[.ofReal (3 / 5), .ofReal (4 / 5), .ofReal (4 / 5), .ofReal (-(3 / 5))]⟩
    let reflect := (Gate.ofMatrix reflection).withControls [⟨⟨0⟩, .negative⟩]
    let c : Circuit ℝ := ⟨"reflected", 2, 0, [.standard (.plain .h) [⟨0⟩], .ofGate reflect [⟨1⟩],
      .standard (.rotation .rzz (.value 7)) [⟨1⟩, ⟨0⟩]]⟩
    let s : Statevector ℝ := ⟨2, #[.one, .one, .one, .i], { parallelThreshold := some 1 }⟩
    c.validate = .ok () ∧ c.IsExact ∧
      (∃ t, s.applyAll c.instructions = .ok t ∧ t.normSq = s.normSq) ∧
      ∃ steps final, c.compile = .ok steps ∧ Sampler.finalState c steps {} = .ok final ∧
        final.normSq = 1 := by
  intro reflection reflect c s
  have hvalid : c.validate = .ok () := rfl
  let m : GateMatrix ℝ 2 :=
    #v[#v[.ofReal (3 / 5), .ofReal (4 / 5)], #v[.ofReal (4 / 5), .ofReal (-(3 / 5))]]
  have hrows : m.toMatrix * m.toMatrix.conjTranspose = 1 := by
    ext row col
    fin_cases row <;> fin_cases col <;>
      simp [m, Matrix.mul_apply, GateMatrix.toMatrix_apply, Vector.get_eq_getElem, map_ofNat] <;>
      norm_num
  have hexact : c.IsExact := by
    intro inst hinst g hop
    fin_cases hinst <;> cases hop
    · exact fun p hp => absurd hp List.not_mem_nil
    · exact ⟨.inl rfl, m, rfl, hrows⟩
    · exact fun p hp => ⟨7, List.mem_singleton.1 hp⟩
  obtain ⟨hkept, steps, hcompile, hruns⟩ := Circuit.norm_preserved hvalid hexact
  obtain ⟨t, happly, -, -, hnorm⟩ := hkept s ⟨by decide, rfl⟩ rfl
  obtain ⟨base, hbase, -⟩ := Statevector.exists_zero_eq (n := 2) (by decide) {}
  obtain ⟨-, final, hfinal, hone⟩ := hruns {} base hbase
  exact ⟨hvalid, hexact, ⟨t, happly, hnorm⟩, steps, final, hcompile, hfinal, hone⟩

end QuantumSim
