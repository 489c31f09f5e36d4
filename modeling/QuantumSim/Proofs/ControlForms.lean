import Mathlib
import QuantumSim.Proofs.Application
import QuantumSim.Proofs.Exact

/-!
Two ways to write a control. The leading operands of a controlled gate are controls that fire on
one, and so are positive extra controls of its base gate. The mask that a kernel tests does not show
in which way or in which order the controls were written, so that both forms run the same
operations on the same amplitudes.
-/
namespace QuantumSim

/-- The gate that a controlled gate applies to its targets, and the number of leading operands that
control it. -/
def StandardGate.base? {α : Type} : StandardGate α → Option (StandardGate α × ℕ)
  | ⟨.cx, a⟩ => some (⟨.x, a⟩, 1)
  | ⟨.cy, a⟩ => some (⟨.y, a⟩, 1)
  | ⟨.cz, a⟩ => some (⟨.z, a⟩, 1)
  | ⟨.ch, a⟩ => some (⟨.h, a⟩, 1)
  | ⟨.crx, a⟩ => some (⟨.rx, a⟩, 1)
  | ⟨.cry, a⟩ => some (⟨.ry, a⟩, 1)
  | ⟨.crz, a⟩ => some (⟨.rz, a⟩, 1)
  | ⟨.cp, a⟩ => some (⟨.p, a⟩, 1)
  | ⟨.ccx, a⟩ => some (⟨.x, a⟩, 2)
  | ⟨.cswap, a⟩ => some (⟨.swap, a⟩, 1)
  | _ => none

section Base

variable {R : Type} [Scalar R] {k : ℕ}

theorem StandardGate.numQubits_base {α : Type} {g base : StandardGate α}
    (h : g.base? = some (base, k)) : g.numQubits.toNat = k + base.numQubits.toNat := by
  obtain ⟨symbol, angles⟩ := g
  cases symbol <;> cases h <;> rfl

/-- A controlled gate applies the operator of its base gate. -/
theorem StandardGate.lower_base {g base : StandardGate R} (h : g.base? = some (base, k)) :
    base.lower.controls = 0 ∧ g.lower = ⟨base.lower.operator, k⟩ := by
  obtain ⟨symbol, angles⟩ := g
  cases symbol <;> cases h <;> exact ⟨rfl, rfl⟩

/-- Both have the same angles, and resolving them fails or succeeds alike. -/
theorem StandardGate.resolve_base {α β ε : Type} (f : α → Except ε β) {g base : StandardGate α}
    (h : g.base? = some (base, k)) :
    (∃ e, g.resolve f = .error e ∧ base.resolve f = .error e) ∨
      ∃ g' base', g.resolve f = .ok g' ∧ base.resolve f = .ok base' ∧
        g'.base? = some (base', k) := by
  obtain ⟨symbol, angles⟩ := g
  cases symbol <;> cases h
  all_goals
    cases hangles : angles.mapM f with
    | error e => exact .inl ⟨e, congrArg (· >>= _) hangles, congrArg (· >>= _) hangles⟩
    | ok values =>
      exact .inr ⟨_, _, congrArg (· >>= _) hangles, congrArg (· >>= _) hangles, rfl⟩

end Base

/-- Which indices are selected does not depend on the order of the controls, or on which of them are
leading operands. -/
theorem selected_perm {leading : List Qubit} {controls merged : List Control}
    (h : merged.Perm (controls ++ leading.map (⟨·, .positive⟩))) (i : ℕ) :
    Selected [] merged i ↔ Selected leading controls i := by
  have hmerged : (∀ c ∈ merged, c.firesOn (i.testBit c.qubit.index) = true) ↔
      ∀ c ∈ controls ++ leading.map (⟨·, .positive⟩),
        c.firesOn (i.testBit c.qubit.index) = true :=
    forall_congr' fun c => imp_congr_left h.mem_iff
  unfold Selected
  rw [hmerged, List.forall_mem_append, List.forall_mem_map]
  simp [Control.firesOn, and_comm]

section Forms

variable {R : Type} {c : Circuit R} {g base : StandardGate (Parameter R)} {k : ℕ}
  {leading targets : List Qubit} {controls merged : List Control}

/-- If a controlled gate fits a circuit, so does its base gate with all controls beside it. -/
theorem Circuit.Fits.baseForm (hbase : g.base? = some (base, k)) (hleading : leading.length = k)
    (hmerged : merged.Perm (controls ++ leading.map (⟨·, .positive⟩)))
    {label label' : Option String}
    (hfits : c.Fits (.ofGate ⟨.standard g, controls, label⟩ (leading ++ targets))) :
    c.Fits (.ofGate ⟨.standard base, merged, label'⟩ targets) := by
  have hcontrols : (merged.map (·.qubit)).Perm (controls.map (·.qubit) ++ leading) := by
    simpa [Function.comp_def] using hmerged.map (·.qubit)
  have hqubits : (targets ++ merged.map (·.qubit)).Perm
      (leading ++ targets ++ controls.map (·.qubit)) := by
    apply (hcontrols.append_left targets).trans
    rw [List.append_assoc, ← List.append_assoc targets]
    exact List.perm_append_comm
  constructor
  · intro g' hg'
    cases hg'
    have hlength : (leading ++ targets).length = g.numQubits.toNat := hfits.gate _ rfl
    have hnumber := StandardGate.numQubits_base hbase
    rw [List.length_append] at hlength
    show targets.length = base.numQubits.toNat
    omega
  · intro hmeasure
    cases hmeasure
  · exact hqubits.nodup_iff.2 hfits.nodup
  · exact fun q hq => hfits.qubits q (hqubits.mem_iff.1 hq)
  · exact hfits.clbits

namespace Statevector

variable [Scalar R] {s : Statevector R}

/-- Two lowered gates with one operator, the same targets and the same selected indices have the
same image. -/
theorem applyLowered_congr (hs : s.IsRegister) {a b : LoweredGate R} {gateA gateB : Gate R}
    {as bs : List Qubit} (ha : a.Accepts s.numQubits gateA as) (hb : b.Accepts s.numQubits gateB bs)
    (hoperator : a.operator = b.operator) (htargets : a.targets as = b.targets bs)
    (hselected : ∀ i, Selected (as.take a.controls) gateA.controls i ↔
      Selected (bs.take b.controls) gateB.controls i) :
    s.applyLowered a gateA as = s.applyLowered b gateB bs := by
  rw [applyLowered_eq hs ha, applyLowered_eq hs hb]
  apply s.ok_transform_congr
  intro i _
  simp only [gatePass, hoperator, htargets, hselected]

/-- A controlled gate on its leading operands and targets, with extra controls, does to every
register what its base gate does on the targets, with the extra controls and a positive one for each
leading operand in any order: the same amplitudes, or the same failure of an angle. With finite
angles there is no failure. -/
theorem apply_controlled_eq_apply_base (hs : s.IsRegister)
    (hwidth : c.numQubits.toNat = s.numQubits) (hbase : g.base? = some (base, k))
    (hleading : leading.length = k)
    (hmerged : merged.Perm (controls ++ leading.map (⟨·, .positive⟩)))
    (label label' : Option String)
    (hcheck : c.check (.ofGate ⟨.standard g, controls, label⟩ (leading ++ targets)) = .ok ()) :
    c.check (.ofGate ⟨.standard base, merged, label'⟩ targets) = .ok () ∧
      s.apply (.ofGate ⟨.standard g, controls, label⟩ (leading ++ targets)) =
        s.apply (.ofGate ⟨.standard base, merged, label'⟩ targets) ∧
      ((GateKind.standard g).Ready →
        ∃ t, s.apply (.ofGate ⟨.standard g, controls, label⟩ (leading ++ targets)) = .ok t ∧
          t.numQubits = s.numQubits ∧ t.size = s.size) := by
  have hfits := (c.check_eq_ok _).1 hcheck
  have hfits' : c.Fits (.ofGate ⟨.standard base, merged, label'⟩ targets) :=
    hfits.baseForm hbase hleading hmerged
  refine ⟨(c.check_eq_ok _).2 hfits', ?_, ?_⟩
  · unfold apply
    simp only [Instruction.ofGate, GateKind.lower]
    obtain ⟨e, hg, hb⟩ | ⟨g', base', hg, hb, hbase'⟩ :=
      StandardGate.resolve_base (Parameter.resolve .empty) hbase
    · rw [hg, hb]
      rfl
    · obtain ⟨hnone, hlower⟩ := StandardGate.lower_base hbase'
      have ha := hwidth ▸ hfits.accepts rfl (GateKind.lower_standard_eq_ok.2 ⟨g', hg, rfl⟩)
      have hb' := hwidth ▸ hfits'.accepts rfl (GateKind.lower_standard_eq_ok.2 ⟨base', hb, rfl⟩)
      rw [hg, hb]
      apply applyLowered_congr hs ha hb'
      · rw [hlower]
      · simp [LoweredGate.targets, hlower, hnone, ← hleading, Instruction.ofGate]
      · intro i
        have hperm := selected_perm hmerged i
        simp [hlower, hnone, ← hleading, hperm, Instruction.ofGate]
  · intro hready
    obtain ⟨lowered, hlower⟩ := hready.exists_lower
    have haccepts := hwidth ▸ hfits.accepts rfl hlower
    have happly := applyLowered_eq hs haccepts
    refine ⟨_, bind_eq_ok.2 ⟨lowered, hlower, happly⟩, rfl, ?_⟩
    exact Kernel.size_transform _ _

end Statevector

end Forms

/-- A turn of qubit 0 by qubit 2, beside a negative and a positive extra control, and the same turn
with three extra controls in another order. -/
theorem Statevector.apply_controlled_eq_apply_base_turn :
    let c : Circuit ℝ := .withSize "turned" 4 0
    let s : Statevector ℝ := ⟨4, Array.replicate 16 .one, {}⟩
    let turn : Gate ℝ :=
      ⟨.standard (.rotation .crz (.value 1)), [⟨⟨1⟩, .negative⟩, ⟨⟨3⟩, .positive⟩], some "turn"⟩
    let plain : Gate ℝ := ⟨.standard (.rotation .rz (.value 1)),
      [⟨⟨2⟩, .positive⟩, ⟨⟨3⟩, .positive⟩, ⟨⟨1⟩, .negative⟩], none⟩
    c.check (.ofGate turn [⟨2⟩, ⟨0⟩]) = .ok () ∧ turn.kind.Ready ∧
      plain.controls.Perm (turn.controls ++ [⟨2⟩].map (⟨·, .positive⟩)) ∧
      ∃ t, s.apply (.ofGate turn [⟨2⟩, ⟨0⟩]) = .ok t ∧ s.apply (.ofGate plain [⟨0⟩]) = .ok t := by
  intro c s turn plain
  have hcheck : c.check (.ofGate turn [⟨2⟩, ⟨0⟩]) = .ok () := rfl
  have hready : turn.kind.Ready := by
    intro p hp
    obtain rfl : p = .value 1 := List.mem_singleton.1 hp
    exact ⟨1, rfl, rfl⟩
  have hmerged : plain.controls.Perm (turn.controls ++ [⟨2⟩].map (⟨·, .positive⟩)) := by decide
  have hs : s.IsRegister := ⟨by decide, by simp [s]⟩
  obtain ⟨-, hsame, hruns⟩ :=
    apply_controlled_eq_apply_base hs rfl rfl rfl hmerged (some "turn") none hcheck
  obtain ⟨t, ht, -⟩ := hruns hready
  exact ⟨hcheck, hready, hmerged, t, ht, hsame ▸ ht⟩

end QuantumSim
