import Mathlib
import QuantumSim.Proofs.CatCircuit
import QuantumSim.Proofs.Passes

/-!
Cat states. After the first links of the chain the amplitudes differ from zero at two indices only:
at zero, and where all the qubits reached so far are one. This holds of rounded amplitudes as well
as of exact ones, since the chain moves amplitudes by products with ones and zeros.
-/
namespace QuantumSim
open BasisIndex

/-- Whether the first `k` qubits of an index agree and all the others are zero. -/
def catIndex (k i : ℕ) : Bool := i = 0 ∨ i = 2 ^ k - 1

theorem catIndex_iff {k i : ℕ} :
    catIndex k i = true ↔ ∃ b, ∀ p, i.testBit p = (b && decide (p < k)) := by
  rw [catIndex, decide_eq_true_iff]
  constructor
  · rintro (rfl | rfl)
    · exact ⟨false, Nat.zero_testBit⟩
    · exact ⟨true, fun p => Nat.testBit_two_pow_sub_one k p⟩
  · rintro ⟨b, hb⟩
    cases b with
    | false => exact .inl (Nat.eq_of_testBit_eq fun p => by simp [hb])
    | true => exact .inr (Nat.eq_of_testBit_eq fun p => by simp [hb])

/-- Flipping qubit `k + 1` where qubit `k` is one takes the cat indices of `k + 1` qubits to those
of one more. -/
theorem catIndex_link (k i : ℕ) :
    catIndex (k + 1) (if i.testBit k then withBit i (k + 1) !i.testBit (k + 1) else i) =
      catIndex (k + 2) i := by
  set j := if i.testBit k then withBit i (k + 1) !i.testBit (k + 1) else i with hj
  have hbit (p : ℕ) :
      j.testBit p = if p = k + 1 then i.testBit (k + 1) ^^ i.testBit k else i.testBit p := by
    rw [hj]
    by_cases hp : p = k + 1 <;> cases hk : i.testBit k <;> simp [hp]
  rw [Bool.eq_iff_iff, catIndex_iff, catIndex_iff]
  have hbelow (p : ℕ) (hp : p ≠ k + 1) : decide (p < k + 1) = decide (p < k + 2) :=
    decide_eq_decide.2 (by omega)
  apply exists_congr
  intro b
  constructor
  · intro h p
    have hlast : i.testBit k = b := by simpa [hbit] using h k
    have hnext : i.testBit (k + 1) = b := by simpa [hbit, hlast] using h (k + 1)
    by_cases hp : p = k + 1
    · simp [hp, hnext]
    · rw [← hbelow p hp, ← h p, hbit, if_neg hp]
  · intro h p
    by_cases hp : p = k + 1
    · simp [hp, hbit, h]
    · rw [hbit, if_neg hp, h p, hbelow p hp]

section Shape

variable {R : Type} [Scalar R]

/-- Properties of the amplitudes at the cat indices and elsewhere that the circuit keeps: they hold
of what the Hadamard gate makes of a one and a zero, and products with ones and zeros carry them
over. -/
structure CatRules (P : Bool → Amplitude R → Prop) : Prop where
  spread : ∀ b, let lead : Amplitude R := if b then .one else .zero
    P b (.ofReal Scalar.sqrtHalf * lead + .ofReal Scalar.sqrtHalf * .zero) ∧
      P b (.ofReal Scalar.sqrtHalf * lead + -.ofReal Scalar.sqrtHalf * .zero)
  first : ∀ b c x y, P b x → P c y → P b (.one * x + .zero * y)
  second : ∀ b c x y, P b x → P c y → P c (.zero * x + .one * y)

/-- Amplitudes with one property at the cat indices of `k` qubits and another one elsewhere. -/
def CatShape (P : Bool → Amplitude R → Prop) (k : ℕ) (f : ℕ → Amplitude R) : Prop :=
  ∀ i, P (catIndex k i) (f i)

variable {P : Bool → Amplitude R → Prop}

theorem catShape_spread (hP : CatRules P) : CatShape P 1 (Step.pass
    (.gate ⟨.single .h, 0⟩ (.ofStandard (.plain .h)) [⟨0⟩]) Statevector.ground) := by
  intro i
  have hlow : withBit i 0 false = 0 ↔ catIndex 1 i = true := by
    rw [catIndex_iff]
    constructor
    · intro hzero
      refine ⟨i.testBit 0, fun p => ?_⟩
      have hp := testBit_withBit i 0 false p
      rw [hzero, Nat.zero_testBit] at hp
      by_cases h0 : p = 0
      · simp [h0]
      · simpa [h0] using hp.symm
    · rintro ⟨b, hb⟩
      apply Nat.eq_of_testBit_eq
      intro p
      rw [testBit_withBit, Nat.zero_testBit, hb]
      by_cases h0 : p = 0 <;> simp [h0]
  have hhigh : withBit i 0 true ≠ 0 := by
    intro hzero
    have hset := testBit_withBit i 0 true 0
    simp [hzero] at hset
  have hrow : Step.pass (.gate ⟨.single .h, 0⟩ (.ofStandard (.plain .h)) [⟨0⟩])
      Statevector.ground i = (Kernel.singleRow .h 0 Statevector.ground i : Amplitude R) :=
    (Statevector.gatePass_ofStandard _ _ _ _ i).trans (if_pos nofun)
  obtain ⟨hplus, hminus⟩ := hP.spread (catIndex 1 i)
  rw [hrow, Kernel.singleRow, Statevector.ground, Statevector.ground, if_neg hhigh,
    if_congr hlow rfl rfl]
  split
  · exact hminus
  · exact hplus

theorem catShape_link (hP : CatRules P) {k : ℕ} (hk : k + 1 < 2 ^ 32) {f : ℕ → Amplitude R}
    (hf : CatShape P (k + 1) f) : CatShape P (k + 2) ((Circuit.catStep k).pass f) := by
  intro i
  have hrow : (Circuit.catStep k).pass f i =
      if i.testBit k then Kernel.singleRow .x (k + 1) f i else f i := by
    apply (Statevector.gatePass_ofStandard _ _ _ f i).trans
    simp only [LoweredGate.targets, Operator.rowAt, List.take_succ_cons, List.take_zero,
      List.drop_succ_cons, List.drop_zero, List.map_cons, List.map_nil, List.forall_mem_singleton,
      Qubit.index_toUInt32 hk, Qubit.index_toUInt32 (Nat.lt_of_succ_lt hk)]
  rw [← catIndex_link, hrow]
  cases i.testBit k with
  | false => exact hf i
  | true =>
    rw [if_pos rfl, if_pos rfl, Kernel.singleRow]
    cases hnext : i.testBit (k + 1) with
    | false => exact hP.second _ _ _ _ (hf (withBit i (k + 1) false)) (hf (withBit i (k + 1) true))
    | true => exact hP.first _ _ _ _ (hf (withBit i (k + 1) false)) (hf (withBit i (k + 1) true))

/-- Link by link the cat indices get longer. -/
theorem catShape_links (hP : CatRules P) {k : ℕ} (hk : k < 2 ^ 32) {f : ℕ → Amplitude R}
    (hf : CatShape P 1 f) :
    CatShape P (k + 1) (Step.passed ((List.range k).map Circuit.catStep) f) := by
  induction k with
  | zero => exact hf
  | succ k ih =>
    rw [List.range_succ, List.map_append, Step.passed_append]
    exact catShape_link hP hk (ih (Nat.lt_of_succ_lt hk))

/-- The whole circuit leaves amplitudes of a cat state. -/
theorem catShape_passed (hP : CatRules P) {n : UInt32} (hpos : 1 ≤ n.toNat) :
    CatShape P n.toNat (Step.passed (Circuit.catSteps n) Statevector.ground) := by
  have hreadings : ∀ step ∈ (Qubit.range n).map fun q => (.measure [(q, ⟨q.id⟩)] : Step R),
      step.isGate = false := by
    intro step hstep
    obtain ⟨q, -, rfl⟩ := List.mem_map.1 hstep
    rfl
  have hlinks := catShape_links hP ((Nat.sub_le _ 1).trans_lt n.toNat_lt) (catShape_spread hP)
  rw [Nat.sub_add_cancel hpos] at hlinks
  rw [Circuit.catSteps, ← List.cons_append, Step.passed_append, Step.passed_eq_self hreadings]
  exact hlinks

end Shape

section Exact

theorem catRules_exact : CatRules fun b (a : Amplitude ℝ) =>
    a.toComplex = if b then ((1 / Real.sqrt 2 : ℝ) : ℂ) else 0 := by
  constructor
  · intro b
    cases b <;> simp
  · rintro b c x y hx -
    simpa using hx
  · rintro b c x y - hy
    simpa using hy

/-- Over exact amplitudes the circuit leaves the cat state, on registers of any size. -/
theorem toComplex_passed_cat {n : UInt32} (hpos : 1 ≤ n.toNat) (i : ℕ) :
    (Step.passed (Circuit.catSteps n) Statevector.ground i).toComplex =
      if i = 0 ∨ i = 2 ^ n.toNat - 1 then ((1 / Real.sqrt 2 : ℝ) : ℂ) else 0 := by
  have hshape := catShape_passed catRules_exact hpos i
  simpa [catIndex] using hshape

end Exact

end QuantumSim
