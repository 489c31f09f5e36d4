import Mathlib
import QuantumSim.Proofs.Replay

/-!
Projective measurement and reset. A measured qubit keeps its value: the state is the part on that
value, rescaled to norm one, and measuring the qubit again changes nothing. A reset moves that part
onto the value zero.
-/
namespace QuantumSim
open BasisIndex

/-- Amplitudes are equal if they stand for one complex number. -/
theorem Amplitude.toComplex_injective : Function.Injective (toComplex : Amplitude ℝ → ℂ) := by
  rintro ⟨a, b⟩ ⟨c, d⟩ h
  obtain ⟨hre, him⟩ := Complex.ext_iff.1 h
  exact congrArg₂ mk hre him

theorem onBit_of_ne {q : ℕ} {b c : Bool} (h : b ≠ c) (v : ℕ → ℂ) :
    onBit q b (onBit q c v) = fun _ => 0 := by
  funext i
  unfold onBit
  split
  next hi => exact if_neg (hi ▸ h)
  · rfl

theorem onBit_idem (q : ℕ) (b : Bool) (v : ℕ → ℂ) : onBit q b (onBit q b v) = onBit q b v := by
  funext i
  unfold onBit
  split <;> rfl

theorem onBit_smul (q : ℕ) (b : Bool) (r : ℂ) (v : ℕ → ℂ) :
    onBit q b (fun i => r * v i) = fun i => r * onBit q b v i := by
  funext i
  unfold onBit
  split
  · rfl
  · exact (mul_zero r).symm

namespace Statevector

variable {s : Statevector ℝ} {n q : ℕ}

/-- The probability of reading a value from a qubit. -/
noncomputable def probability (s : Statevector ℝ) (q : ℕ) (b : Bool) : ℝ :=
  ∑ i ∈ Finset.range s.size with i.testBit q = b, Complex.normSq (s.coefficient i)

theorem probability_eq_mass (hs : s.IsRegister) (q : ℕ) (b : Bool) :
    s.probability q b = mass s.numQubits (onBit q b s.coefficient) := by
  unfold probability mass
  rw [Finset.sum_filter, hs.size_eq]
  exact Finset.sum_congr rfl fun i _ => (normSq_onBit q b s.coefficient i).symm

theorem isNormal_of_normSq (hs : s.IsRegister) (hnorm : s.normSq = 1) :
    s.IsNormal s.numQubits :=
  ⟨hs, rfl, normSq_eq_mass hs ▸ hnorm⟩

theorem ext_coefficient {t : Statevector ℝ} (hwidth : s.numQubits = t.numQubits)
    (hmachine : s.machine = t.machine) (hsize : s.size = t.size)
    (h : ∀ i < s.size, s.coefficient i = t.coefficient i) : s = t := by
  have hamps : s.amplitudes = t.amplitudes :=
    Kernel.ext_valueAt hsize fun i hi => Amplitude.toComplex_injective (h i hi)
  cases s
  cases t
  simp_all

/-- A measurement of a normal state delivers the outcome that its draw selects. -/
theorem IsNormal.measureWith_eq (h : s.IsNormal n) (hq : q < n) {draw : ℝ} (h0 : 0 ≤ draw)
    (h1 : draw < 1) {outcome : Bool}
    (hdraw : decide (draw < mass n (onBit q true s.coefficient)) = outcome) :
    s.measureWith q draw =
      .ok (outcome, s.collapse (2 ^ q) outcome (mass n (onBit q outcome s.coefficient))) := by
  obtain ⟨rfl⟩ := h.width
  unfold measureWith
  rw [outcomes_eq_ok h.register h.norm hq, ok_bind]
  exact h.project_eq q h0 h1 hdraw

/-- A collapsed state reads the value it was collapsed to with certainty. -/
theorem IsNormal.mass_onBit_collapse (h : s.IsNormal n) {outcome : Bool}
    (hpos : 0 < mass n (onBit q outcome s.coefficient)) (b : Bool) :
    mass n (onBit q b
      (s.collapse (2 ^ q) outcome (mass n (onBit q outcome s.coefficient))).coefficient) =
        if b = outcome then 1 else 0 := by
  have hcollapsed := (h.collapse hpos).norm
  rw [funext (coefficient_collapse s q outcome _)] at hcollapsed ⊢
  rw [onBit_smul]
  split
  next heq => rw [heq, onBit_idem, hcollapsed]
  next hne => simp [onBit_of_ne hne, mass]

/-- Collapsing a state to the only value it has is without effect. -/
theorem collapse_collapse (s : Statevector ℝ) (q : ℕ) (outcome : Bool) (p : ℝ) :
    (s.collapse (2 ^ q) outcome p).collapse (2 ^ q) outcome 1 = s.collapse (2 ^ q) outcome p := by
  refine ext_coefficient (by rfl) (by rfl) (by simp [collapse, size]) fun i _ => ?_
  rw [coefficient_collapse, funext (coefficient_collapse s q outcome p), onBit_smul, onBit_idem]
  simp

/-- A qubit that was measured keeps its value and the state, whatever is drawn next. -/
theorem IsNormal.measureWith_collapse (h : s.IsNormal n) (hq : q < n) {outcome : Bool}
    (hpos : 0 < mass n (onBit q outcome s.coefficient)) {draw : ℝ} (h0 : 0 ≤ draw)
    (h1 : draw < 1) :
    (s.collapse (2 ^ q) outcome (mass n (onBit q outcome s.coefficient))).measureWith q draw =
      .ok (outcome, s.collapse (2 ^ q) outcome (mass n (onBit q outcome s.coefficient))) := by
  have hmass := h.mass_onBit_collapse hpos
  have hdraw : decide (draw < mass n (onBit q true
      (s.collapse (2 ^ q) outcome (mass n (onBit q outcome s.coefficient))).coefficient)) =
        outcome := by
    rw [hmass true]
    cases outcome
    · simpa using h0
    · simpa using h1
  rw [(h.collapse hpos).measureWith_eq hq h0 h1 hdraw, hmass outcome, if_pos rfl,
    collapse_collapse]

/-- A flip swaps the amplitudes that differ in the bit of the qubit. -/
theorem IsNormal.exists_flip_coefficient (h : s.IsNormal n) (hq : q < n) :
    ∃ t, s.flip q = .ok t ∧ t.IsNormal n ∧
      ∀ i, t.coefficient i = s.coefficient (withBit i q !i.testBit q) := by
  obtain ⟨t, hflip, ht⟩ := h.exists_flip_eq hq
  refine ⟨t, hflip, ht, fun i => ?_⟩
  obtain ⟨rfl⟩ := h.width
  unfold flip at hflip
  rw [Kernel.applySingle_eq _ hq h.register.width _ h.register.size] at hflip
  obtain ⟨rfl⟩ := hflip
  unfold coefficient
  by_cases hi : i < 2 ^ s.numQubits
  · rw [Kernel.valueAt_transform _ (h.register.size.symm ▸ hi)]
    cases hbit : i.testBit q <;>
      simp [Kernel.singlePass, Kernel.singleRow, ControlMask.fires, GateMatrix.x, hbit,
        Vector.get_eq_getElem]
  · -- a flipped index lies in the register exactly if the index does
    have hflipped : ¬ withBit i q (!i.testBit q) < 2 ^ s.numQubits := by
      intro hlt
      have hback := withBit_lt (i.testBit q) hlt hq
      rw [withBit_withBit, withBit_self rfl] at hback
      exact hi hback
    simp [Kernel.valueAt, h.register.size, hi, hflipped]

/-- Clearing a qubit that has the given value moves the state onto zero. -/
theorem IsNormal.exists_clear_eq (h : s.IsNormal n) (hq : q < n) {outcome : Bool}
    (hvalue : ∀ i, i.testBit q ≠ outcome → s.coefficient i = 0) :
    ∃ t, s.clear q outcome = .ok t ∧ t.IsNormal n ∧
      ∀ i, t.coefficient i = if i.testBit q then 0 else s.coefficient (withBit i q outcome) := by
  cases outcome with
  | false =>
    refine ⟨s, rfl, h, fun i => ?_⟩
    cases hi : i.testBit q with
    | false => rw [withBit_self hi]; rfl
    | true => exact hvalue i (by simp [hi])
  | true =>
    obtain ⟨t, hflip, ht, hcoeff⟩ := h.exists_flip_coefficient hq
    refine ⟨t, hflip, ht, fun i => ?_⟩
    rw [hcoeff]
    cases hi : i.testBit q with
    | false => rfl
    | true => exact hvalue _ (by simp)

section Sampled

variable {G : Type} [RandomSource G]

/-- A sampled measurement uses up one draw if the norm is accepted, whether it delivers or not. -/
theorem run_measure_of_near (hs : s.IsRegister) (hnear : |s.normSq - 1| ≤ Scalar.tolerance)
    (hq : q < s.numQubits) (g : G) :
    (s.measure q : Sampling ℝ G (Bool × Statevector ℝ)).run g =
      (s.measureWith q (RandomSource.draw ℝ g).1, (RandomSource.draw ℝ g).2) := by
  unfold measure measureWith
  rw [outcomes_eq_ok_of_near hs hnear hq]
  rfl

theorem IsNormal.run_measure (h : s.IsNormal n) (hq : q < n) (g : G) :
    (s.measure q : Sampling ℝ G (Bool × Statevector ℝ)).run g =
      (s.measureWith q (RandomSource.draw ℝ g).1, (RandomSource.draw ℝ g).2) := by
  obtain ⟨rfl⟩ := h.width
  exact run_measure_of_near h.register (abs_normSq_sub_one_le h.register h.norm) hq g

theorem IsNormal.run_reset (h : s.IsNormal n) (hq : q < n) (g : G) :
    (s.reset q : Sampling ℝ G (Statevector ℝ)).run g =
      (s.resetWith q (RandomSource.draw ℝ g).1, (RandomSource.draw ℝ g).2) := by
  unfold reset resetWith
  have hrun := h.run_measure hq g
  cases hmeasured : s.measureWith q (RandomSource.draw ℝ g).1 with
  | ok measured =>
    rw [hmeasured] at hrun
    exact run_bind_of_ok hrun
  | error cause =>
    rw [hmeasured] at hrun
    exact run_bind_of_error hrun

end Sampled

/-- Measuring a qubit of a state with norm one reads one exactly if the draw is below the
probability of one. The amplitudes off the outcome are cleared and the others divided by the root of
its probability; the norm stays one, and another measurement of the qubit repeats the outcome and
leaves the state as it is. A reset moves the collapsed state onto zero. Sampled runs do the same
with the next draw of their source. -/
theorem measureWith_resetWith_eq (hs : s.IsRegister) (hnorm : s.normSq = 1)
    (hq : q < s.numQubits) {draw : ℝ} (h0 : 0 ≤ draw) (h1 : draw < 1) :
    ∃ outcome t u, s.measureWith q draw = .ok (outcome, t) ∧
      (outcome = true ↔ draw < s.probability q true) ∧
      (t.IsRegister ∧ t.numQubits = s.numQubits ∧ t.normSq = 1) ∧
      (∀ i, t.coefficient i = if i.testBit q = outcome
        then s.coefficient i / Real.sqrt (s.probability q outcome) else 0) ∧
      (∀ again, 0 ≤ again → again < 1 → t.measureWith q again = .ok (outcome, t)) ∧
      s.resetWith q draw = .ok u ∧
      (u.IsRegister ∧ u.numQubits = s.numQubits ∧ u.normSq = 1) ∧
      (∀ i, u.coefficient i =
        if i.testBit q = true then 0 else t.coefficient (withBit i q outcome)) ∧
      ∀ (G : Type) [RandomSource G] (g : G), (RandomSource.draw ℝ g).1 = draw →
        (s.measure q : Sampling ℝ G (Bool × Statevector ℝ)).run g =
          (.ok (outcome, t), (RandomSource.draw ℝ g).2) ∧
        (s.reset q : Sampling ℝ G (Statevector ℝ)).run g =
          (.ok u, (RandomSource.draw ℝ g).2) := by
  have h := isNormal_of_normSq hs hnorm
  obtain ⟨outcome, hdraw⟩ : ∃ outcome,
      decide (draw < mass s.numQubits (onBit q true s.coefficient)) = outcome := ⟨_, rfl⟩
  have hpos : 0 < mass s.numQubits (onBit q outcome s.coefficient) :=
    hdraw ▸ h.mass_selected_pos q h0 h1
  have hmeasure := h.measureWith_eq hq h0 h1 hdraw
  have ht := h.collapse hpos
  have hcoeff (i : ℕ) :
      (s.collapse (2 ^ q) outcome
          (mass s.numQubits (onBit q outcome s.coefficient))).coefficient i =
        if i.testBit q = outcome
          then s.coefficient i / Real.sqrt (s.probability q outcome) else 0 := by
    rw [coefficient_collapse, probability_eq_mass hs, onBit]
    split
    · push_cast
      ring
    · exact mul_zero _
  obtain ⟨u, hclear, hu, hucoeff⟩ :=
    ht.exists_clear_eq hq fun i (hi : i.testBit q ≠ outcome) => (hcoeff i).trans (if_neg hi)
  have hreset : s.resetWith q draw = .ok u := bind_eq_ok.2 ⟨_, hmeasure, hclear⟩
  refine ⟨outcome, _, u, hmeasure, ?_, ⟨ht.register, rfl, ht.normSq_eq_one⟩, hcoeff,
    fun again => h.measureWith_collapse hq hpos, hreset,
    ⟨hu.register, hu.width, hu.normSq_eq_one⟩, hucoeff, ?_⟩
  · rw [← hdraw, probability_eq_mass hs]
    exact decide_eq_true_iff
  · rintro G _ g rfl
    rw [h.run_measure hq, h.run_reset hq, hmeasure, hreset]
    exact ⟨rfl, rfl⟩

/-- Two entangled qubits: a draw below the probability of one reads one, and the reset leaves the
other qubit at one; a draw that meets the probability reads zero. -/
theorem measureWith_resetWith_eq_entangled :
    let s : Statevector ℝ := ⟨2, #[.ofReal (3 / 5), .zero, .zero, ⟨0, 4 / 5⟩], {}⟩
    s.IsRegister ∧ s.normSq = 1 ∧ s.probability 1 true = 16 / 25 ∧
      (∃ t u, s.measureWith 1 (1 / 2) = .ok (true, t) ∧ t.coefficient 0 = 0 ∧
        t.coefficient 3 = Complex.I ∧ s.resetWith 1 (1 / 2) = .ok u ∧
        u.coefficient 1 = Complex.I ∧ u.coefficient 3 = 0) ∧
      ∃ t, s.measureWith 1 (16 / 25) = .ok (false, t) ∧ t.coefficient 0 = 1 := by
  intro s
  have hs : s.IsRegister := ⟨by decide, rfl⟩
  have hzero : s.coefficient 0 = (3 / 5 : ℝ) := Amplitude.toComplex_ofReal _
  have hthree : s.coefficient 3 = (4 / 5 : ℝ) * Complex.I := by
    apply Complex.ext <;> simp [s, coefficient, Kernel.valueAt, Amplitude.toComplex]
  have hone : s.coefficient 1 = 0 := Amplitude.toComplex_zero
  have htwo : s.coefficient 2 = 0 := Amplitude.toComplex_zero
  have hp (b : Bool) : s.probability 1 b = if b then 16 / 25 else 9 / 25 := by
    rw [probability, Finset.sum_filter]
    cases b <;> simp [s, size, Finset.sum_range_succ, Nat.testBit, hzero, hone, htwo, hthree] <;>
      norm_num
  have hnorm : s.normSq = 1 := by
    rw [normSq_eq_mass hs]
    simp [s, mass, Finset.sum_range_succ, hzero, hone, htwo, hthree]
    norm_num
  have hsqrt : Real.sqrt (16 / 25) = 4 / 5 ∧ Real.sqrt (9 / 25) = 3 / 5 := by
    constructor
    · rw [Real.sqrt_eq_iff_mul_self_eq (by norm_num) (by norm_num)]
      norm_num
    · rw [Real.sqrt_eq_iff_mul_self_eq (by norm_num) (by norm_num)]
      norm_num
  refine ⟨hs, hnorm, hp true, ?_, ?_⟩
  · obtain ⟨outcome, t, u, hmeasure, houtcome, -, ht, -, hreset, -, hu, -⟩ :=
      measureWith_resetWith_eq hs hnorm (by decide : 1 < s.numQubits)
        (by norm_num : (0 : ℝ) ≤ 1 / 2) (by norm_num)
    obtain rfl : outcome = true := houtcome.2 (by rw [hp]; norm_num)
    have hi : t.coefficient 3 = Complex.I := by
      rw [ht, if_pos (by decide), hp, hthree, if_pos rfl, hsqrt.1]
      push_cast
      field_simp
    refine ⟨t, u, hmeasure, ?_, hi, hreset, ?_, ?_⟩
    · rw [ht, if_neg (by decide)]
    · rw [hu, if_neg (by decide)]
      exact hi
    · rw [hu, if_pos (by decide)]
  · obtain ⟨outcome, t, -, hmeasure, houtcome, -, ht, -⟩ :=
      measureWith_resetWith_eq hs hnorm (by decide : 1 < s.numQubits)
        (by norm_num : (0 : ℝ) ≤ 16 / 25) (by norm_num)
    obtain rfl : outcome = false :=
      Bool.eq_false_iff.2 fun htrue => lt_irrefl _ ((houtcome.1 htrue).trans_eq (hp true))
    refine ⟨t, hmeasure, ?_⟩
    rw [ht, if_pos (by decide), hp, hzero, if_neg (by decide), hsqrt.2]
    push_cast
    exact div_self (by norm_num)

end Statevector

end QuantumSim
