import Mathlib
import QuantumSim.Proofs.Projection

/-!
Measurements of states that pass the norm check without having norm one. A draw is compared with the
probability of one alone. If one is the only possible value and its probability falls short of one,
a draw from the gap selects zero, and the measurement fails.
-/
namespace QuantumSim
namespace Statevector

variable {s : Statevector ℝ} {q : ℕ} {draw : ℝ}

/-- Zero is impossible, and the draw selects it all the same. -/
def SelectsImpossible (s : Statevector ℝ) (q : ℕ) (draw : ℝ) : Prop :=
  s.probability q false = 0 ∧ s.probability q true ≤ draw

theorem probability_nonneg (hs : s.IsRegister) (q : ℕ) (b : Bool) : 0 ≤ s.probability q b :=
  probability_eq_mass hs q b ▸ mass_nonneg _ _

/-- Of a state that passes the norm check the outcome probabilities add up to one within the
tolerance. -/
theorem abs_probability_add_sub_one_le (hs : s.IsRegister)
    (hnear : |s.normSq - 1| ≤ Scalar.tolerance) (q : ℕ) :
    |s.probability q false + s.probability q true - 1| ≤ Scalar.tolerance := by
  rwa [normSq_eq_mass hs, ← mass_onBit_add s.numQubits q, ← probability_eq_mass hs,
    ← probability_eq_mass hs] at hnear

/-- A measurement of such a state is decided by the outcome probabilities and the draw. -/
theorem measureWith_eq_project (hs : s.IsRegister) (hnear : |s.normSq - 1| ≤ Scalar.tolerance)
    (hq : q < s.numQubits) :
    s.measureWith q draw =
      s.project q (2 ^ q) (s.probability q false) (s.probability q true) draw := by
  unfold measureWith
  rw [outcomes_eq_ok_of_near hs hnear hq, probability_eq_mass hs, probability_eq_mass hs]
  rfl

/-- The outcome that a draw selects is possible, unless it is zero and zero is not. -/
theorem probability_selected_pos (hs : s.IsRegister) (h0 : 0 ≤ draw)
    (hpossible : ¬s.SelectsImpossible q draw) :
    0 < s.probability q (decide (draw < s.probability q true)) := by
  by_cases hdraw : draw < s.probability q true
  · rw [decide_eq_true hdraw]
    exact h0.trans_lt hdraw
  · rw [decide_eq_false hdraw]
    have hne : s.probability q false ≠ 0 := fun hzero => hpossible ⟨hzero, not_lt.1 hdraw⟩
    exact (probability_nonneg hs q false).lt_of_ne' hne

theorem project_eq_error (h : s.SelectsImpossible q draw) :
    s.project q (2 ^ q) (s.probability q false) (s.probability q true) draw =
      .error (.inconsistentMeasurement q.toUInt32 (.impossible false 0)) := by
  unfold project
  dsimp only
  rw [Scalar.lt_real, decide_eq_false (not_lt.2 h.2), h.1]
  simp [Scalar.le_real]

/-- A draw that selects an impossible outcome lies in the gap that the tolerance leaves. -/
theorem SelectsImpossible.one_sub_tolerance_le (h : s.SelectsImpossible q draw)
    (hs : s.IsRegister) (hnear : |s.normSq - 1| ≤ Scalar.tolerance) :
    1 - Scalar.tolerance ≤ draw := by
  have hsum := abs_probability_add_sub_one_le hs hnear q
  rw [h.1, zero_add] at hsum
  have hlow := (abs_le.1 hsum).1
  have hdraw := h.2
  linarith

/-- The collapse to a possible outcome can be cleared and has norm one. -/
theorem exists_clear_collapse (hs : s.IsRegister) (hq : q < s.numQubits) {outcome : Bool}
    (hpos : 0 < s.probability q outcome) :
    (s.collapse (2 ^ q) outcome (s.probability q outcome)).IsNormal s.numQubits ∧
      ∃ u, (s.collapse (2 ^ q) outcome (s.probability q outcome)).clear q outcome = .ok u ∧
        u.IsNormal s.numQubits := by
  rw [probability_eq_mass hs] at hpos ⊢
  have hcollapsed := isNormal_collapse hs hpos
  constructor
  · exact hcollapsed
  · cases outcome with
    | false => exact ⟨_, rfl, hcollapsed⟩
    | true => exact hcollapsed.exists_flip_eq hq

/-- A state that passes the norm check can be measured and reset with every draw but those that
select the value zero of a qubit that is never zero: the outcome is the one the draw selects, it is
possible, and the state has norm one afterwards. The other draws lie within the tolerance below one.
They fail, although the norm was accepted. -/
theorem measureWith_of_checkNorm (hs : s.IsRegister) {context : NormContext}
    (hnorm : s.checkNorm context = .ok ()) (hq : q < s.numQubits) (h0 : 0 ≤ draw) :
    (¬s.SelectsImpossible q draw → ∃ outcome t u, s.measureWith q draw = .ok (outcome, t) ∧
      (outcome = true ↔ draw < s.probability q true) ∧ 0 < s.probability q outcome ∧
      t = s.collapse (2 ^ q) outcome (s.probability q outcome) ∧
      s.resetWith q draw = .ok u ∧ t.IsNormal s.numQubits ∧ u.IsNormal s.numQubits) ∧
    (s.SelectsImpossible q draw → 1 - Scalar.tolerance ≤ draw ∧
      s.measureWith q draw =
        .error (.inconsistentMeasurement q.toUInt32 (.impossible false 0)) ∧
      s.resetWith q draw =
        .error (.inconsistentMeasurement q.toUInt32 (.impossible false 0))) ∧
    ∀ (G : Type) [RandomSource G] (g : G), (RandomSource.draw ℝ g).1 = draw →
      (s.measure q : Sampling ℝ G (Bool × Statevector ℝ)).run g =
        (s.measureWith q draw, (RandomSource.draw ℝ g).2) := by
  have hnear := (checkNorm_eq_ok_iff context).1 hnorm
  refine ⟨fun hpossible => ?_, fun himpossible => ?_, ?_⟩
  · obtain ⟨outcome, hdraw⟩ : ∃ outcome, decide (draw < s.probability q true) = outcome := ⟨_, rfl⟩
    have hpos : 0 < s.probability q outcome :=
      hdraw ▸ probability_selected_pos hs h0 hpossible
    have hmeasure : s.measureWith q draw =
        .ok (outcome, s.collapse (2 ^ q) outcome (s.probability q outcome)) := by
      rw [measureWith_eq_project hs hnear hq]
      rw [probability_eq_mass hs] at hdraw hpos
      simp only [probability_eq_mass hs]
      exact s.project_eq_ok s.numQubits q hdraw hpos
    obtain ⟨ht, u, hclear, hu⟩ := exists_clear_collapse hs hq hpos
    have hselects : outcome = true ↔ draw < s.probability q true := by
      rw [← hdraw]
      exact decide_eq_true_iff
    exact ⟨outcome, _, u, hmeasure, hselects, hpos, rfl,
      bind_eq_ok.2 ⟨_, hmeasure, hclear⟩, ht, hu⟩
  · have hmeasure : s.measureWith q draw =
        .error (.inconsistentMeasurement q.toUInt32 (.impossible false 0)) :=
      (measureWith_eq_project hs hnear hq).trans (project_eq_error himpossible)
    refine ⟨himpossible.one_sub_tolerance_le hs hnear, hmeasure, ?_⟩
    rw [resetWith, hmeasure]
    rfl
  · rintro G _ g rfl
    exact run_measure_of_near hs hnear hq g

/-- A qubit that is certainly one, on a state whose norm falls short of one by less than the
tolerance: a draw in the middle reads one, a draw close to one fails. -/
theorem measureWith_of_checkNorm_short :
    let s : Statevector ℝ := ⟨1, #[.zero, .ofReal (1 - 1 / 4000000000)], {}⟩
    let draw : ℝ := 1 - 1 / 10000000000
    s.IsRegister ∧ s.checkNorm (.circuit "short") = .ok () ∧ 0 ≤ draw ∧ draw < 1 ∧
      (∃ t, s.measureWith 0 (1 / 2) = .ok (true, t)) ∧
      s.measureWith 0 draw = .error (.inconsistentMeasurement 0 (.impossible false 0)) := by
  intro s draw
  have hs : s.IsRegister := ⟨by decide, rfl⟩
  have hzero : s.coefficient 0 = 0 := Amplitude.toComplex_zero
  have hone : s.coefficient 1 = ((1 - 1 / 4000000000 : ℝ) : ℂ) := Amplitude.toComplex_ofReal _
  have hp (b : Bool) :
      s.probability 0 b = if b then (1 - 1 / 4000000000) * (1 - 1 / 4000000000) else 0 := by
    have hindices : Finset.range s.size = {0, 1} := by decide
    rw [probability, hindices, Finset.sum_filter, Finset.sum_pair (by decide), hzero, hone,
      Complex.normSq_ofReal]
    cases b <;> simp
  have hnear : |s.normSq - 1| ≤ Scalar.tolerance := by
    rw [normSq_eq_mass hs, ← mass_onBit_add s.numQubits 0, ← probability_eq_mass hs,
      ← probability_eq_mass hs, hp, hp, Scalar.tolerance_real, abs_le]
    norm_num
  have hnorm : s.checkNorm (.circuit "short") = .ok () := (checkNorm_eq_ok_iff _).2 hnear
  have h0 : 0 ≤ draw := by norm_num [draw]
  have hmiddle : ¬s.SelectsImpossible 0 (1 / 2) := by
    rintro ⟨-, hle⟩
    rw [hp] at hle
    norm_num at hle
  have hclose : s.SelectsImpossible 0 draw := by
    constructor
    · exact hp false
    · rw [hp]
      norm_num [draw]
  obtain ⟨hpossible, -⟩ :=
    measureWith_of_checkNorm hs hnorm Nat.one_pos (by norm_num : (0 : ℝ) ≤ 1 / 2)
  obtain ⟨outcome, t, -, hmeasure, houtcome, -⟩ := hpossible hmiddle
  obtain rfl : outcome = true := houtcome.2 (by rw [hp]; norm_num)
  obtain ⟨-, himpossible, -⟩ := measureWith_of_checkNorm hs hnorm Nat.one_pos h0
  exact ⟨hs, hnorm, h0, by norm_num [draw], ⟨t, hmeasure⟩, (himpossible hclose).2.1⟩

end Statevector

end QuantumSim
