import Mathlib
import QuantumSim.Proofs.Drawing
import QuantumSim.Proofs.Exact

/-!
Which weight a draw selects. The bisection stops between a sum that the point of the total reaches
and one that it does not. Over exact numbers these are the sums of the weights before the selected
one and up to it, so that a weight of zero is never selected.
-/
namespace QuantumSim

theorem Scalar.ofUnitWord_nonneg (w : UInt64) : (0 : ℝ) ≤ ofUnitWord w := by
  change (0 : ℝ) ≤ Nat.cast (w >>> 12).toNat / Nat.cast (1 <<< 52)
  positivity

theorem Scalar.ofUnitWord_lt_one (w : UInt64) : (ofUnitWord w : ℝ) < 1 := by
  change (Nat.cast (w >>> 12).toNat / Nat.cast (1 <<< 52) : ℝ) < 1
  have hshift : (w >>> 12).toNat = w.toNat / 2 ^ 12 := by
    rw [UInt64.toNat_shiftRight, Nat.shiftRight_eq_div_pow]
    rfl
  have hword : (w >>> 12).toNat < 1 <<< 52 := by
    have hlt := w.toNat_lt
    omega
  rw [div_lt_one (by norm_num)]
  exact_mod_cast hword

namespace WeightedIndex

section Bisection

variable {R : Type} [Scalar R]

/-- The bisection ends above a sum that is at most `x` and at one that is not, unless it ends at a
bound of its range. -/
theorem bisect_spec (sums : Array R) (x : R) {lo hi : ℕ} (h : lo ≤ hi) (hsize : hi ≤ sums.size) :
    (bisect sums x lo hi = lo ∨
        ∃ w, sums[bisect sums x lo hi - 1]? = some w ∧ Scalar.le w x = true) ∧
      (bisect sums x lo hi = hi ∨
        ∃ w, sums[bisect sums x lo hi]? = some w ∧ Scalar.le w x = false) := by
  fun_induction bisect sums x lo hi with
  | case1 lo hi hlt mid w hw hle ih =>
    obtain ⟨hlow, hhigh⟩ := ih (by omega) hsize
    refine ⟨?_, hhigh⟩
    rcases hlow with heq | hlow
    · rw [heq]
      exact .inr ⟨w, hw, hle⟩
    · exact .inr hlow
  | case2 lo hi hlt mid w hw hle ih =>
    obtain ⟨hlow, hhigh⟩ := ih (by omega) (by omega)
    refine ⟨hlow, ?_⟩
    rcases hhigh with heq | hhigh
    · rw [heq]
      exact .inr ⟨w, hw, Bool.eq_false_iff.2 hle⟩
    · exact .inr hhigh
  | case3 lo hi hlt mid hw =>
    have hmid : mid < sums.size := by omega
    rw [Array.getElem?_eq_getElem hmid] at hw
    cases hw
  | case4 lo hi hlt => exact ⟨.inl rfl, .inl (by omega)⟩

/-- Weights whose distribution never selects one of them that is zero. -/
def SkipsZeros (weights : List R) : Prop :=
  ∀ dist, create weights = .ok dist → ∀ word : UInt64,
    ∃ w, weights[dist.select (Scalar.ofUnitWord word)]? = some w ∧
      Scalar.same w Scalar.zero = false

end Bisection

section Exact

/-- One more weight: its predecessors' sum is kept, and the running sum grows. -/
theorem foldl_sums (rest : List ℝ) (acc : Array ℝ × ℝ) :
    let sums := rest.foldl (fun acc w => (acc.1.push acc.2, acc.2 + w)) acc
    sums.1.toList =
        acc.1.toList ++ (List.range rest.length).map (fun j => acc.2 + (rest.take j).sum) ∧
      sums.2 = acc.2 + rest.sum := by
  induction rest generalizing acc with
  | nil => simp
  | cons w rest ih =>
    obtain ⟨hsums, htotal⟩ := ih (acc.1.push acc.2, acc.2 + w)
    refine ⟨hsums.trans ?_, htotal.trans (by rw [List.sum_cons, add_assoc])⟩
    simp [List.range_succ_eq_map, Function.comp_def, add_assoc]

/-- Weights that are not negative and do not vanish give a distribution. -/
theorem exists_create_eq_ok {weights : List ℝ} (hnonneg : ∀ w ∈ weights, 0 ≤ w)
    (hsum : weights.sum ≠ 0) : ∃ dist, create weights = .ok dist := by
  cases weights with
  | nil => exact absurd List.sum_nil hsum
  | cons first rest =>
    have hall : (first :: rest).all (fun w => Scalar.le Scalar.zero w) = true :=
      List.all_eq_true.2 fun w hw => by
        rw [Scalar.zero_real, Scalar.le_real]
        exact decide_eq_true (hnonneg w hw)
    have hpositive : ¬ Scalar.same
        (rest.foldl (fun acc w => (acc.1.push acc.2, acc.2 + w)) (#[], first)).2
        Scalar.zero = true := by
      rw [(foldl_sums rest (#[], first)).2, ← List.sum_cons, Scalar.same_real, Scalar.zero_real,
        decide_eq_true_eq]
      exact hsum
    unfold create
    dsimp only
    rw [if_pos hall, if_neg hpositive]
    exact ⟨_, rfl⟩

/-- The sums that a distribution is made of: every place but the last holds the sum of the weights
up to it. -/
theorem sums_of_create {weights : List ℝ} {dist : WeightedIndex ℝ}
    (h : create weights = .ok dist) :
    0 < weights.sum ∧ dist.total = weights.sum ∧
      ∀ j < dist.cumulative.size, dist.cumulative[j]? = some (weights.take (j + 1)).sum := by
  unfold create at h
  cases weights with
  | nil => cases h
  | cons first rest =>
    dsimp only at h
    split at h
    next hall =>
      split at h
      · cases h
      next hzero =>
        cases h
        obtain ⟨hsums, htotal⟩ := foldl_sums rest (#[], first)
        rw [htotal] at hzero
        have hnonneg : ∀ w ∈ first :: rest, 0 ≤ w := by
          intro w hw
          simpa [Scalar.le_real] using List.all_eq_true.1 hall w hw
        refine ⟨?_, htotal, fun j hj => ?_⟩
        · rw [List.sum_cons]
          apply (List.sum_nonneg hnonneg).lt_of_ne
          simpa [Scalar.same_real, eq_comm] using hzero
        · rw [← Array.getElem?_toList, hsums]
          rw [← Array.length_toList, hsums] at hj
          have hj : j < rest.length := by simpa using hj
          simp [hj]
    next => cases h

/-- A draw from the unit interval selects the weight whose stretch of the total holds its point. -/
theorem select_spec {weights : List ℝ} {dist : WeightedIndex ℝ} (h : create weights = .ok dist)
    {draw : ℝ} (h0 : 0 ≤ draw) (h1 : draw < 1) :
    (weights.take (dist.select draw)).sum ≤ draw * weights.sum ∧
      draw * weights.sum < (weights.take (dist.select draw + 1)).sum := by
  obtain ⟨hpos, htotal, hsums⟩ := sums_of_create h
  have hsize := size_cumulative h
  obtain ⟨hlow, hhigh⟩ := bisect_spec dist.cumulative (draw * dist.total) (Nat.zero_le _) le_rfl
  change (dist.select draw = 0 ∨ ∃ w, dist.cumulative[dist.select draw - 1]? = some w ∧ _) at hlow
  change (dist.select draw = _ ∨ ∃ w, dist.cumulative[dist.select draw]? = some w ∧ _) at hhigh
  rw [htotal] at hlow hhigh
  have hsum {j : ℕ} {w : ℝ} (hw : dist.cumulative[j]? = some w) : w = (weights.take (j + 1)).sum :=
    Option.some.inj (hw.symm.trans (hsums j (Array.getElem?_eq_some_iff.1 hw).1))
  constructor
  · rcases Nat.eq_zero_or_pos (dist.select draw) with hzero | hfirst
    · rw [hzero, List.take_zero, List.sum_nil]
      exact mul_nonneg h0 hpos.le
    · obtain ⟨w, hw, hle⟩ := hlow.resolve_left hfirst.ne'
      rw [hsum hw, Nat.sub_add_cancel hfirst, Scalar.le_real, decide_eq_true_iff] at hle
      exact hle
  · rcases hhigh with hlast | ⟨w, hw, hle⟩
    · rw [hlast, hsize, List.take_length]
      exact mul_lt_of_lt_one_left hpos h1
    · rw [hsum hw, Scalar.le_real, decide_eq_false_iff_not, not_le] at hle
      exact hle

theorem skipsZeros_real (weights : List ℝ) : SkipsZeros weights := by
  intro dist h word
  have hlt := select_lt h (Scalar.ofUnitWord word)
  obtain ⟨hlow, hhigh⟩ :=
    select_spec h (Scalar.ofUnitWord_nonneg word) (Scalar.ofUnitWord_lt_one word)
  refine ⟨weights[dist.select (Scalar.ofUnitWord word)], List.getElem?_eq_getElem hlt, ?_⟩
  rw [List.take_succ_eq_append_getElem hlt, List.sum_append, List.sum_singleton] at hhigh
  rw [Scalar.same_real, Scalar.zero_real, decide_eq_false_iff_not]
  intro hzero
  linarith

end Exact

end WeightedIndex

end QuantumSim
