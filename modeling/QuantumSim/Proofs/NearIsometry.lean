import Mathlib

/-!
Matrices that almost keep squared lengths. If the product of a square matrix with its adjoint has
the entries of the identity within a tolerance, the matrix changes the squared length of no vector
by more than its dimension times the tolerance.
-/
namespace QuantumSim
open Matrix

variable {k : ℕ}

/-- The sum of the squared magnitudes of the entries. -/
def lengthSq (w : Fin k → ℂ) : ℝ := ∑ i, Complex.normSq (w i)

/-- No squared length changes by more than `ε` times itself. -/
def NearIsometry (ε : ℝ) (M : Matrix (Fin k) (Fin k) ℂ) : Prop :=
  ∀ w : Fin k → ℂ, |lengthSq (M.mulVec w) - lengthSq w| ≤ ε * lengthSq w

theorem lengthSq_nonneg (w : Fin k → ℂ) : 0 ≤ lengthSq w :=
  Finset.sum_nonneg fun _ _ => Complex.normSq_nonneg _

theorem eq_zero_of_lengthSq_le {w : Fin k → ℂ} (h : lengthSq w ≤ 0) : w = 0 := by
  have hzero := (Finset.sum_eq_zero_iff_of_nonneg fun i _ => Complex.normSq_nonneg (w i)).1
    (h.antisymm (lengthSq_nonneg w))
  funext i
  exact Complex.normSq_eq_zero.1 (hzero i (Finset.mem_univ i))

theorem lengthSq_eq_norm (w : Fin k → ℂ) : lengthSq w = ∑ i, ‖w i‖ ^ 2 := by
  simp [lengthSq, Complex.normSq_eq_norm_sq]

theorem ofReal_lengthSq (w : Fin k → ℂ) : (lengthSq w : ℂ) = star w ⬝ᵥ w := by
  simp [lengthSq, dotProduct, Complex.normSq_eq_conj_mul_self]

theorem lengthSq_mulVec (M : Matrix (Fin k) (Fin k) ℂ) (w : Fin k → ℂ) :
    (lengthSq (M.mulVec w) : ℂ) = star w ⬝ᵥ (Mᴴ * M).mulVec w := by
  rw [ofReal_lengthSq, star_mulVec, ← dotProduct_mulVec, mulVec_mulVec]

/-- The Cauchy-Schwarz inequality for squared lengths. -/
theorem norm_dotProduct_sq_le (u w : Fin k → ℂ) :
    ‖star u ⬝ᵥ w‖ ^ 2 ≤ lengthSq u * lengthSq w := by
  have hterms : ‖star u ⬝ᵥ w‖ ≤ ∑ i, ‖u i‖ * ‖w i‖ := by
    refine (norm_sum_le _ _).trans_eq (Finset.sum_congr rfl fun i _ => ?_)
    rw [norm_mul, Pi.star_apply, norm_star]
  calc ‖star u ⬝ᵥ w‖ ^ 2 ≤ (∑ i, ‖u i‖ * ‖w i‖) ^ 2 := by gcongr
    _ ≤ (∑ i, ‖u i‖ ^ 2) * ∑ i, ‖w i‖ ^ 2 := Finset.sum_mul_sq_le_sq_mul_sq _ _ _
    _ = lengthSq u * lengthSq w := by rw [lengthSq_eq_norm, lengthSq_eq_norm]

/-- A quadratic form whose matrix has entries of magnitude at most `δ` is at most the dimension
times `δ` on vectors of length one. -/
theorem norm_quadraticForm_le {E : Matrix (Fin k) (Fin k) ℂ} {δ : ℝ} (hδ : 0 ≤ δ)
    (hE : ∀ row col, ‖E row col‖ ≤ δ) (w : Fin k → ℂ) :
    ‖star w ⬝ᵥ E.mulVec w‖ ≤ k * δ * lengthSq w := by
  have hentry (row col : Fin k) :
      ‖star (w row) * (E row col * w col)‖ ≤ δ * (‖w row‖ * ‖w col‖) := by
    rw [norm_mul, norm_mul, norm_star]
    calc ‖w row‖ * (‖E row col‖ * ‖w col‖) = ‖E row col‖ * (‖w row‖ * ‖w col‖) := by ring
      _ ≤ δ * (‖w row‖ * ‖w col‖) := by gcongr; exact hE row col
  calc ‖star w ⬝ᵥ E.mulVec w‖
      = ‖∑ row, ∑ col, star (w row) * (E row col * w col)‖ := by
        simp only [dotProduct, mulVec, Finset.mul_sum, Pi.star_apply]
    _ ≤ ∑ row, ∑ col, ‖star (w row) * (E row col * w col)‖ :=
        (norm_sum_le _ _).trans (Finset.sum_le_sum fun row _ => norm_sum_le _ _)
    _ ≤ ∑ row, ∑ col, δ * (‖w row‖ * ‖w col‖) :=
        Finset.sum_le_sum fun row _ => Finset.sum_le_sum fun col _ => hentry row col
    _ = δ * (∑ row, ‖w row‖) ^ 2 := by
        simp only [← Finset.mul_sum, sq, Finset.sum_mul]
    _ ≤ δ * (k * ∑ row, ‖w row‖ ^ 2) := by
        gcongr
        simpa using sq_sum_le_card_mul_sum_sq (s := Finset.univ) (f := fun row => ‖w row‖)
    _ = k * δ * lengthSq w := by rw [lengthSq_eq_norm]; ring

/-- The entries of `M * Mᴴ` bound what the adjoint of `M` does to squared lengths. -/
theorem nearIsometry_conjTranspose {M : Matrix (Fin k) (Fin k) ℂ} {δ : ℝ} (hδ : 0 ≤ δ)
    (hM : ∀ row col, ‖(M * Mᴴ - 1) row col‖ ≤ δ) : NearIsometry (k * δ) Mᴴ := by
  intro w
  have hform : ((lengthSq (Mᴴ.mulVec w) - lengthSq w : ℝ) : ℂ) =
      star w ⬝ᵥ (M * Mᴴ - 1).mulVec w := by
    rw [Complex.ofReal_sub, lengthSq_mulVec, conjTranspose_conjTranspose, ofReal_lengthSq,
      sub_mulVec, one_mulVec, dotProduct_sub]
  rw [← Real.norm_eq_abs, ← Complex.norm_real, hform]
  exact norm_quadraticForm_le hδ hM w

/-- A near isometry sends no other vector to zero, so it reaches every vector. -/
theorem NearIsometry.surjective {M : Matrix (Fin k) (Fin k) ℂ} {ε : ℝ} (hM : NearIsometry ε M)
    (hε : ε < 1) : Function.Surjective M.mulVec := by
  rw [mulVec_surjective_iff_isUnit, ← mulVec_injective_iff_isUnit]
  intro x y hxy
  have hzero : M.mulVec (x - y) = 0 := by rw [mulVec_sub, sub_eq_zero.2 hxy]
  have hnear := hM (x - y)
  rw [hzero] at hnear
  have hlow := (abs_le.1 hnear).1
  have hlost : lengthSq (0 : Fin k → ℂ) = 0 := by simp [lengthSq]
  have hpos := lengthSq_nonneg (x - y)
  refine sub_eq_zero.1 (eq_zero_of_lengthSq_le ?_)
  nlinarith

/-- If the square of `p` is at most `q * r`, a bound of `r` by `p` is one of `p` by `q`. -/
theorem le_mul_of_sq_le_mul {p q r c : ℝ} (hp : 0 ≤ p) (hq : 0 ≤ q) (hc : 0 ≤ c)
    (h : p ^ 2 ≤ q * r) (hr : r ≤ c * p) : p ≤ c * q := by
  rcases hp.eq_or_lt with rfl | hp
  · positivity
  · refine le_of_mul_le_mul_right ?_ hp
    calc p * p = p ^ 2 := (sq p).symm
      _ ≤ q * (c * p) := h.trans (mul_le_mul_of_nonneg_left hr hq)
      _ = c * q * p := by ring

/-- A matrix whose adjoint is a near isometry is one itself. -/
theorem NearIsometry.of_conjTranspose {M : Matrix (Fin k) (Fin k) ℂ} {ε : ℝ} (h0 : 0 ≤ ε)
    (h1 : ε < 1) (hM : NearIsometry ε Mᴴ) : NearIsometry ε M := by
  intro w
  obtain ⟨x, hx⟩ := hM.surjective h1 w
  have hw := lengthSq_nonneg w
  have hMw := lengthSq_nonneg (M.mulVec w)
  have hpos : 0 < 1 - ε := sub_pos.2 h1
  -- the squared length of `M w` is the inner product of `w` with `Mᴴ (M w)`
  have hupper : lengthSq (M.mulVec w) ≤ (1 + ε) * lengthSq w := by
    have hsq := norm_dotProduct_sq_le w (Mᴴ.mulVec (M.mulVec w))
    rw [mulVec_mulVec, ← lengthSq_mulVec, Complex.norm_real, Real.norm_eq_abs, sq_abs,
      ← mulVec_mulVec] at hsq
    have hback := (abs_le.1 (hM (M.mulVec w))).2
    exact le_mul_of_sq_le_mul hMw hw (by positivity) hsq (by linarith)
  -- the squared length of `w` is the inner product of its preimage `x` under `Mᴴ` with `M w`
  have hlower : lengthSq w ≤ (1 - ε)⁻¹ * lengthSq (M.mulVec w) := by
    have hsq := norm_dotProduct_sq_le x (M.mulVec w)
    have hinner : star x ⬝ᵥ M.mulVec w = (lengthSq w : ℂ) := by
      rw [← hx, lengthSq_mulVec, conjTranspose_conjTranspose, mulVec_mulVec]
    rw [hinner, Complex.norm_real, Real.norm_eq_abs, sq_abs, mul_comm] at hsq
    have hforth := (abs_le.1 (hM x)).1
    rw [hx] at hforth
    refine le_mul_of_sq_le_mul hw hMw (by positivity) hsq ?_
    rw [inv_mul_eq_div, le_div_iff₀ hpos]
    linarith
  rw [inv_mul_eq_div, le_div_iff₀ hpos] at hlower
  rw [abs_le]
  constructor <;> linarith

/-- A matrix whose product with its adjoint has the entries of the identity within `δ` changes no
squared length by more than `k * δ` times itself. -/
theorem nearIsometry_of_entries {M : Matrix (Fin k) (Fin k) ℂ} {δ : ℝ} (h0 : 0 ≤ δ)
    (h1 : k * δ < 1) (hM : ∀ row col, ‖(M * Mᴴ - 1) row col‖ ≤ δ) : NearIsometry (k * δ) M :=
  .of_conjTranspose (by positivity) h1 (nearIsometry_conjTranspose h0 hM)

/-- A unitary matrix changes no squared length. -/
theorem nearIsometry_of_mem_unitaryGroup {M : Matrix (Fin k) (Fin k) ℂ}
    (hM : M ∈ unitaryGroup (Fin k) ℂ) : NearIsometry 0 M := by
  have hproduct : M * Mᴴ = 1 := mem_unitaryGroup_iff.1 hM
  have hentries (row col : Fin k) : ‖(M * Mᴴ - 1) row col‖ ≤ 0 := by simp [hproduct]
  simpa using nearIsometry_of_entries le_rfl (by simp) hentries

end QuantumSim
