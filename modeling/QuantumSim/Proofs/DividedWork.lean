import Mathlib
import QuantumSim.Proofs.ExactReadout
import QuantumSim.Proofs.KernelUnits

/-!
Work divided among workers. The kernels overwrite a state chunk by chunk, in any order and side by
side; the reductions fold stretches of a state and merge the results in the shape of a split.
-/
namespace QuantumSim

namespace Statevector

variable {R : Type} [Scalar R]

/-- The state whose reductions are not divided. -/
def sequential (s : Statevector R) : Statevector R :=
  { s with machine := { s.machine with parallelThreshold := none } }

/-- The squared norm, divided as a split says. -/
def normSqOver (s : Statevector R) (split : Split) : R :=
  split.reduce (s.sumRange fun _ a => a.normSq) (· + ·) 0 s.size

/-- Adds the probabilities of a list of indices to a marginal. -/
def marginalFrom (s : Statevector R) (qubits : List Qubit) (m : Array R) (indices : List ℕ) :
    Checked (Array R) :=
  indices.foldlM (fun m i => do addToMarginal qubits m i (← elementAt s.amplitudes i)) m

/-- What the indices from `start` to `stop` contribute to a marginal. -/
def marginalRange (s : Statevector R) (qubits : List Qubit) (size start stop : ℕ) :
    Checked (Array R) :=
  s.marginalFrom qubits (Array.replicate size Scalar.zero) (List.range' start (stop - start))

/-- The distribution of the readings of the listed qubits, divided as a split says. -/
def marginalOver (s : Statevector R) (split : Split) (qubits : List Qubit) :
    Checked (Array R) := do
  let size ← bitMask qubits.length
  split.reduce (s.marginalRange qubits size)
    (fun a b => do return Array.zipWith (· + ·) (← a) (← b)) 0 s.size

theorem normSqOver_split (s : Statevector R) : s.normSqOver s.split = s.normSq := rfl

theorem marginalOver_split (s : Statevector R) (qubits : List Qubit) :
    s.marginalOver s.split qubits = s.marginalProbabilities qubits := rfl

/-- Over exact numbers the norm is the same for every split. -/
theorem normSqOver_eq (s : Statevector ℝ) (split : Split) :
    s.normSqOver split = s.sequential.normSq :=
  Split.reduce_eq_leaf (fun _ _ _ => s.sumRange_add _) split (Nat.zero_le _)

/-- Over exact numbers the norm does not depend on the size from which it is divided. -/
theorem normSq_sequential (s : Statevector ℝ) : s.sequential.normSq = s.normSq := by
  rw [← s.normSqOver_eq s.split, normSqOver_split]

section Marginals

variable {m m' : Array ℝ}

theorem changeAt_zipWith (h : m'.size = m.size) (k : ℕ) (p : ℝ) :
    changeAt (Array.zipWith (· + ·) m m') k (· + p) =
      (changeAt m' k (· + p)).map (Array.zipWith (· + ·) m) := by
  unfold changeAt
  by_cases hk : k < m'.size
  · rw [if_pos (by simpa [h] using hk), if_pos hk]
    refine congrArg Except.ok (Array.ext (by simp) fun i _ _ => ?_)
    by_cases hik : k = i
    · simp [Array.getElem_modify, hik, add_assoc]
    · simp [Array.getElem_modify, hik]
  · rw [if_neg (by simpa [h] using hk), if_neg hk]
    rfl

/-- Adding to a marginal commutes with merging another one into it. -/
theorem addToMarginal_zipWith (qubits : List Qubit) (h : m'.size = m.size) (i : ℕ)
    (a : Amplitude ℝ) : addToMarginal qubits (Array.zipWith (· + ·) m m') i a =
      (addToMarginal qubits m' i a).map (Array.zipWith (· + ·) m) := by
  unfold addToMarginal
  dsimp only
  split
  · rfl
  · cases reading qubits i with
    | error e => rfl
    | ok k => exact changeAt_zipWith h k _

theorem size_addToMarginal {qubits : List Qubit} {i : ℕ} {a : Amplitude ℝ}
    (h : addToMarginal qubits m i a = .ok m') : m'.size = m.size := by
  unfold addToMarginal at h
  dsimp only at h
  split at h
  · cases h
    rfl
  · obtain ⟨k, -, hchange⟩ := bind_eq_ok.1 h
    unfold changeAt at hchange
    split at hchange
    · cases hchange
      simp
    · cases hchange

theorem marginalFrom_cons (s : Statevector ℝ) (qubits : List Qubit) (m : Array ℝ) (i : ℕ)
    (indices : List ℕ) : s.marginalFrom qubits m (i :: indices) =
      (elementAt s.amplitudes i >>= addToMarginal qubits m i) >>=
        fun m => s.marginalFrom qubits m indices :=
  List.foldlM_cons

theorem marginalFrom_zipWith (s : Statevector ℝ) (qubits : List Qubit) (h : m'.size = m.size)
    (indices : List ℕ) : s.marginalFrom qubits (Array.zipWith (· + ·) m m') indices =
      (s.marginalFrom qubits m' indices).map (Array.zipWith (· + ·) m) := by
  induction indices generalizing m' with
  | nil => rfl
  | cons i indices ih =>
    rw [marginalFrom_cons, marginalFrom_cons]
    cases elementAt s.amplitudes i with
    | error e => rfl
    | ok a =>
      rw [ok_bind, ok_bind, addToMarginal_zipWith qubits h]
      cases hfirst : addToMarginal qubits m' i a with
      | error e => rfl
      | ok m'' => exact ih ((size_addToMarginal hfirst).trans h)

theorem size_marginalFrom {s : Statevector ℝ} {qubits : List Qubit} {indices : List ℕ}
    (h : s.marginalFrom qubits m indices = .ok m') : m'.size = m.size := by
  induction indices generalizing m with
  | nil =>
    cases h
    rfl
  | cons i indices ih =>
    rw [marginalFrom_cons] at h
    obtain ⟨next, hfirst, hrest⟩ := bind_eq_ok.1 h
    obtain ⟨a, -, hadd⟩ := bind_eq_ok.1 hfirst
    rw [ih hrest, size_addToMarginal hadd]

/-- Folding two neighbouring stretches and merging the results is folding them as one. -/
theorem marginalRange_merge (s : Statevector ℝ) (qubits : List Qubit) (size : ℕ) {a b c : ℕ}
    (hab : a ≤ b) (hbc : b ≤ c) :
    (do return Array.zipWith (· + ·) (← s.marginalRange qubits size a b)
          (← s.marginalRange qubits size b c)) = s.marginalRange qubits size a c := by
  have hrange : List.range' a (c - a) = List.range' a (b - a) ++ List.range' b (c - b) := by
    have hlen : c - a = (b - a) + (c - b) := by omega
    have hnext : a + (b - a) = b := by omega
    rw [hlen, ← List.range'_append_1, hnext]
  have hwhole : s.marginalRange qubits size a c = s.marginalRange qubits size a b >>= fun m =>
      s.marginalFrom qubits m (List.range' b (c - b)) := by
    unfold marginalRange
    rw [hrange, marginalFrom, List.foldlM_append]
    rfl
  rw [hwhole]
  cases hleft : s.marginalRange qubits size a b with
  | error e => rfl
  | ok m =>
    have hsize : m.size = size := by simpa using size_marginalFrom hleft
    have hzero : Array.zipWith (· + ·) m (Array.replicate size Scalar.zero) = m := by
      apply Array.ext (by simp [hsize])
      simp
    have hright : s.marginalFrom qubits m (List.range' b (c - b)) =
        (s.marginalRange qubits size b c).map (Array.zipWith (· + ·) m) := by
      rw [marginalRange, ← s.marginalFrom_zipWith qubits (by simp [hsize]), hzero]
    rw [ok_bind, ok_bind, hright]
    rfl

/-- Over exact numbers a marginal is the same for every split. -/
theorem marginalOver_eq (s : Statevector ℝ) (split : Split) (qubits : List Qubit) :
    s.marginalOver split qubits = s.sequential.marginalProbabilities qubits := by
  have hreduce (size : ℕ) : split.reduce (s.marginalRange qubits size)
      (fun a b => do return Array.zipWith (· + ·) (← a) (← b)) 0 s.size =
        s.marginalRange qubits size 0 s.size :=
    Split.reduce_eq_leaf (fun _ _ _ => s.marginalRange_merge qubits size) split (Nat.zero_le _)
  unfold marginalOver
  simp only [hreduce]
  rfl

/-- Over exact numbers a marginal does not depend on the size from which it is divided. -/
theorem marginalProbabilities_sequential (s : Statevector ℝ) (qubits : List Qubit) :
    s.sequential.marginalProbabilities qubits = s.marginalProbabilities qubits := by
  rw [← s.marginalOver_eq s.split, marginalOver_split]

end Marginals

end Statevector

namespace Kernel

variable {R : Type} [Scalar R] {n : ℕ} {amps : Array (Amplitude R)}

omit [Scalar R] in
theorem size_eq_chunks (hamps : amps.size = 2 ^ n) {t : ℕ} (ht : t < n) :
    amps.size = 2 ^ (n - (t + 1)) * (2 * 2 ^ t) := by
  rw [hamps, ← pow_succ', ← pow_add]
  congr 1
  omega

theorem applySingle_divisible (hamps : amps.size = 2 ^ n) (m : GateMatrix R 2) {t : ℕ} (ht : t < n)
    (ctrl : ControlMask) : ∃ out,
      Divisible amps (2 * 2 ^ t) (pairChunk m (2 ^ t) ctrl) (pairUnit m (2 ^ t) ctrl) out ∧
      applySingle m t ctrl amps = do let _ ← bitMask t; return out := by
  obtain ⟨out, hout⟩ := exists_divisible (by positivity) (size_eq_chunks hamps ht)
    (fun k _ ys _ => run_pairUnit m (2 ^ t) ctrl (k * (2 * 2 ^ t)) ys)
    (fun k _ => within_pairUnit m (2 ^ t) ctrl (k * (2 * 2 ^ t)))
  refine ⟨out, hout, ?_⟩
  unfold applySingle
  by_cases hword : t < 64
  · rw [bitMask_eq hword]
    exact hout.any_order _ (List.Perm.refl _)
  · simp [bitMask, hword]

theorem applyDouble_divisible (hamps : amps.size = 2 ^ n) (m : GateMatrix R 4) {t0 t1 : ℕ}
    (h0 : t0 < n) (h1 : t1 < n) (ctrl : ControlMask) : ∃ out,
      Divisible amps (2 * max (2 ^ t0) (2 ^ t1)) (quadChunk m (2 ^ t0) (2 ^ t1) ctrl)
        (quadUnit m (2 ^ t0) (2 ^ t1) ctrl) out ∧
      applyDouble m t0 t1 ctrl amps = do let _ ← bitMask t0; let _ ← bitMask t1; return out := by
  have hsize := size_eq_chunks hamps (max_lt h0 h1)
  rw [← two_pow_max] at hsize
  obtain ⟨out, hout⟩ := exists_divisible (by positivity) hsize
    (fun k _ ys _ => run_quadUnit m (2 ^ t0) (2 ^ t1) ctrl (k * (2 * max (2 ^ t0) (2 ^ t1))) ys)
    (fun k _ => within_quadUnit m t0 t1 ctrl (k * (2 * max (2 ^ t0) (2 ^ t1))))
  refine ⟨out, hout, ?_⟩
  unfold applyDouble
  by_cases hfirst : t0 < 64
  · by_cases hsecond : t1 < 64
    · rw [bitMask_eq hfirst, bitMask_eq hsecond]
      exact hout.any_order _ (List.Perm.refl _)
    · simp [bitMask, hfirst, hsecond]
  · simp [bitMask, hfirst]

theorem applyDiagonal_divisible (amps : Array (Amplitude R)) (zero one : Amplitude R) (t : ℕ)
    (ctrl : ControlMask) : ∃ out,
      Divisible amps 1 (fun i amps => .ok (phaseAt zero one (2 ^ t) ctrl amps i))
        (phaseUnit zero one (2 ^ t) ctrl) out ∧
      applyDiagonal zero one t ctrl amps = do let _ ← bitMask t; return out := by
  have hdivisible : ∃ out, Divisible amps 1
      (fun i amps => .ok (phaseAt zero one (2 ^ t) ctrl amps i))
      (phaseUnit zero one (2 ^ t) ctrl) out :=
    exists_divisible Nat.one_pos (Nat.mul_one amps.size).symm
      (fun k hk ys hys => run_phaseUnit zero one (2 ^ t) ctrl (by omega))
      (fun k _ => within_phaseUnit zero one (2 ^ t) ctrl (k * 1))
  obtain ⟨out, hout⟩ := hdivisible
  refine ⟨out, hout, ?_⟩
  have hloop := hout.any_order _ (List.Perm.refl _)
  unfold applyDiagonal
  by_cases hword : t < 64
  · rw [bitMask_eq hword, ok_bind, ok_bind]
    simp only [chunkCount, Nat.mul_one, Nat.add_sub_cancel, Nat.div_one] at hloop
    rw [← List.foldlM_pure]
    exact hloop
  · simp [bitMask, hword]

/-- Work on a state may be divided. A chunk body of a kernel accesses the indices of its own chunk
only, so that every order and every interleaving of the bodies leaves the array of the sequential
run; and over exact numbers every split of the indices and every shape in which the results are
merged give the norm and the marginals of the undivided fold. -/
theorem divided_work_agrees {n : ℕ} {amps : Array (Amplitude R)} (hamps : amps.size = 2 ^ n)
    (ctrl : ControlMask) :
    (∀ (m : GateMatrix R 2) (t : ℕ), t < n → ∃ out,
      Divisible amps (2 * 2 ^ t) (pairChunk m (2 ^ t) ctrl) (pairUnit m (2 ^ t) ctrl) out ∧
      applySingle m t ctrl amps = do let _ ← bitMask t; return out) ∧
    (∀ (m : GateMatrix R 4) (t0 t1 : ℕ), t0 < n → t1 < n → ∃ out,
      Divisible amps (2 * max (2 ^ t0) (2 ^ t1)) (quadChunk m (2 ^ t0) (2 ^ t1) ctrl)
        (quadUnit m (2 ^ t0) (2 ^ t1) ctrl) out ∧
      applyDouble m t0 t1 ctrl amps = do let _ ← bitMask t0; let _ ← bitMask t1; return out) ∧
    (∀ (zero one : Amplitude R) (t : ℕ), ∃ out,
      Divisible amps 1 (fun i amps => .ok (phaseAt zero one (2 ^ t) ctrl amps i))
        (phaseUnit zero one (2 ^ t) ctrl) out ∧
      applyDiagonal zero one t ctrl amps = do let _ ← bitMask t; return out) ∧
    ∀ (s : Statevector ℝ) (split : Split), s.normSqOver split = s.sequential.normSq ∧
      ∀ qubits, s.marginalOver split qubits = s.sequential.marginalProbabilities qubits := by
  constructor
  · intro m t ht
    exact applySingle_divisible hamps m ht ctrl
  constructor
  · intro m t0 t1 h0 h1
    exact applyDouble_divisible hamps m h0 h1 ctrl
  constructor
  · intro zero one t
    exact applyDiagonal_divisible amps zero one t ctrl
  · intro s split
    exact ⟨s.normSqOver_eq split, s.marginalOver_eq split⟩

/-- Two chunks of a pair kernel, the second one first, and a norm merged from three stretches. -/
theorem divided_work_two_qubits :
    let amps : Array (Amplitude ℝ) := #[.one, .zero, .one, .one]
    let s : Statevector ℝ := ⟨2, amps, {}⟩
    [1, 0].foldlM (fun amps k => pairChunk .x 1 {} (k * 2) amps) amps = applySingle .x 0 {} amps ∧
    s.normSqOver (.cut 1 .whole (.cut 2 .whole .whole)) = s.normSq := by
  intro amps s
  obtain ⟨hsingle, -, -, hreadout⟩ := divided_work_agrees (show amps.size = 2 ^ 2 from rfl) {}
  obtain ⟨out, hout, hsequential⟩ := hsingle .x 0 (by decide)
  constructor
  · have hcount : chunkCount amps.size (2 * 2 ^ 0) = 2 := by simp [amps, chunkCount]
    rw [hsequential]
    exact hout.any_order [1, 0] (by rw [hcount]; decide)
  · exact (hreadout s _).1

end Kernel

end QuantumSim
