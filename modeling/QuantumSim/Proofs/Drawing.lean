import Mathlib
import QuantumSim.Sampling
import QuantumSim.Proofs.Counts
import QuantumSim.Proofs.Outcome

/-!
Draws. A number in the unit interval selects one of the weights, and the histogram of a sequence of
draws and the counts made of it hold every draw exactly once.
-/
namespace QuantumSim

namespace WeightedIndex

variable {R : Type} [Scalar R]

theorem bisect_le (sums : Array R) (x : R) {lo hi : ℕ} (h : lo ≤ hi) :
    bisect sums x lo hi ≤ hi := by
  fun_induction bisect sums x lo hi with
  | case1 lo hi hlt mid w hw hle ih => exact ih (by omega)
  | case2 lo hi hlt mid w hw hle ih => exact (ih (by omega)).trans (by omega)
  | case3 lo hi hlt mid hw => exact h
  | case4 lo hi hlt => exact h

/-- There is a cumulative sum for every weight but the last. -/
theorem size_cumulative {weights : List R} {dist : WeightedIndex R}
    (h : create weights = .ok dist) : dist.cumulative.size + 1 = weights.length := by
  have hpush (rest : List R) (acc : Array R × R) :
      (rest.foldl (fun acc w => (acc.1.push acc.2, acc.2 + w)) acc).1.size =
        acc.1.size + rest.length := by
    induction rest generalizing acc with
    | nil => rfl
    | cons w rest ih =>
      rw [List.foldl_cons, ih, Array.size_push, List.length_cons]
      omega
  unfold create at h
  cases weights with
  | nil => cases h
  | cons first rest =>
    dsimp only at h
    split at h
    · split at h
      · cases h
      · cases h
        rw [hpush, List.length_cons]
        simp
    · cases h

/-- A draw selects one of the weights. -/
theorem select_lt {weights : List R} {dist : WeightedIndex R} (h : create weights = .ok dist)
    (draw : R) : dist.select draw < weights.length := by
  have hle : dist.select draw ≤ dist.cumulative.size := bisect_le _ _ (Nat.zero_le _)
  have hsize := size_cumulative h
  omega

end WeightedIndex

namespace Sampler

section Draws

variable {R G : Type} [Scalar R] [RandomSource G]

/-- The outcomes that a number of successive draws select. -/
def drawn (dist : WeightedIndex R) : ℕ → G → List ℕ
  | 0, _ => []
  | n + 1, g =>
    let (x, g) := RandomSource.draw R g
    dist.select x :: drawn dist n g

theorem length_drawn (dist : WeightedIndex R) (n : ℕ) (g : G) : (drawn dist n g).length = n := by
  induction n generalizing g with
  | zero => rfl
  | succ n ih => rw [drawn, List.length_cons, ih]

theorem drawn_lt {weights : List R} {dist : WeightedIndex R}
    (h : WeightedIndex.create weights = .ok dist) (n : ℕ) (g : G) :
    ∀ k ∈ drawn dist n g, k < weights.length := by
  induction n generalizing g with
  | zero => simp [drawn]
  | succ n ih => exact List.forall_mem_cons.2 ⟨WeightedIndex.select_lt h _, ih _⟩

/-- A histogram whose entries say how often their indices were drawn. -/
def Holds (histogram : Array UInt64) (draws : List ℕ) : Prop :=
  ∀ k, (histogram.getD k 0).toNat = draws.count k

theorem holds_replicate (size : ℕ) : Holds (Array.replicate size 0) [] := by
  intro k
  simp only [Array.getD_eq_getD_getElem?, Array.getElem?_replicate]
  split <;> rfl

theorem getD_modify {histogram : Array UInt64} {k : ℕ} (hk : k < histogram.size) (j : ℕ) :
    (histogram.modify k (· + 1)).getD j 0 =
      if k = j then histogram.getD j 0 + 1 else histogram.getD j 0 := by
  simp only [Array.getD_eq_getD_getElem?, Array.getElem?_modify]
  split
  next heq => simp [← heq, hk]
  next => rfl

theorem Holds.modify {histogram : Array UInt64} {draws : List ℕ} (h : Holds histogram draws) {k : ℕ}
    (hk : k < histogram.size) (hsmall : draws.length + 1 < UInt64.size) :
    Holds (histogram.modify k (· + 1)) (draws ++ [k]) := by
  intro j
  have hcount : (histogram.getD j 0).toNat ≤ draws.length := h j ▸ List.count_le_length
  rw [getD_modify hk, List.count_append, ← h j]
  split
  next heq =>
    rw [heq, List.count_singleton_self, UInt64.toNat_add]
    exact Nat.mod_eq_of_lt (lt_of_le_of_lt (Nat.succ_le_succ hcount) hsmall)
  next hne => simp [hne]

theorem holds_drawOutcomes {dist : WeightedIndex R} {histogram : Array UInt64}
    (hdist : ∀ x, dist.select x < histogram.size) {draws : List ℕ} (h : Holds histogram draws)
    (n : ℕ) (g : G) (hsmall : draws.length + n < UInt64.size) :
    Holds (drawOutcomes dist n histogram g).1 (draws ++ drawn dist n g) := by
  induction n generalizing histogram draws g with
  | zero => simpa [drawn, drawOutcomes] using h
  | succ n ih =>
    have hnext := h.modify (hdist (RandomSource.draw R g).1) (by omega)
    have hrest := ih (by simpa using hdist) hnext (RandomSource.draw R g).2
      (by rw [List.length_append, List.length_singleton]; omega)
    simpa [drawn, drawOutcomes] using hrest

end Draws

/-- The members of a histogram, each as often as it was drawn, in ascending order. -/
def listed (histogram : List (UInt64 × ℕ)) : List ℕ :=
  histogram.flatMap fun e => List.replicate e.1.toNat e.2

theorem count_listed (entries : List UInt64) (start k : ℕ) :
    (listed (entries.zipIdx start)).count (start + k) = (entries.getD k 0).toNat := by
  induction entries generalizing start k with
  | nil => simp [listed]
  | cons n entries ih =>
    have hrest : listed ((n :: entries).zipIdx start) =
        .replicate n.toNat start ++ listed (entries.zipIdx (start + 1)) := rfl
    rw [hrest, List.count_append, List.count_replicate]
    cases k with
    | zero =>
      have hout : start ∉ listed (entries.zipIdx (start + 1)) := by
        intro hmem
        obtain ⟨e, he, hstart⟩ := List.mem_flatMap.1 hmem
        have hlater := List.le_snd_of_mem_zipIdx he
        rw [(List.mem_replicate.1 hstart).2] at hlater
        omega
      simp [List.count_eq_zero_of_not_mem hout]
    | succ k =>
      have hshift : start + (k + 1) = start + 1 + k := by omega
      rw [hshift, ih]
      simp
      omega

/-- What a histogram lists is what was drawn. -/
theorem Holds.perm {histogram : Array UInt64} {draws : List ℕ} (h : Holds histogram draws) :
    (listed histogram.toList.zipIdx).Perm draws := by
  refine List.perm_iff_count.2 fun k => ?_
  have hlisted := count_listed histogram.toList 0 k
  rw [Nat.zero_add] at hlisted
  rw [hlisted, ← h k]
  simp

/-- Reading a histogram out counts the text of each of its members as often as it was drawn. -/
theorem tallies_histogramCounts {map : List (Qubit × Clbit)} {measured : List Qubit} {width : ℕ}
    {text : ℕ → String} {histogram : List (UInt64 × ℕ)} {counts : Counts}
    (htext : ∀ e ∈ histogram, readoutText map measured width e.2 = .ok (text e.2))
    (hsmall : (listed histogram).length < UInt64.size)
    (h : histogramCounts map measured width histogram = .ok counts) :
    counts.Tallies ((listed histogram).map text) := by
  suffices hloop : ∀ (seen : List String) (start : Counts), start.Tallies seen →
      seen.length + (listed histogram).length < UInt64.size →
      histogram.foldlM (fun counts entry =>
        if entry.1 = 0 then .ok counts
        else do return counts.insert (← readoutText map measured width entry.2) entry.1) start =
          .ok counts →
      counts.Tallies (seen ++ (listed histogram).map text) by
    simpa using hloop [] .empty Counts.tallies_empty (by simpa using hsmall) h
  clear h hsmall
  induction histogram with
  | nil =>
    intro seen start hstart _ h
    cases h
    simpa [listed] using hstart
  | cons e histogram ih =>
    intro seen start hstart hsmall h
    obtain ⟨he, hrest⟩ := List.forall_mem_cons.1 htext
    have hlisted : listed (e :: histogram) = .replicate e.1.toNat e.2 ++ listed histogram := rfl
    rw [hlisted, List.length_append, List.length_replicate] at hsmall
    rw [hlisted, List.map_append, List.map_replicate, ← List.append_assoc]
    rw [List.foldlM_cons] at h
    obtain ⟨next, hnext, h⟩ := bind_eq_ok.1 h
    refine ih hrest _ next ?_ (by rw [List.length_append, List.length_replicate]; omega) h
    split at hnext
    next hzero =>
      cases hnext
      simpa [hzero] using hstart
    next hpos =>
      rw [he] at hnext
      cases hnext
      exact hstart.insert _ hpos (by omega)

end Sampler

end QuantumSim
