import Mathlib
import QuantumSim.Proofs.Basis

/-!
Exchanging the bits of a basis index. Swaps of the outermost bits, then of the next ones and so on
to the middle, reverse the bits of a register.
-/
namespace QuantumSim.BasisIndex

/-- The index with two bits exchanged. -/
def swapBits (a b i : ℕ) : ℕ := withBit (withBit i a (i.testBit b)) b (i.testBit a)

theorem testBit_swapBits (a b i p : ℕ) : (swapBits a b i).testBit p =
    if p = b then i.testBit a else if p = a then i.testBit b else i.testBit p := by
  simp only [swapBits, testBit_withBit]

theorem swapBits_lt {n a b i : ℕ} (ha : a < n) (hb : b < n) (hi : i < 2 ^ n) :
    swapBits a b i < 2 ^ n :=
  withBit_lt _ (withBit_lt _ hi ha) hb

/-- The index with the bits of a register in opposite order. -/
def reversed (n x : ℕ) : ℕ := localIndex (List.range n).reverse x

theorem reversed_succ (n x : ℕ) :
    reversed (n + 1) x = (x.testBit n).toNat + 2 * reversed n x := by
  rw [reversed, List.range_succ, List.reverse_append]
  rfl

theorem reversed_lt (n x : ℕ) : reversed n x < 2 ^ n := by
  have hlt := localIndex_lt (List.range n).reverse x
  rwa [List.length_reverse, List.length_range] at hlt

theorem testBit_reversed {n p : ℕ} (hp : p < n) (x : ℕ) :
    (reversed n x).testBit p = x.testBit (n - 1 - p) := by
  rw [reversed, testBit_localIndex, List.getElem?_reverse (by simpa using hp), List.length_range,
    List.getElem?_range (by omega)]
  rfl

/-- The index after the first `m` swaps that reverse a register. -/
def exchanged (n : ℕ) : ℕ → ℕ → ℕ
  | 0, i => i
  | m + 1, i => exchanged n m (swapBits m (n - 1 - m) i)

/-- The first swaps have exchanged the outermost bits. -/
theorem testBit_exchanged {n m : ℕ} (hm : m ≤ n / 2) (i : ℕ) {p : ℕ} (hp : p < n) :
    (exchanged n m i).testBit p =
      if p < m ∨ n - 1 - p < m then i.testBit (n - 1 - p) else i.testBit p := by
  induction m generalizing i with
  | zero => simp [exchanged]
  | succ m ih =>
    rw [exchanged, ih (by omega)]
    simp only [testBit_swapBits, ← apply_ite (Nat.testBit i)]
    congr 1
    split_ifs <;> omega

theorem exchanged_lt {n m i : ℕ} (hm : m ≤ n / 2) (hi : i < 2 ^ n) : exchanged n m i < 2 ^ n := by
  induction m generalizing i with
  | zero => exact hi
  | succ m ih => exact ih (by omega) (swapBits_lt (by omega) (by omega) hi)

/-- All swaps together reverse the register. -/
theorem exchanged_half {n i : ℕ} (hi : i < 2 ^ n) : exchanged n (n / 2) i = reversed n i := by
  apply Nat.eq_of_testBit_eq
  intro p
  by_cases hp : p < n
  · rw [testBit_exchanged le_rfl i hp, testBit_reversed hp]
    split
    · rfl
    · -- the middle bit stays
      congr 1
      omega
  · have hp := Nat.le_of_not_lt hp
    rw [testBit_eq_false_of_lt (exchanged_lt le_rfl hi) hp,
      testBit_eq_false_of_lt (reversed_lt n i) hp]

theorem reversed_one {n : ℕ} (hn : 1 ≤ n) : reversed n 1 = 2 ^ (n - 1) := by
  apply Nat.eq_of_testBit_eq
  intro p
  rw [Nat.testBit_two_pow]
  by_cases hp : p < n
  · have hone : Nat.testBit 1 (n - 1 - p) = decide (0 = n - 1 - p) :=
      Nat.testBit_two_pow (n := 0)
    rw [testBit_reversed hp, hone, decide_eq_decide]
    omega
  · have hp := Nat.le_of_not_lt hp
    rw [testBit_eq_false_of_lt (reversed_lt n 1) hp]
    exact (decide_eq_false (by omega)).symm

end QuantumSim.BasisIndex
