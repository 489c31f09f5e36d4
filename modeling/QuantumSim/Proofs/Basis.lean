import Mathlib

/-!
Basis indices as bit patterns. A gate relates the indices that differ in its target bits only; they
are reached by writing local bits over the targets, and summing over all of them counts each index
once for every local value.
-/
namespace QuantumSim.BasisIndex

/-- The index with bit `t` written over. -/
def withBit (i t : ℕ) (b : Bool) : ℕ := if i.testBit t = b then i else i ^^^ 2 ^ t

@[simp] theorem testBit_withBit (i t : ℕ) (b : Bool) (p : ℕ) :
    (withBit i t b).testBit p = if p = t then b else i.testBit p := by
  unfold withBit
  by_cases hp : p = t
  · subst hp
    rw [if_pos rfl]
    split
    next h => exact h
    next h =>
      rw [Nat.testBit_xor, Nat.testBit_two_pow_self, Bool.xor_true]
      cases b <;> simpa using h
  · rw [if_neg hp]
    split
    · rfl
    · simp [Nat.testBit_xor, Ne.symm hp]

theorem withBit_lt {n i t : ℕ} (b : Bool) (hi : i < 2 ^ n) (ht : t < n) :
    withBit i t b < 2 ^ n := by
  unfold withBit
  split
  · exact hi
  · exact Nat.xor_lt_two_pow hi (Nat.pow_lt_pow_right (by decide) ht)

theorem withBit_self {i t : ℕ} {b : Bool} (h : i.testBit t = b) : withBit i t b = i := if_pos h

@[simp] theorem withBit_withBit (i t : ℕ) (b c : Bool) :
    withBit (withBit i t b) t c = withBit i t c := by
  apply Nat.eq_of_testBit_eq
  intro p
  by_cases hp : p = t <;> simp [hp]

/-- Writing a bit leaves the part of the index above it alone. -/
theorem withBit_div {t m : ℕ} (h : t < m) (i : ℕ) (b : Bool) :
    withBit i t b / 2 ^ m = i / 2 ^ m := by
  apply Nat.eq_of_testBit_eq
  intro p
  have hp : p + m ≠ t := by omega
  simp [Nat.testBit_div_two_pow, hp]

theorem withBit_mod (k i : ℕ) (b : Bool) : withBit k i b % 2 ^ i = k % 2 ^ i := by
  apply Nat.eq_of_testBit_eq
  intro p
  rw [Nat.testBit_mod_two_pow, Nat.testBit_mod_two_pow, testBit_withBit]
  by_cases hp : p < i
  · rw [if_neg hp.ne]
  · simp [hp]

theorem withBit_comm {t u : ℕ} (h : t ≠ u) (i : ℕ) (b c : Bool) :
    withBit (withBit i t b) u c = withBit (withBit i u c) t b := by
  apply Nat.eq_of_testBit_eq
  intro p
  by_cases hp : p = t
  · subst hp
    simp [h]
  · simp [hp]

/-- Writing a one over a zero adds the weight of the bit. -/
theorem withBit_true {i t : ℕ} (h : i.testBit t = false) : withBit i t true = i + 2 ^ t := by
  have hpos : 0 < 2 ^ t := by positivity
  have heven : i / 2 ^ t % 2 = 0 := by
    have h0 := Nat.testBit_div_two_pow i 0 (n := t)
    rw [Nat.zero_add, h, Nat.testBit_zero] at h0
    have := of_decide_eq_false h0
    omega
  have hi : i = 2 ^ t * (i / 2 ^ t) + i % 2 ^ t := (Nat.div_add_mod _ _).symm
  have hup : i + 2 ^ t = 2 ^ t * (i / 2 ^ t + 1) + i % 2 ^ t := by
    rw [Nat.mul_succ]
    omega
  have hlow : i % 2 ^ t < 2 ^ t := Nat.mod_lt _ hpos
  apply Nat.eq_of_testBit_eq
  intro p
  rw [testBit_withBit, hup, Nat.testBit_two_pow_mul_add _ hlow]
  rcases lt_trichotomy p t with hp | rfl | hp
  · simp [hp, hp.ne, Nat.testBit_mod_two_pow]
  · rw [if_pos rfl, if_neg (lt_irrefl _), Nat.sub_self, Nat.testBit_zero]
    exact (decide_eq_true (by omega)).symm
  · obtain ⟨d, rfl⟩ := Nat.exists_eq_add_of_lt hp
    have hd : t + d + 1 - t = d + 1 := by omega
    have hhalf : (i / 2 ^ t + 1) / 2 = i / 2 ^ t / 2 := by omega
    have hodd : (i / 2 ^ t + 1).testBit (d + 1) = (i / 2 ^ t).testBit (d + 1) := by
      rw [Nat.testBit_succ, Nat.testBit_succ, hhalf]
    rw [if_neg hp.ne', if_neg hp.not_gt, hd, hodd, Nat.testBit_div_two_pow]
    congr 1
    omega

/-- Indices that agree from a bit on agree above it and in the bit. -/
theorem div_two_pow_eq_iff {a b i : ℕ} : a / 2 ^ i = b / 2 ^ i ↔
    a / 2 ^ (i + 1) = b / 2 ^ (i + 1) ∧ a.testBit i = b.testBit i := by
  rw [Nat.testBit_eq_decide_div_mod_eq, Nat.testBit_eq_decide_div_mod_eq, decide_eq_decide,
    pow_succ, ← Nat.div_div_eq_div_mul, ← Nat.div_div_eq_div_mul]
  omega

theorem testBit_eq_of_div_eq {a b m p : ℕ} (h : a / 2 ^ m = b / 2 ^ m) (hp : m ≤ p) :
    a.testBit p = b.testBit p := by
  have hbit := congrArg (Nat.testBit · (p - m)) h
  simpa only [Nat.testBit_div_two_pow, Nat.sub_add_cancel hp] using hbit

/-- An index has no bits past its length. -/
theorem testBit_eq_false_of_lt {x n p : ℕ} (hx : x < 2 ^ n) (hp : n ≤ p) : x.testBit p = false :=
  Nat.testBit_lt_two_pow (hx.trans_le (Nat.pow_le_pow_right (by decide) hp))

/-- An index below twice a power of two lies in the lower half if its leading bit is clear. -/
theorem lt_two_pow_of_testBit_eq_false {x h : ℕ} (hx : x < 2 ^ (h + 1)) (hb : x.testBit h = false) :
    x < 2 ^ h := by
  apply Nat.lt_pow_two_of_testBit
  intro p hp
  rcases eq_or_lt_of_le hp with rfl | hp
  · exact hb
  · exact testBit_eq_false_of_lt hx hp

theorem and_two_pow_eq_zero {i t : ℕ} : i &&& 2 ^ t = 0 ↔ i.testBit t = false := by
  rw [Nat.and_two_pow]
  cases i.testBit t <;> simp

/-- Setting a bit that is clear flips it. -/
theorem or_two_pow_eq_xor {i t : ℕ} (h : i.testBit t = false) : i ||| 2 ^ t = i ^^^ 2 ^ t := by
  apply Nat.eq_of_testBit_eq
  intro p
  rw [Nat.testBit_or, Nat.testBit_xor, Nat.testBit_two_pow]
  by_cases hp : t = p
  · subst hp
    simp [h]
  · simp [hp]

/-- In a chunk, setting a bit of the offset sets that bit of the index. -/
theorem add_or_two_pow {h j t : ℕ} (c : ℕ) (hj : j < 2 ^ (h + 1)) (ht : t ≤ h) :
    2 ^ (h + 1) * c + (j ||| 2 ^ t) = withBit (2 ^ (h + 1) * c + j) t true := by
  have hor : j ||| 2 ^ t < 2 ^ (h + 1) :=
    Nat.or_lt_two_pow hj (Nat.pow_lt_pow_right (by decide) (by omega))
  apply Nat.eq_of_testBit_eq
  intro p
  rw [testBit_withBit, Nat.testBit_two_pow_mul_add _ hor, Nat.testBit_two_pow_mul_add _ hj,
    Nat.testBit_or, Nat.testBit_two_pow]
  by_cases hp : p = t
  · have hlow : t < h + 1 := by omega
    simp [hp, hlow]
  · simp [hp, Ne.symm hp]

/-- The lower half of chunk `c`, where chunks have `2 ^ (h + 1)` indices. -/
def chunkKeys (h c : ℕ) : List ℕ := (List.range (2 ^ h)).map (2 ^ (h + 1) * c + ·)

theorem mem_chunkKeys {h c b : ℕ} :
    b ∈ chunkKeys h c ↔ b / 2 ^ (h + 1) = c ∧ b.testBit h = false := by
  have hhalf : 2 ^ h < 2 ^ (h + 1) := Nat.pow_lt_pow_right (by decide) (by omega)
  constructor
  · intro hb
    obtain ⟨j, hj, rfl⟩ := List.mem_map.1 hb
    have hj := List.mem_range.1 hj
    constructor
    · rw [Nat.mul_add_div (by positivity), Nat.div_eq_of_lt (hj.trans hhalf), Nat.add_zero]
    · rw [Nat.testBit_two_pow_mul_add _ (hj.trans hhalf), if_pos (Nat.lt_succ_self h),
        Nat.testBit_lt_two_pow hj]
  · rintro ⟨rfl, hb⟩
    refine List.mem_map.2 ⟨b % 2 ^ (h + 1), List.mem_range.2 ?_, Nat.div_add_mod _ _⟩
    apply lt_two_pow_of_testBit_eq_false (Nat.mod_lt _ (by positivity))
    simp [Nat.testBit_mod_two_pow, hb]

theorem nodup_chunkKeys (h c : ℕ) : (chunkKeys h c).Nodup :=
  List.nodup_range.map fun _ _ hab => Nat.add_left_cancel hab

theorem lt_of_mem_chunkKeys {n h c b : ℕ} (hn : h < n) (hc : c < 2 ^ (n - (h + 1)))
    (hb : b ∈ chunkKeys h c) : b < 2 ^ n := by
  have hsize : 2 ^ n = 2 ^ (n - (h + 1)) * 2 ^ (h + 1) := by
    rw [← pow_add]
    congr 1
    omega
  rw [hsize, ← Nat.div_lt_iff_lt_mul (by positivity), (mem_chunkKeys.1 hb).1]
  exact hc

/-- The local index: bit `j` is the value of the index at the `j`-th listed position. -/
def localIndex : List ℕ → ℕ → ℕ
  | [], _ => 0
  | t :: ts, i => (i.testBit t).toNat + 2 * localIndex ts i

theorem localIndex_lt (ts : List ℕ) (i : ℕ) : localIndex ts i < 2 ^ ts.length := by
  induction ts with
  | nil => simp [localIndex]
  | cons t ts ih =>
    have hb : (i.testBit t).toNat ≤ 1 := Bool.toNat_le _
    unfold localIndex
    rw [List.length_cons, pow_succ]
    omega

/-- The bits of a local index are those of the index at the listed positions. -/
theorem testBit_localIndex (ts : List ℕ) (i j : ℕ) :
    (localIndex ts i).testBit j = (ts[j]?.elim false i.testBit) := by
  induction ts generalizing j with
  | nil => simp [localIndex]
  | cons t ts ih =>
    have hb : (i.testBit t).toNat ≤ 1 := Bool.toNat_le _
    cases j with
    | zero =>
      unfold localIndex
      rw [Nat.testBit_zero, Nat.add_mul_mod_self_left]
      cases h : i.testBit t <;> simp [h]
    | succ j =>
      have hhalf : ((i.testBit t).toNat + 2 * localIndex ts i) / 2 = localIndex ts i := by omega
      unfold localIndex
      rw [Nat.testBit_succ, hhalf, ih, List.getElem?_cons_succ]

/-- The index with the listed positions written over by the bits of a local index. -/
def replaceBits : List ℕ → ℕ → ℕ → ℕ
  | [], _, i => i
  | t :: ts, k, i => withBit (replaceBits ts (k / 2) i) t (k.testBit 0)

theorem testBit_replaceBits_of_notMem {ts : List ℕ} {p : ℕ} (hp : p ∉ ts) (k i : ℕ) :
    (replaceBits ts k i).testBit p = i.testBit p := by
  induction ts generalizing k with
  | nil => rfl
  | cons t ts ih =>
    obtain ⟨hpt, hps⟩ : p ≠ t ∧ p ∉ ts := by simpa using hp
    simp [replaceBits, hpt, ih hps]

theorem testBit_replaceBits_getElem {ts : List ℕ} (hts : ts.Nodup) (k i : ℕ) {j : ℕ}
    (hj : j < ts.length) : (replaceBits ts k i).testBit ts[j] = k.testBit j := by
  induction ts generalizing k j with
  | nil => simp at hj
  | cons t ts ih =>
    obtain ⟨hfirst, hrest⟩ := List.nodup_cons.1 hts
    cases j with
    | zero => simp [replaceBits]
    | succ j =>
      have hj' : j < ts.length := by simpa using hj
      have hne : ts[j] ≠ t := fun h => hfirst (h ▸ List.getElem_mem hj')
      simp [replaceBits, hne, ih hrest (k / 2) hj', Nat.testBit_succ]

theorem replaceBits_lt {n : ℕ} {ts : List ℕ} (hts : ∀ t ∈ ts, t < n) (k : ℕ) {i : ℕ}
    (hi : i < 2 ^ n) : replaceBits ts k i < 2 ^ n := by
  induction ts generalizing k with
  | nil => exact hi
  | cons t ts ih =>
    exact withBit_lt _ (ih (fun u hu => hts u (List.mem_cons_of_mem _ hu)) _) (hts t (by simp))

/-- The last replacement of the same positions counts. -/
theorem replaceBits_replaceBits {ts : List ℕ} (hts : ts.Nodup) (k l i : ℕ) :
    replaceBits ts k (replaceBits ts l i) = replaceBits ts k i := by
  apply Nat.eq_of_testBit_eq
  intro p
  by_cases hp : p ∈ ts
  · obtain ⟨j, hj, rfl⟩ := List.getElem_of_mem hp
    rw [testBit_replaceBits_getElem hts _ _ hj, testBit_replaceBits_getElem hts _ _ hj]
  · simp only [testBit_replaceBits_of_notMem hp]

theorem localIndex_replaceBits {ts : List ℕ} (hts : ts.Nodup) {k : ℕ} (hk : k < 2 ^ ts.length)
    (i : ℕ) : localIndex ts (replaceBits ts k i) = k := by
  apply Nat.eq_of_testBit_eq
  intro j
  rw [testBit_localIndex]
  by_cases hj : j < ts.length
  · rw [List.getElem?_eq_getElem hj]
    exact testBit_replaceBits_getElem hts k i hj
  · rw [List.getElem?_eq_none (by omega)]
    exact (testBit_eq_false_of_lt hk (Nat.le_of_not_lt hj)).symm

/-- An index is what its own local index writes into it. -/
theorem replaceBits_localIndex {ts : List ℕ} (hts : ts.Nodup) (i : ℕ) :
    replaceBits ts (localIndex ts i) i = i := by
  apply Nat.eq_of_testBit_eq
  intro p
  by_cases hp : p ∈ ts
  · obtain ⟨j, hj, rfl⟩ := List.getElem_of_mem hp
    rw [testBit_replaceBits_getElem hts _ _ hj, testBit_localIndex, List.getElem?_eq_getElem hj]
    rfl
  · rw [testBit_replaceBits_of_notMem hp]

section Sums

variable {M : Type*} [AddCommMonoid M]

theorem withBit_injOn (t : ℕ) : Function.Involutive fun i => withBit i t !i.testBit t := by
  intro i
  apply Nat.eq_of_testBit_eq
  intro p
  by_cases hp : p = t <;> simp [hp]

/-- Both values of one bit, summed over all indices, count every index twice. -/
theorem sum_withBit {n t : ℕ} (ht : t < n) (g : ℕ → M) :
    ∑ i ∈ Finset.range (2 ^ n), (g (withBit i t false) + g (withBit i t true)) =
      2 • ∑ i ∈ Finset.range (2 ^ n), g i := by
  have hpair (i : ℕ) : g (withBit i t false) + g (withBit i t true) =
      g i + g (withBit i t !i.testBit t) := by
    cases hi : i.testBit t
    · rw [withBit_self hi, Bool.not_false]
    · rw [withBit_self hi, Bool.not_true, add_comm]
  have hflip : ∑ i ∈ Finset.range (2 ^ n), g (withBit i t !i.testBit t) =
      ∑ i ∈ Finset.range (2 ^ n), g i := by
    have hmem (i : ℕ) (hi : i ∈ Finset.range (2 ^ n)) :
        withBit i t (!i.testBit t) ∈ Finset.range (2 ^ n) := by
      simpa using withBit_lt _ (by simpa using hi) ht
    exact Finset.sum_bij' (fun i _ => withBit i t !i.testBit t)
      (fun i _ => withBit i t !i.testBit t) hmem hmem (fun i _ => withBit_injOn t i)
      (fun i _ => withBit_injOn t i) fun _ _ => rfl
  rw [Finset.sum_congr rfl fun i _ => hpair i, Finset.sum_add_distrib, hflip, two_nsmul]

theorem sum_range_double (f : ℕ → M) (m : ℕ) :
    ∑ k ∈ Finset.range (2 * m), f k = ∑ k ∈ Finset.range m, (f (2 * k) + f (2 * k + 1)) := by
  induction m with
  | zero => simp
  | succ m ih =>
    rw [Finset.sum_range_succ, ← ih, Nat.mul_succ, Finset.sum_range_succ, Finset.sum_range_succ,
      add_assoc]

/-- All values of the listed bits, summed over all indices, count every index once for each
value. -/
theorem sum_replaceBits {n : ℕ} {ts : List ℕ} (hts : ∀ t ∈ ts, t < n) (g : ℕ → M) :
    ∑ i ∈ Finset.range (2 ^ n), ∑ k ∈ Finset.range (2 ^ ts.length), g (replaceBits ts k i) =
      2 ^ ts.length • ∑ i ∈ Finset.range (2 ^ n), g i := by
  induction ts generalizing g with
  | nil => simp [replaceBits]
  | cons t ts ih =>
    have hsplit (i : ℕ) : ∑ k ∈ Finset.range (2 ^ (t :: ts).length), g (replaceBits (t :: ts) k i) =
        ∑ k ∈ Finset.range (2 ^ ts.length),
          (g (withBit (replaceBits ts k i) t false) + g (withBit (replaceBits ts k i) t true)) := by
      rw [List.length_cons, pow_succ, Nat.mul_comm, sum_range_double]
      apply Finset.sum_congr rfl
      intro k _
      have hodd : (2 * k + 1) / 2 = k := by omega
      simp [replaceBits, hodd]
    rw [Finset.sum_congr rfl fun i _ => hsplit i,
      ih (fun u hu => hts u (List.mem_cons_of_mem _ hu))
        fun i => g (withBit i t false) + g (withBit i t true),
      sum_withBit (hts t (by simp)), List.length_cons, smul_smul, pow_succ]

end Sums

end QuantumSim.BasisIndex
