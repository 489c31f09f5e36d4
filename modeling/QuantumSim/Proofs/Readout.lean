import Mathlib
import QuantumSim.Sampling
import QuantumSim.Proofs.Application

/-!
Readings. Over qubits of the register no index and no shift leaves its range: a basis index reads as
its local index at the listed qubits, and a marginal outcome gives back the bit of every measured
one.
-/
namespace QuantumSim
open BasisIndex

theorem or_two_pow_mul {k m b : ℕ} (hk : k < 2 ^ m) : k ||| 2 ^ m * b = k + 2 ^ m * b := by
  rw [Nat.or_comm, ← Nat.two_pow_add_eq_or_of_lt hk, Nat.add_comm]

theorem localIndex_append_singleton (ts : List ℕ) (t i : ℕ) :
    localIndex (ts ++ [t]) i = localIndex ts i + 2 ^ ts.length * (i.testBit t).toNat := by
  induction ts with
  | nil => simp [localIndex]
  | cons u ts ih =>
    rw [List.cons_append, localIndex, ih, localIndex, List.length_cons, pow_succ]
    ring

theorem Split.reduce_induction {β : Type} {leaf : ℕ → ℕ → β} {merge : β → β → β} {P : β → Prop}
    (hleaf : ∀ a b, P (leaf a b)) (hmerge : ∀ x y, P x → P y → P (merge x y)) (split : Split)
    (start stop : ℕ) : P (split.reduce leaf merge start stop) := by
  induction split generalizing start stop with
  | whole => exact hleaf start stop
  | cut length left right ihl ihr => exact hmerge _ _ (ihl _ _) (ihr _ _)

/-- A split of stretches none of which fails does not fail. -/
theorem Split.reduce_eq_ok {ε β : Type} {leaf : ℕ → ℕ → Except ε β} {leaf' : ℕ → ℕ → β}
    {merge : Except ε β → Except ε β → Except ε β} {merge' : β → β → β} {size : ℕ}
    (hleaf : ∀ a b, b ≤ size → leaf a b = .ok (leaf' a b))
    (hmerge : ∀ x y, merge (.ok x) (.ok y) = .ok (merge' x y)) (split : Split) {start stop : ℕ}
    (h : stop ≤ size) :
    split.reduce leaf merge start stop = .ok (split.reduce leaf' merge' start stop) := by
  induction split generalizing start stop with
  | whole => exact hleaf start stop h
  | cut length left right ihl ihr =>
    have hmiddle : min (start + length) stop ≤ size := (min_le_right _ _).trans h
    rw [reduce, reduce, ihl hmiddle, ihr h, hmerge]

namespace Statevector

/-- A basis index reads as its local index at the listed qubits. -/
theorem reading_eq_ok {qubits : List Qubit} (hlen : qubits.length ≤ 64)
    (hq : ∀ q ∈ qubits, q.index < 64) (i : ℕ) :
    reading qubits i = .ok (localIndex (qubits.map Qubit.index) i) := by
  induction qubits using List.reverseRecOn with
  | nil => rfl
  | append_singleton qubits q ih =>
    rw [List.length_append, List.length_singleton] at hlen
    have hinit := ih (by omega) fun p hp => hq p (List.mem_append_left _ hp)
    have hlast := hq q (by simp)
    have hlt := localIndex_lt (qubits.map Qubit.index) i
    rw [List.length_map] at hlt
    unfold reading at hinit ⊢
    rw [List.zipIdx_append, List.foldlM_append, hinit, ok_bind]
    simp only [List.zipIdx_singleton, List.foldlM_cons, List.foldlM_nil, bitAt_eq hlast, ok_bind,
      Nat.zero_add, shiftUp_eq (show qubits.length < 64 by omega), or_two_pow_mul hlt]
    rw [List.map_append, List.map_singleton, localIndex_append_singleton, List.length_map]
    rfl

variable {R : Type} [Scalar R]

/-- Adds the probability of an index to the entry of its reading. -/
def tally (s : Statevector R) (qubits : List Qubit) (marginal : Array R) (i : ℕ) : Array R :=
  let p := (Kernel.valueAt s.amplitudes i).normSq
  if Scalar.same p Scalar.zero then marginal
  else marginal.modify (localIndex (qubits.map Qubit.index) i) (· + p)

@[simp] theorem size_tally (s : Statevector R) (qubits : List Qubit) (marginal : Array R) (i : ℕ) :
    (s.tally qubits marginal i).size = marginal.size := by
  simp only [tally]
  split <;> simp

/-- The marginal of the indices from `start` to `stop`. -/
def tallyRange (s : Statevector R) (qubits : List Qubit) (start stop : ℕ) : Array R :=
  (List.range' start (stop - start)).foldl (s.tally qubits)
    (Array.replicate (2 ^ qubits.length) Scalar.zero)

theorem size_tallyRange (s : Statevector R) (qubits : List Qubit) (start stop : ℕ) :
    (s.tallyRange qubits start stop).size = 2 ^ qubits.length := by
  unfold tallyRange
  induction List.range' start (stop - start) using List.reverseRecOn with
  | nil => simp
  | append_singleton l i ih => simpa using ih

theorem addToMarginal_eq_ok {s : Statevector R} (hs : s.IsRegister) {qubits : List Qubit}
    (hlen : qubits.length < 64) (hq : ∀ q ∈ qubits, q.index < s.numQubits) {marginal : Array R}
    (hm : marginal.size = 2 ^ qubits.length) (i : ℕ) :
    addToMarginal qubits marginal i (Kernel.valueAt s.amplitudes i) =
      .ok (s.tally qubits marginal i) := by
  have hread := reading_eq_ok hlen.le (fun q hq' => (hq q hq').trans hs.width) i
  have hlt := localIndex_lt (qubits.map Qubit.index) i
  rw [List.length_map, ← hm] at hlt
  simp only [addToMarginal, tally]
  split
  · rfl
  · rw [hread, ok_bind, changeAt_eq _ hlt]

/-- The marginals of distinct qubits of the register, computed without leaving any range. -/
theorem marginalProbabilities_eq_ok {s : Statevector R} (hs : s.IsRegister) {qubits : List Qubit}
    (hlen : qubits.length < 64) (hq : ∀ q ∈ qubits, q.index < s.numQubits) :
    s.marginalProbabilities qubits =
      .ok (s.split.reduce (s.tallyRange qubits) (Array.zipWith (· + ·)) 0 s.size) := by
  unfold marginalProbabilities
  rw [bitMask_eq hlen, ok_bind]
  refine Split.reduce_eq_ok (fun start stop hstop => ?_) (fun _ _ => rfl) _ le_rfl
  refine (foldlM_eq_ok (fun m => m.size = 2 ^ qubits.length) (fun m hm i hi => ?_) (by simp)).1
  have hi : i < s.amplitudes.size := by
    have := List.mem_range'_1.1 hi
    have hsize : stop ≤ s.amplitudes.size := hstop
    omega
  rw [Kernel.elementAt_eq hi, ok_bind, addToMarginal_eq_ok hs hlen hq hm, size_tally]
  exact ⟨rfl, hm⟩

theorem exists_marginalProbabilities_eq_ok {s : Statevector R} (hs : s.IsRegister)
    {qubits : List Qubit} (hlen : qubits.length < 64) (hq : ∀ q ∈ qubits, q.index < s.numQubits) :
    ∃ marginal, s.marginalProbabilities qubits = .ok marginal ∧
      marginal.size = 2 ^ qubits.length := by
  refine ⟨_, marginalProbabilities_eq_ok hs hlen hq, ?_⟩
  refine Split.reduce_induction (P := fun m : Array R => m.size = 2 ^ qubits.length)
    (s.size_tallyRange qubits) (fun x y hx hy => ?_) _ _ _
  rw [Array.size_zipWith, hx, hy, min_self]

end Statevector

namespace Sampler

theorem placeOf_eq {measured : List Qubit} {q : Qubit} (hq : q ∈ measured) :
    placeOf measured q = .ok (measured.idxOf q) :=
  if_pos (List.idxOf_lt_length_iff.2 hq)

/-- The classical bits after writing the values that an index has at the listed qubits. -/
def bitsAt (map : List (Qubit × Clbit)) (i : ℕ) (bits : Array Bool) : Array Bool :=
  map.foldl (fun bits pair => bits.setIfInBounds pair.2.index (i.testBit pair.1.index)) bits

theorem writeBit_eq {bits : Array Bool} {c : Clbit} (h : c.index < bits.size) (value : Bool) :
    writeBit bits c value = .ok (bits.setIfInBounds c.index value) := if_pos h

/-- The text of a marginal outcome shows the values of the measured qubits in any index that reads
as this outcome. -/
theorem readoutText_eq_ok {map : List (Qubit × Clbit)} {measured : List Qubit} {width : ℕ}
    (hlen : measured.length ≤ 64) (hmeasured : ∀ pair ∈ map, pair.1 ∈ measured)
    (hbits : ∀ pair ∈ map, pair.2.index < width) (i : ℕ) :
    readoutText map measured width (localIndex (measured.map Qubit.index) i) =
      .ok (bitText (bitsAt map i (Array.replicate width false))) := by
  have hvalue (q : Qubit) (hq : q ∈ measured) :
      bitAt (localIndex (measured.map Qubit.index) i) (measured.idxOf q) =
        .ok (i.testBit q.index).toNat := by
    have hplace := List.idxOf_lt_length_iff.2 hq
    rw [bitAt_eq (hplace.trans_le hlen), testBit_localIndex, List.getElem?_map,
      List.getElem?_idxOf hq]
    rfl
  have hstep (bits : Array Bool) (hb : bits.size = width) (pair : Qubit × Clbit)
      (hpair : pair ∈ map) :
      (do
        let value ← bitAt (localIndex (measured.map Qubit.index) i) (← placeOf measured pair.1)
        writeBit bits pair.2 (value == 1) : Checked (Array Bool)) =
          .ok (bits.setIfInBounds pair.2.index (i.testBit pair.1.index)) := by
    rw [placeOf_eq (hmeasured pair hpair), ok_bind, hvalue _ (hmeasured pair hpair), ok_bind,
      writeBit_eq (hb ▸ hbits pair hpair)]
    cases i.testBit pair.1.index <;> rfl
  rw [readoutText, (foldlM_eq_ok (fun bits => bits.size = width)
    (fun bits hb pair hpair => ⟨hstep bits hb pair hpair, by simpa using hb⟩) (by simp)).1]
  rfl

end Sampler

end QuantumSim
