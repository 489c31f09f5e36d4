import Mathlib
import QuantumSim.Proofs.CatStates
import QuantumSim.Proofs.RegisterReadout
import QuantumSim.Proofs.WeightedDraws

/-!
Sampling cat states. Rounding keeps zeros: what was zero in the amplitudes is zero in the weights of
the outcomes, so that only two outcomes have weight and every shot reads alike on all qubits. Over
exact numbers this takes no assumption about the draws.
-/
namespace QuantumSim

/-- Grades of numbers: `false` for zeros, and `true` for numbers that are at most one in magnitude.
Machine numbers follow the laws as well as exact ones. A product with a zero and a sum of zeros are
zeros, though not always of the same sign, and no product of such numbers exceeds one. -/
structure Scalar.KeepsZeros {R : Type} [Scalar R] (grade : Bool → R → Prop) : Prop where
  same : ∀ x, grade false x → Scalar.same x Scalar.zero = true
  zero : grade false Scalar.zero
  one : grade true Scalar.one
  sqrtHalf : grade true Scalar.sqrtHalf
  neg : ∀ b x, grade b x → grade b (-x)
  mul : ∀ b c x y, grade b x → grade c y → grade (b && c) (x * y)
  add_zero : ∀ b x y, grade b x → grade false y → grade b (x + y)
  zero_add : ∀ b x y, grade false x → grade b y → grade b (x + y)
  sub_zero : ∀ b x y, grade b x → grade false y → grade b (x - y)

theorem Scalar.keepsZeros_real : KeepsZeros fun b (x : ℝ) => b = false → x = 0 := by
  constructor
  · rintro x hx
    rw [hx rfl, same_real, zero_real, decide_eq_true_iff]
  all_goals simp +contextual

namespace Amplitude

variable {R : Type} [Scalar R]

/-- An amplitude on the real axis, graded by its real part. -/
def Graded (grade : Bool → R → Prop) (b : Bool) (a : Amplitude R) : Prop :=
  grade b a.re ∧ grade false a.im

variable {grade : Bool → R → Prop} {b c : Bool} {x y : Amplitude R}

theorem Graded.mul (hgrade : Scalar.KeepsZeros grade) (hx : Graded grade b x)
    (hy : Graded grade c y) : Graded grade (b && c) (x * y) := by
  constructor
  · exact hgrade.sub_zero _ _ _ (hgrade.mul _ _ _ _ hx.1 hy.1) (hgrade.mul _ _ _ _ hx.2 hy.2)
  · have hre := hgrade.mul _ _ _ _ hx.1 hy.2
    rw [Bool.and_false] at hre
    exact hgrade.add_zero _ _ _ hre (hgrade.mul _ _ _ _ hx.2 hy.1)

theorem Graded.add_zero (hgrade : Scalar.KeepsZeros grade) (hx : Graded grade b x)
    (hy : Graded grade false y) : Graded grade b (x + y) :=
  ⟨hgrade.add_zero _ _ _ hx.1 hy.1, hgrade.add_zero _ _ _ hx.2 hy.2⟩

theorem Graded.zero_add (hgrade : Scalar.KeepsZeros grade) (hx : Graded grade false x)
    (hy : Graded grade b y) : Graded grade b (x + y) :=
  ⟨hgrade.zero_add _ _ _ hx.1 hy.1, hgrade.zero_add _ _ _ hx.2 hy.2⟩

theorem Graded.normSq (hgrade : Scalar.KeepsZeros grade) (hx : Graded grade false x) :
    grade false x.normSq :=
  hgrade.add_zero _ _ _ (hgrade.mul _ _ _ _ hx.1 hx.1) (hgrade.mul _ _ _ _ hx.2 hx.2)

theorem graded_zero (hgrade : Scalar.KeepsZeros grade) : Graded grade false (zero : Amplitude R) :=
  ⟨hgrade.zero, hgrade.zero⟩

theorem graded_one (hgrade : Scalar.KeepsZeros grade) : Graded grade true (one : Amplitude R) :=
  ⟨hgrade.one, hgrade.zero⟩

/-- The circuit of a cat state keeps the zeros of its amplitudes. -/
theorem catRules_graded (hgrade : Scalar.KeepsZeros grade) :
    CatRules (Graded grade : Bool → Amplitude R → Prop) := by
  have hs : Graded grade true (ofReal Scalar.sqrtHalf) := ⟨hgrade.sqrtHalf, hgrade.zero⟩
  have hns : Graded grade true (-ofReal Scalar.sqrtHalf) :=
    ⟨hgrade.neg _ _ hgrade.sqrtHalf, hgrade.neg _ _ hgrade.zero⟩
  have hzero := graded_zero hgrade
  have hone := graded_one hgrade
  constructor
  · intro b lead
    have hlead : Graded grade b lead := by
      cases b
      · exact hzero
      · exact hone
    have hproduct : Graded grade b (ofReal Scalar.sqrtHalf * lead) := hs.mul hgrade hlead
    exact ⟨hproduct.add_zero hgrade (hs.mul hgrade hzero),
      hproduct.add_zero hgrade (hns.mul hgrade hzero)⟩
  · intro b c x y hx hy
    exact (hone.mul hgrade hx).add_zero hgrade (hzero.mul hgrade hy)
  · intro b c x y hx hy
    exact (hzero.mul hgrade hx).zero_add hgrade (hone.mul hgrade hy)

end Amplitude

namespace Statevector

variable {R : Type} [Scalar R] {grade : Bool → R → Prop}

/-- An entry of a marginal that is zero. -/
def Vanishes (grade : Bool → R → Prop) (k : ℕ) (marginal : Array R) : Prop :=
  ∀ w, marginal[k]? = some w → grade false w

/-- An outcome to which only indices without weight read has no weight. -/
theorem vanishes_marginal (hgrade : Scalar.KeepsZeros grade) {s : Statevector R}
    (hs : s.IsRegister) {qubits : List Qubit} (hlen : qubits.length < 64)
    (hq : ∀ q ∈ qubits, q.index < s.numQubits) {k : ℕ}
    (hzero : ∀ i < 2 ^ s.numQubits, BasisIndex.localIndex (qubits.map Qubit.index) i = k →
      grade false (Kernel.valueAt s.amplitudes i).normSq)
    {marginal : Array R} (h : s.marginalProbabilities qubits = .ok marginal) :
    Vanishes grade k marginal := by
  have htally (i : ℕ) (m : Array R) (hm : Vanishes grade k m) :
      Vanishes grade k (s.tally qubits m i) := by
    simp only [tally]
    split
    next => exact hm
    next hsame =>
      have hne : BasisIndex.localIndex (qubits.map Qubit.index) i ≠ k := by
        intro hread
        apply hsame
        apply hgrade.same
        by_cases hi : i < 2 ^ s.numQubits
        · exact hzero i hi hread
        · have hpast : Kernel.valueAt s.amplitudes i = .zero := by
            simp [Kernel.valueAt, hs.size, hi]
          rw [hpast]
          exact (Amplitude.graded_zero hgrade).normSq hgrade
      intro w hw
      rw [Array.getElem?_modify, if_neg hne] at hw
      exact hm w hw
  have hleaf (start stop : ℕ) : Vanishes grade k (s.tallyRange qubits start stop) := by
    unfold tallyRange
    induction List.range' start (stop - start) using List.reverseRecOn with
    | nil =>
      intro w hw
      have hfirst : Scalar.zero = w := by
        rw [List.foldl_nil, Array.getElem?_replicate] at hw
        split at hw
        · exact Option.some.inj hw
        · cases hw
      exact hfirst ▸ hgrade.zero
    | append_singleton l i ih =>
      rw [List.foldl_append]
      exact htally i _ ih
  rw [marginalProbabilities_eq_ok hs hlen hq] at h
  cases h
  refine Split.reduce_induction (P := Vanishes grade k) hleaf (fun x y hx hy w hw => ?_) _ _ _
  rw [Array.getElem?_zipWith] at hw
  split at hw
  next a b ha hb =>
    cases hw
    exact hgrade.add_zero _ _ _ (hx a ha) (hy b hb)
  next => cases hw

end Statevector

namespace Sampler

variable {R G : Type} [Scalar R] [RandomSource G]

/-- What is drawn is selected by random words. -/
theorem exists_word_of_mem_drawn {dist : WeightedIndex R} {shots : ℕ} {g : G} {k : ℕ}
    (h : k ∈ drawn dist shots g) : ∃ word, dist.select (Scalar.ofUnitWord word) = k := by
  induction shots generalizing g with
  | zero => cases h
  | succ shots ih =>
    rcases List.mem_cons.1 h with rfl | h
    · exact ⟨_, rfl⟩
    · exact ih h

/-- A cat index reads as zeros or as ones only. -/
theorem textOf_catIndex {n k : ℕ} (h : catIndex n k = true) :
    textOf n k.testBit = String.ofList (List.replicate n '0') ∨
      textOf n k.testBit = String.ofList (List.replicate n '1') := by
  obtain ⟨b, hb⟩ := catIndex_iff.1 h
  have htext : textOf n k.testBit =
      String.ofList (List.replicate n (if b then '1' else '0')) := by
    rw [← List.ofFn_const, textOf_congr fun p hp => (hb p).trans (by simp [hp] : _ = b)]
    rfl
  cases b
  · exact .inl htext
  · exact .inr htext

/-- No draw from the final state of a circuit selects an outcome of weight zero. -/
def DrawsPossible (c : Circuit R) (steps : List (Step R)) (machine : Machine) : Prop :=
  ∀ final marginal, finalState c steps machine = .ok final →
    final.marginalProbabilities c.measuredQubits = .ok marginal →
      WeightedIndex.SkipsZeros marginal.toList

theorem drawsPossible_real (c : Circuit ℝ) (steps : List (Step ℝ)) (machine : Machine) :
    DrawsPossible c steps machine :=
  fun _ marginal _ _ => WeightedIndex.skipsZeros_real marginal.toList

end Sampler

/-- Counts of shots each of which shows zeros only, or ones only. -/
structure Counts.Unanimous (counts : Counts) (width shots : ℕ) : Prop where
  total : counts.total = shots
  texts : ∀ text ∈ counts.table.keys, text = String.ofList (List.replicate width '0') ∨
    text = String.ofList (List.replicate width '1')

namespace Sampler

variable {R G : Type} [Scalar R] [RandomSource G] {grade : Bool → R → Prop} {n : UInt32}
  {machine : Machine}

/-- Outcomes of a cat state that are no cat indices have no weight. -/
theorem vanishes_cat (hgrade : Scalar.KeepsZeros grade) (hpos : 1 ≤ n.toNat)
    {final : Statevector R}
    (hfinal : finalState (.cat n) (Circuit.catSteps n) machine = .ok final) {marginal : Array R}
    (hmarginal : final.marginalProbabilities (Qubit.range n) = .ok marginal) {k : ℕ}
    (hk : catIndex n.toNat k = false) : Statevector.Vanishes grade k marginal := by
  have hfits := Circuit.compile_fits (Circuit.validate_cat hpos) (Circuit.compile_cat (R := R) n)
  have hpassed : final.HasWidth n.toNat ∧ ∀ i < 2 ^ n.toNat, Kernel.valueAt final.amplitudes i =
      Step.passed (Circuit.catSteps n) Statevector.ground i := eq_of_finalState hfits hfinal
  obtain ⟨hwidth, hvalues⟩ := hpassed
  have hn : n.toNat < 64 := lt_of_finalState hfinal
  have hlen : (Qubit.range n).length = n.toNat := by simp [Qubit.range]
  have hrange : ∀ q ∈ Qubit.range n, q.index < final.numQubits := fun q hq =>
    hwidth.width.symm ▸ Qubit.index_lt_of_mem_range hq
  refine Statevector.vanishes_marginal hgrade hwidth.register (hlen ▸ hn) hrange ?_ hmarginal
  intro i hi hread
  rw [hwidth.width] at hi
  rw [Qubit.map_index_range, localIndex_range hi] at hread
  have hshape := catShape_passed (Amplitude.catRules_graded hgrade) hpos i
  rw [hread, hk, ← hread, ← hvalues i hi] at hshape
  exact hshape.normSq hgrade

/-- A sampled run of the circuit that succeeds counts unanimous shots. -/
theorem unanimous_of_sample (hgrade : Scalar.KeepsZeros grade) (hpos : 1 ≤ n.toNat)
    (hpossible : DrawsPossible (.cat n : Circuit R) (Circuit.catSteps n) machine)
    {shots : UInt32} {g g' : G} {counts : Counts} {method : String}
    (h : (sample (.cat n) (Circuit.catSteps n) machine shots.toNat :
      Sampling R G (Counts × String)).run g = (.ok (counts, method), g')) :
    counts.Unanimous n.toNat shots.toNat := by
  have hmeasured : (Circuit.cat n : Circuit R).measurementMap ≠ [] := by
    apply List.ne_nil_of_length_pos
    rwa [Circuit.measurementMap_cat, List.length_map, Qubit.range, List.length_map,
      List.length_range]
  have hreads := readsOut_of_sample (Circuit.validate_cat hpos) (Circuit.compile_cat n) hmeasured
    (shots.toNat_lt.trans (by decide)) h
  obtain ⟨final, marginal, dist, hfinal, hmarginal, hdist, -, htallies⟩ :=
    hreads.drawn (Circuit.hasMidCircuitMeasurement_cat n)
  have hskips := hpossible final marginal hfinal hmarginal dist hdist
  rw [Circuit.measuredQubits_cat] at hmarginal htallies
  rw [Circuit.measurementMap_cat] at htallies
  refine ⟨hreads.total, fun text htext => ?_⟩
  obtain ⟨k, hk, rfl⟩ := List.mem_map.1 ((htallies.mem_keys text).1 htext)
  obtain ⟨word, hword⟩ := exists_word_of_mem_drawn hk
  obtain ⟨w, hw, hnonzero⟩ := hskips word
  have hcat : catIndex n.toNat k = true := by
    by_contra hother
    have hzero := vanishes_cat hgrade hpos hfinal hmarginal (Bool.eq_false_iff.2 hother) w
      (by rw [← hword, ← Array.getElem?_toList, hw])
    rw [hgrade.same w hzero] at hnonzero
    cases hnonzero
  have hbits : textOf n.toNat (outcomeBit ((Qubit.range n).map fun q => (q, ⟨q.id⟩))
      (Qubit.range n) k) = textOf n.toNat k.testBit :=
    textOf_congr fun b hb => outcomeBit_range hb k
  show textOf n.toNat _ = _ ∨ textOf n.toNat _ = _
  rw [hbits]
  exact textOf_catIndex hcat

end Sampler

namespace Circuit

variable {n : UInt32}

theorem isExact_cat (n : UInt32) : (cat n : Circuit ℝ).IsExact := by
  intro inst hinst g hop
  obtain ⟨symbol, h, rfl⟩ := exists_plain_of_cat hinst hop
  exact fun p hp => absurd hp List.not_mem_nil

/-- Over exact amplitudes the circuit evolves every register that there is into the cat state. -/
theorem exists_finalState_cat (hpos : 1 ≤ n.toNat) {machine : Machine} {zero : Statevector ℝ}
    (hzero : Statevector.zero n.toNat machine = .ok zero) :
    ∃ final, zero.evolve (catSteps n) = .ok final ∧
      Sampler.finalState (cat n) (catSteps n) machine = .ok final ∧ final.size = 2 ^ n.toNat ∧
      ∀ i < 2 ^ n.toNat, final.coefficient i =
        if i = 0 ∨ i = 2 ^ n.toNat - 1 then ((1 / Real.sqrt 2 : ℝ) : ℂ) else 0 := by
  have hfits := compile_fits (validate_cat hpos) (compile_cat (R := ℝ) n)
  have hunitary := compile_isExact (isExact_cat n).matricesUnitary (compile_cat n)
  obtain ⟨-, final, -, -, hfinal, -, -⟩ := Sampler.exists_finalState_eq
    (Statevector.lt_of_zero_eq_ok hzero) hfits hunitary machine
  have hpassed : final.HasWidth n.toNat ∧ ∀ i < 2 ^ n.toNat, Kernel.valueAt final.amplitudes i =
      Step.passed (catSteps n) Statevector.ground i := Sampler.eq_of_finalState hfits hfinal
  obtain ⟨base, hbase, hevolve⟩ := Sampler.evolve_of_finalState hfinal
  cases hzero.symm.trans hbase
  refine ⟨final, hevolve, hfinal, hpassed.1.size_eq, fun i hi => ?_⟩
  · unfold Statevector.coefficient
    rw [hpassed.2 i hi]
    exact toComplex_passed_cat hpos i

/-- The circuit of the cat state prepares it, and its shots are unanimous. Over exact numbers the
amplitudes are the root of one half where all qubits are zero and where all are one, and zero
elsewhere, and every sampled run succeeds. Over numbers that round but keep zeros, every run that
succeeds, from any random source and by the engine, counts each shot under zeros or under ones, as
long as no draw selects an outcome of weight zero. -/
theorem ghz_unanimous (hpos : 1 ≤ n.toNat) :
    (∃ (c : Circuit ℝ) (steps : List (Step ℝ)), ghz n = .ok c ∧ c.compile = .ok steps ∧
      (∀ i, Step.evolved steps (fun j => if j = 0 then 1 else 0) i =
        if i = 0 ∨ i = 2 ^ n.toNat - 1 then ((1 / Real.sqrt 2 : ℝ) : ℂ) else 0) ∧
      (∀ machine zero, Statevector.zero n.toNat machine = .ok zero →
        ∃ final, zero.evolve steps = .ok final ∧
          Sampler.finalState c steps machine = .ok final ∧ final.size = 2 ^ n.toNat ∧
          ∀ i < 2 ^ n.toNat, final.coefficient i =
            if i = 0 ∨ i = 2 ^ n.toNat - 1 then ((1 / Real.sqrt 2 : ℝ) : ℂ) else 0) ∧
      ∀ (G : Type) [RandomSource G] (machine : Machine) (shots : UInt32) (g : G),
        n.toNat < 64 → ∃ counts g',
          (Sampler.sample c steps machine shots.toNat : Sampling ℝ G (Counts × String)).run g =
            (.ok (counts, "statevector"), g') ∧ counts.Unanimous n.toNat shots.toNat) ∧
    ∀ (R : Type) [Scalar R] (grade : Bool → R → Prop), Scalar.KeepsZeros grade →
      ∃ (c : Circuit R) (steps : List (Step R)), ghz n = .ok c ∧ c.compile = .ok steps ∧
        (∀ (G : Type) [RandomSource G] (machine : Machine) (shots : UInt32) (g g' : G)
            (counts : Counts) (method : String), Sampler.DrawsPossible c steps machine →
          (Sampler.sample c steps machine shots.toNat : Sampling R G (Counts × String)).run g =
            (.ok (counts, method), g') → counts.Unanimous n.toNat shots.toNat) ∧
        ∀ (r : ExecutionRequest R) (e : Engine) (index : ℕ) (given : Conditions)
            (result : ExecutionResult R), r.circuit = c → r.options.mode = .sampled →
          Sampler.DrawsPossible c steps (e.machine given) → e.execute index r given = .ok result →
            ∃ counts, result.data = .counts counts ∧
              counts.Unanimous n.toNat r.options.shots.toNat := by
  constructor
  · refine ⟨cat n, catSteps n, ghz_eq_ok hpos, compile_cat n, fun i => ?_,
      fun machine zero hzero => exists_finalState_cat hpos hzero,
      fun G _ machine shots g hn => ?_⟩
    · have hground : (fun j => (Statevector.ground j : Amplitude ℝ).toComplex) =
          fun j => if j = 0 then 1 else 0 := by
        funext j
        unfold Statevector.ground
        split <;> simp
      have hpassed := congrFun (Step.toComplex_passed (compile_fits (validate_cat hpos)
        (compile_cat n)) Statevector.ground) i
      rw [hground] at hpassed
      exact hpassed.symm.trans (toComplex_passed_cat hpos i)
    · obtain ⟨counts, g', hrun⟩ := Sampler.exists_sample_eq_ok (validate_cat hpos) (isExact_cat n)
        hn (hasMidCircuitMeasurement_cat n) (compile_cat n) machine shots.toNat g
      exact ⟨counts, g', hrun, Sampler.unanimous_of_sample Scalar.keepsZeros_real hpos
        (Sampler.drawsPossible_real _ _ _) hrun⟩
  · intro R _ grade hgrade
    refine ⟨cat n, catSteps n, ghz_eq_ok hpos, compile_cat n,
      fun G _ machine shots g g' counts method hpossible hrun =>
        Sampler.unanimous_of_sample hgrade hpos hpossible hrun,
      fun r e index given result hcircuit hmode hpossible h => ?_⟩
    obtain ⟨steps, counts, method, g', hcompile, hdata, hrun⟩ :=
      ExecutionRequest.exists_run_of_execute hmode h
    have hbound : r.boundCircuit = cat n := by
      rw [ExecutionRequest.boundCircuit, hcircuit, isParameterized_cat]
      rfl
    rw [hbound] at hcompile hrun
    cases (compile_cat n).symm.trans hcompile
    exact ⟨counts, hdata, Sampler.unanimous_of_sample hgrade hpos hpossible hrun⟩

/-- Three qubits: the amplitudes at two of the eight indices, and ten shots by the engine. -/
theorem ghz_unanimous_three :
    let e : Engine := ⟨1024, none, true⟩
    let given : Conditions := { entropy := 7, divide := fun _ => .cut 3 .whole .whole }
    1 ≤ (3 : UInt32).toNat ∧ Scalar.KeepsZeros (fun b (x : ℝ) => b = false → x = 0) ∧
      ∃ (c : Circuit ℝ) (steps : List (Step ℝ)) (zero final : Statevector ℝ)
        (result : ExecutionResult ℝ) (counts : Counts),
        ghz 3 = .ok c ∧ c.compile = .ok steps ∧ Statevector.zero 3 {} = .ok zero ∧
          zero.evolve steps = .ok final ∧
          final.coefficient 7 = ((1 / Real.sqrt 2 : ℝ) : ℂ) ∧ final.coefficient 5 = 0 ∧
          e.execute 0 ⟨c, .sampled 10⟩ given = .ok result ∧
          result.data = .counts counts ∧ counts.total = 10 ∧
          ∀ text ∈ counts.table.keys, text = "000" ∨ text = "111" := by
  intro e given
  have hpos : 1 ≤ (3 : UInt32).toNat := by decide
  obtain ⟨⟨c, steps, hghz, hcompile, -, hexact, hsampled⟩, hgraded⟩ := ghz_unanimous hpos
  obtain ⟨c', steps', hghz', hcompile', -, hengine⟩ := hgraded ℝ _ Scalar.keepsZeros_real
  cases hghz.symm.trans hghz'
  cases hcompile.symm.trans hcompile'
  cases (ghz_eq_ok hpos).symm.trans hghz
  obtain ⟨zero, hzero, -⟩ := Statevector.exists_zero_eq (n := 3) (by decide) {}
  obtain ⟨final, hevolve, -, -, hcoeff⟩ := hexact {} zero hzero
  have hcorner := hcoeff 7 (by decide)
  have hother := hcoeff 5 (by decide)
  rw [if_pos (by decide)] at hcorner
  rw [if_neg (by decide)] at hother
  obtain ⟨drawn, g', hrun, -⟩ :=
    hsampled Random.Stream (e.machine given) 10 (.ofSeed 7) (by decide)
  obtain ⟨result, hresult⟩ : ∃ result, e.execute 0 ⟨cat 3, .sampled 10⟩ given = .ok result :=
    ⟨_, bind_eq_ok.2 ⟨steps, hcompile, bind_eq_ok.2 ⟨_, congrArg Prod.fst hrun, rfl⟩⟩⟩
  obtain ⟨counts, hdata, hunanimous⟩ := hengine _ e 0 given result rfl rfl
    (Sampler.drawsPossible_real _ _ _) hresult
  exact ⟨hpos, Scalar.keepsZeros_real, cat 3, steps, zero, final, result, counts, hghz, hcompile,
    hzero, hevolve, hcorner, hother, hresult, hdata, hunanimous.total, hunanimous.texts⟩

end Circuit

end QuantumSim
