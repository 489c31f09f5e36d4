import Mathlib
import QuantumSim.Proofs.Divisions
import QuantumSim.Proofs.Replay

/-!
Runs of one request with fewer shots. A run takes its draws shot by shot, so that a shorter run from
the same source, with its reductions divided alike, counts the first shots of a longer one and
nothing else. Every bit string is counted at most as often, and the differences add up to the shots
that were left out.
-/
namespace QuantumSim

namespace Counts

variable {fewer counts : Counts} {first rest : List String}

/-- Counts of some shots, and the counts once more shots have come on top. -/
structure Continues (fewer counts : Counts) (shots extra : ℕ) : Prop where
  total_fewer : fewer.total = shots
  total : counts.total = shots + extra
  keys : fewer.table.keys ⊆ counts.table.keys
  le (text : String) : fewer.get text ≤ counts.get text
  /-- The differences add up to the number of further shots. -/
  sum : (counts.table.keys.map fun text =>
    (counts.get text).toNat - (fewer.get text).toNat).sum = extra

theorem Tallies.continues (hfewer : fewer.Tallies first)
    (hcounts : counts.Tallies (first ++ rest)) :
    fewer.Continues counts first.length rest.length := by
  have hdiff (text : String) :
      (counts.get text).toNat - (fewer.get text).toNat = rest.count text := by
    rw [hcounts.get, hfewer.get, List.count_append, Nat.add_sub_cancel_left]
  constructor
  · exact hfewer.total_eq
  · rw [hcounts.total_eq, List.length_append]
  · intro text htext
    rw [hcounts.mem_keys]
    exact List.mem_append_left _ ((hfewer.mem_keys text).1 htext)
  · intro text
    rw [UInt64.le_iff_toNat_le, hcounts.get, hfewer.get, List.count_append]
    omega
  · simp only [hdiff]
    apply sum_count_of_subset counts.table.nodup_keys
    intro text htext
    rw [hcounts.mem_keys]
    exact List.mem_append_right _ htext

end Counts

namespace Sampler

variable {R G : Type} [Scalar R] [RandomSource G]

/-- The draws of a longer run begin with those of a shorter one. -/
theorem exists_drawn_add (dist : WeightedIndex R) (shots extra : ℕ) (g : G) :
    ∃ g₁ : G, drawn dist (shots + extra) g = drawn dist shots g ++ drawn dist extra g₁ := by
  induction shots generalizing g with
  | zero => exact ⟨g, by simp [drawn]⟩
  | succ shots ih =>
    obtain ⟨g₁, hrest⟩ := ih (RandomSource.draw R g).2
    refine ⟨g₁, ?_⟩
    rw [Nat.succ_add]
    exact congrArg (dist.select (RandomSource.draw R g).1 :: ·) hrest

section Shots

variable {c : Circuit R} {steps : List (Step R)} {machine : Machine} {shots extra : ℕ}
  {g g' : G} {counts : Counts}

/-- A run of shots goes on from where a shorter one ends. -/
theorem run_playShots_add {base : Statevector R} {shot : ℕ} {start : Counts}
    (h : (playShots c base steps (shots + extra) shot start : Sampling R G Counts).run g =
      (.ok counts, g')) :
    ∃ fewer g₁,
      (playShots c base steps shots shot start : Sampling R G Counts).run g = (.ok fewer, g₁) ∧
        (playShots c base steps extra (shot + shots) fewer : Sampling R G Counts).run g₁ =
          (.ok counts, g') := by
  induction shots generalizing shot start g with
  | zero => exact ⟨start, g, rfl, by rwa [Nat.zero_add] at h⟩
  | succ shots ih =>
    rw [Nat.succ_add] at h
    obtain ⟨text, g₁, hshot, h⟩ := run_bind_eq_ok h
    obtain ⟨fewer, g₂, hfirst, hrest⟩ := ih h
    refine ⟨fewer, g₂, (run_bind_of_ok hshot).trans hfirst, ?_⟩
    rwa [Nat.add_assoc, Nat.add_comm 1] at hrest

theorem exists_fewer_of_sampleFinalState (hvalid : c.validate = .ok ())
    (hcompile : c.compile = .ok steps) (hshots : shots + extra < UInt64.size)
    (h : (sampleFinalState c steps machine (shots + extra) : Sampling R G Counts).run g =
      (.ok counts, g')) :
    ∃ fewer g₁, (sampleFinalState c steps machine shots : Sampling R G Counts).run g =
        (.ok fewer, g₁) ∧ fewer.Continues counts shots extra := by
  obtain ⟨final, marginal, dist, hfinal, hmarginal, -, hdist, -, htallies⟩ :=
    tallies_sampleFinalState hvalid hcompile rfl hshots h
  obtain ⟨fewer, g₁, hrun⟩ :=
    exists_sampleFinalState_eq_ok hvalid hcompile rfl hfinal hmarginal hdist shots g
  obtain ⟨final', marginal', dist', hfinal', hmarginal', -, hdist', -, htallies'⟩ :=
    tallies_sampleFinalState hvalid hcompile rfl (by omega) hrun
  -- both runs draw from the same distribution
  cases hfinal.symm.trans hfinal'
  cases hmarginal.symm.trans hmarginal'
  cases hdist.symm.trans hdist'
  obtain ⟨g₂, hadd⟩ := exists_drawn_add dist shots extra g
  rw [hadd, List.map_append] at htallies
  have hcontinues := htallies'.continues htallies
  rw [List.length_map, List.length_map, length_drawn, length_drawn] at hcontinues
  exact ⟨fewer, g₁, hrun, hcontinues⟩

theorem exists_fewer_of_sampleTrajectories (hvalid : c.validate = .ok ())
    (hcompile : c.compile = .ok steps) (hshots : shots + extra < UInt64.size)
    (h : (sampleTrajectories c steps machine (shots + extra) : Sampling R G Counts).run g =
      (.ok counts, g')) :
    ∃ fewer g₁, (sampleTrajectories c steps machine shots : Sampling R G Counts).run g =
        (.ok fewer, g₁) ∧ fewer.Continues counts shots extra := by
  have hfits (step : Step R) (hstep : step ∈ steps.dropWhile (·.isGate)) :=
    Circuit.compile_fits hvalid hcompile step (List.dropWhile_subset _ hstep)
  obtain ⟨zero, base, hzero, hbase, hwidth, hrun⟩ := sampleTrajectories_eq_ok hvalid hcompile h
  obtain ⟨fewer, g₁, hfirst, hrest⟩ := run_playShots_add hrun
  obtain ⟨ends, hlength, -, -, htallies⟩ :=
    tallies_playShots hwidth hfits Counts.tallies_empty (by rw [List.length_nil]; omega) hfirst
  rw [List.nil_append] at htallies
  obtain ⟨ends', hlength', -, -, htallies'⟩ :=
    tallies_playShots hwidth hfits htallies (by rw [List.length_map, hlength]; omega) hrest
  have hcontinues := htallies.continues htallies'
  rw [List.length_map, List.length_map, hlength, hlength'] at hcontinues
  refine ⟨fewer, g₁, ?_, hcontinues⟩
  refine (run_bind_of_ok (congrArg (·, g) (SimulationError.ofChecked_eq_ok.2 hzero))).trans ?_
  exact (run_bind_of_ok (congrArg (·, g) hbase)).trans hfirst

theorem exists_fewer_of_sample (hvalid : c.validate = .ok ()) (hcompile : c.compile = .ok steps)
    (hshots : shots + extra < UInt64.size) {method : String}
    (h : (sample c steps machine (shots + extra) : Sampling R G (Counts × String)).run g =
      (.ok (counts, method), g')) :
    ∃ fewer g₁, (sample c steps machine shots : Sampling R G (Counts × String)).run g =
        (.ok (fewer, method), g₁) ∧ fewer.Continues counts shots extra := by
  unfold sample at h ⊢
  split at h
  next hmid =>
    obtain ⟨counts', _, hrun, h⟩ := run_bind_eq_ok h
    cases h
    obtain ⟨fewer, g₁, hfewer, hcontinues⟩ :=
      exists_fewer_of_sampleTrajectories hvalid hcompile hshots hrun
    exact ⟨fewer, g₁, by rw [if_pos hmid]; exact run_bind_of_ok hfewer, hcontinues⟩
  next hmid =>
    obtain ⟨counts', _, hrun, h⟩ := run_bind_eq_ok h
    cases h
    obtain ⟨fewer, g₁, hfewer, hcontinues⟩ :=
      exists_fewer_of_sampleFinalState hvalid hcompile hshots hrun
    exact ⟨fewer, g₁, by rw [if_neg hmid]; exact run_bind_of_ok hfewer, hcontinues⟩

end Shots

end Sampler

namespace ExecutionRequest

variable {R : Type} [Scalar R] {r : ExecutionRequest R} {k : UInt32}

omit [Scalar R] in
/-- The same request with another number of shots. -/
def withShots (r : ExecutionRequest R) (k : UInt32) : ExecutionRequest R :=
  { r with options := { r.options with shots := k } }

theorem validate_withShots (hvalid : r.validate = .ok ()) (hk : k ≠ 0) :
    (r.withShots k).validate = .ok () := by
  have hoptions : (r.withShots k).options.validate = .ok () := by
    have h := (reachesObservables_of_validate hvalid).options
    unfold RunOptions.validate at h ⊢
    split at h
    next => cases h
    next => rw [if_neg fun hzero => hk hzero.2]; exact h
  obtain ⟨hreaches, hobservables, hbinds⟩ := validate_eq_ok.1 hvalid
  exact validate_eq_ok.2 ⟨⟨hoptions, hreaches.circuit, hreaches.state⟩, hobservables, hbinds⟩

/-- If an accepted sampled request has counts in one run, then the same request with fewer shots has
counts in another run with the same seed whose reductions are divided alike, by whichever of the two
samplers. Every bit string is counted at most as often, and the differences add up to the shots that
were left out. -/
theorem execute_withShots (hvalid : r.validate = .ok ()) (hmode : r.options.mode = .sampled)
    (hk : 1 ≤ k) (hle : k ≤ r.options.shots) :
    (r.withShots k).validate = .ok () ∧
      ∀ (e : Engine) (index : ℕ) (given given' : Conditions) (result : ExecutionResult R),
        e.seedFor r given.entropy = e.seedFor r given'.entropy → e.DividesAlike r given given' →
        e.execute index r given = .ok result →
          ∃ counts fewer, result.data = .counts counts ∧
            e.execute index (r.withShots k) given' =
              .ok { result with data := .counts fewer, shots := k } ∧
            fewer.Continues counts k.toNat (r.options.shots.toNat - k.toNat) := by
  rw [UInt32.le_iff_toNat_le] at hk hle
  have hone : (1 : UInt32).toNat = 1 := rfl
  have hnonzero : k ≠ 0 := by
    rintro rfl
    have hzero : (0 : UInt32).toNat = 0 := rfl
    omega
  refine ⟨validate_withShots hvalid hnonzero, fun e index given given' result hseed halike h => ?_⟩
  have hcircuit := validate_boundCircuit (reachesObservables_of_validate hvalid).circuit
  have hshots : k.toNat + (r.options.shots.toNat - k.toNat) = r.options.shots.toNat := by omega
  have hword : r.options.shots.toNat < UInt64.size := r.options.shots.toNat_lt.trans (by decide)
  obtain ⟨steps, hcompile, h⟩ := bind_eq_ok.1 h
  simp only [hmode] at h
  obtain ⟨⟨counts, method⟩, hrun, h⟩ := bind_eq_ok.1 h
  rw [← hshots] at hrun hword
  obtain ⟨fewer, g, hfewer, hcontinues⟩ :=
    Sampler.exists_fewer_of_sample hcircuit hcompile hword (Prod.ext hrun rfl)
  cases h
  have hother : e.DividesAlike (r.withShots k) given' given :=
    halike.imp_right Eq.symm
  refine ⟨counts, fewer, rfl, ?_, hcontinues⟩
  rw [hother.execute_eq fun _ => hseed.symm]
  refine bind_eq_ok.2 ⟨steps, hcompile, ?_⟩
  simp only [withShots, hmode]
  exact bind_eq_ok.2 ⟨(fewer, method), congrArg Prod.fst hfewer, rfl⟩

/-- Three of ten shots, drawn from a final state and played as trajectories with two random
measurements each. The two runs draw different words from outside, where neither needs one, and
would divide larger registers in different ways. -/
theorem execute_withShots_three :
    let once : Circuit ℝ := ⟨"once", 1, 1, [.standard (.plain .h) [⟨0⟩], .measure [⟨0⟩] [⟨0⟩]]⟩
    let twice : Circuit ℝ := ⟨"twice", 1, 2, [.standard (.plain .h) [⟨0⟩],
      .measure [⟨0⟩] [⟨0⟩], .standard (.plain .h) [⟨0⟩], .measure [⟨0⟩] [⟨1⟩]]⟩
    let request (c : Circuit ℝ) : ExecutionRequest ℝ := ⟨c, .sampled 10⟩
    let e : Engine := ⟨1024, some 7, true⟩
    let given : Conditions := {}
    let given' : Conditions := { entropy := 5, divide := fun size => .cut (size / 2) .whole .whole }
    once.hasMidCircuitMeasurement = false ∧ twice.hasMidCircuitMeasurement = true ∧
      ∀ c, c = once ∨ c = twice → (request c).validate = .ok () ∧ ∃ ten three counts fewer,
        e.execute 0 (request c) given = .ok ten ∧ ten.data = .counts counts ∧
          e.execute 0 ((request c).withShots 3) given' = .ok three ∧ three.data = .counts fewer ∧
          fewer.Continues counts 3 7 := by
  intro once twice request e given given'
  refine ⟨rfl, rfl, fun c hc => ?_⟩
  have hvalid : (request c).validate = .ok () := by
    rcases hc with rfl | rfl
    · exact validate_eq_ok.2 ⟨⟨rfl, rfl, by decide⟩, rfl, by decide +kernel⟩
    · exact validate_eq_ok.2 ⟨⟨rfl, rfl, by decide⟩, rfl, by decide +kernel⟩
  have hexact : (request c).boundCircuit.IsExact := by
    intro inst hinst g hop
    rcases hc with rfl | rfl
    all_goals
      fin_cases hinst <;> cases hop
      all_goals exact fun p hp => absurd hp List.not_mem_nil
  have hwidth : (request c).circuit.numQubits.toNat < 64 := by
    rcases hc with rfl | rfl
    · decide
    · decide
  obtain ⟨ten, hten⟩ := e.exists_execute_eq_ok hvalid rfl hexact hwidth 0 given
  have hle : (3 : UInt32) ≤ 10 := by decide
  obtain ⟨-, hfewer⟩ := execute_withShots hvalid rfl (by decide) hle
  have halike : e.DividesAlike (request c) given given' := by
    rcases hc with rfl | rfl
    · exact .inl (by decide)
    · exact .inl (by decide)
  obtain ⟨counts, fewer, hdata, hrun, hcontinues⟩ := hfewer e 0 given given' ten rfl halike hten
  exact ⟨hvalid, ten, _, counts, fewer, hten, hdata, hrun, rfl, hcontinues⟩

end ExecutionRequest

end QuantumSim
