import Mathlib
import QuantumSim.Proofs.Expectation
import QuantumSim.Proofs.JobOutcome

/-!
Batches. What a request comes to does not depend on its place in a batch or on the requests before
it: a batch has the results its requests have alone, in order, or the reason of the first that
fails.
-/
namespace QuantumSim

/-- Every operator that the observables of a request list is on a qubit of its register. -/
def ExecutionRequest.ReadsInside {R : Type} (r : ExecutionRequest R) : Prop :=
  ∀ o ∈ r.options.observables, ∀ term ∈ o.terms, ∀ op ∈ term.pauli.ops,
    op.1.index < r.circuit.numQubits.toNat

instance {R : Type} (r : ExecutionRequest R) : Decidable r.ReadsInside :=
  inferInstanceAs (Decidable (∀ o ∈ r.options.observables, ∀ term ∈ o.terms, _))

namespace Engine

variable {R : Type} [Scalar R] {e : Engine} {r : ExecutionRequest R}

/-- A request whose run does not depend on words from outside: it is exact, or it has a seed. -/
def Determined (e : Engine) (r : ExecutionRequest R) : Prop :=
  r.options.mode = .sampled → (r.options.seedSimulator.or e.defaultSeed).isSome

instance (e : Engine) (r : ExecutionRequest R) : Decidable (e.Determined r) :=
  inferInstanceAs (Decidable (_ → _))

/-- A request executed by itself, with its reductions divided as said. -/
def executeAlone (e : Engine) (r : ExecutionRequest R) (divide : ℕ → Split) :
    Except (SimulationError R) (ExecutionResult R) := e.execute 0 r { divide }

omit [Scalar R] in
theorem Determined.seedFor_eq (h : e.Determined r) (hmode : r.options.mode = .sampled)
    (entropy entropy' : UInt64) : e.seedFor r entropy = e.seedFor r entropy' := by
  obtain ⟨seed, hseed⟩ := Option.isSome_iff_exists.1 (h hmode)
  rw [seedFor, seedFor, hseed]
  rfl

/-- Runs of a request that draws nothing from outside come to the same if their reductions are
divided alike. -/
theorem Determined.execute_eq (h : e.Determined r) {given given' : Conditions}
    (halike : e.DividesAlike r given given') (index : ℕ) :
    e.execute index r given = e.execute index r given' :=
  halike.execute_eq (fun hmode => h.seedFor_eq hmode _ _) index

/-- The place in a batch shows in the index of a result and nowhere else. -/
theorem execute_eq_map (e : Engine) (r : ExecutionRequest R) (given : Conditions) (index : ℕ) :
    e.execute index r given =
      (e.execute 0 r given).map fun result => { result with index := index.toUInt64 } := by
  unfold execute
  dsimp only
  cases r.boundCircuit.compile with
  | error cause => rfl
  | ok steps =>
    rw [ok_bind, ok_bind]
    cases hmode : r.options.mode with
    | exact =>
      dsimp only
      unfold runExact
      cases Sampler.finalState r.boundCircuit steps (e.machine given) with
      | error cause => rfl
      | ok s =>
        simp only [ok_bind]
        cases r.options.observables.mapM fun o => SimulationError.ofChecked (s.expectation o) with
        | error cause => rfl
        | ok values =>
          simp only [ok_bind]
          cases SimulationError.ofChecked (R := R) r.boundCircuit.depth <;> rfl
    | sampled =>
      dsimp only
      unfold runSampled
      dsimp only
      cases ((Sampler.sample r.boundCircuit steps (e.machine given) r.options.shots.toNat :
        Sampling R Random.Stream (Counts × String)).run
          (.ofSeed (e.seedFor r given.entropy))).1 <;> rfl

/-- A request comes to the same in a batch and by itself. -/
theorem Determined.execute_eq_alone (h : e.Determined r) {given : Conditions} {divide : ℕ → Split}
    (halike : e.DividesAlike r given { divide }) (index : ℕ) : e.execute index r given =
      (e.executeAlone r divide).map fun result => { result with index := index.toUInt64 } := by
  rw [h.execute_eq halike, execute_eq_map]
  rfl

theorem name_of_execute_eq_ok {index : ℕ} {given : Conditions} {result : ExecutionResult R}
    (h : e.execute index r given = .ok result) :
    result.circuitName = r.circuit.name ∧ result.index = index.toUInt64 := by
  obtain ⟨steps, -, h⟩ := bind_eq_ok.1 h
  rw [← r.boundCircuit_name]
  split at h
  · obtain ⟨_, -, h⟩ := bind_eq_ok.1 h
    obtain ⟨_, -, h⟩ := bind_eq_ok.1 h
    obtain ⟨_, -, h⟩ := bind_eq_ok.1 h
    cases h
    exact ⟨rfl, rfl⟩
  · obtain ⟨_, -, h⟩ := bind_eq_ok.1 h
    cases h
    exact ⟨rfl, rfl⟩

theorem executeAlone_ne_fault (hvalid : r.validate = .ok ())
    (hwidth : r.circuit.numQubits.toNat < 64) (hinside : r.ReadsInside) (divide : ℕ → Split)
    (fault : Fault) : e.executeAlone r divide ≠ .error (.fault fault) := by
  intro hfault
  obtain ⟨hreaches, -, hbound⟩ := ExecutionRequest.validate_eq_ok.1 hvalid
  have hruns := runsSoundly_of_valid hreaches.circuit hbound hwidth e 0 { divide }
  -- a valid request stops in the middle only where an observable has no value
  rcases runsSoundly_iff.1 hruns _ hfault with hnumeric | ⟨steps, s, cause, hcompile, hs, hvalue, -⟩
  · exact hnumeric
  · have hfits :=
      Circuit.compile_fits (ExecutionRequest.validate_boundCircuit hreaches.circuit) hcompile
    have hstate := (Sampler.robust_finalState (r.boundCircuit_numQubits.symm ▸ hwidth) hfits
      (e.machine { divide })).of_eq_ok hs
    rw [r.boundCircuit_numQubits] at hstate
    obtain ⟨o, ho, hfail⟩ := hvalue
    have hreadable : o.Readable r.circuit.numQubits.toNat := fun term hterm op hop =>
      have hlt := hinside o ho term hterm op hop
      ⟨hlt.trans hwidth, fun _ => hlt⟩
    obtain ⟨value, hok⟩ := (Statevector.exists_expectation_eq_ok hstate o).2 hreadable
    cases hok.symm.trans hfail

end Engine

namespace Simulator

variable {e : Engine} {batch : List (ExecutionRequest Float)} {divide : ℕ → ℕ → Split}

/-- The request at a place of a batch, executed by itself with its reductions divided as said for
the place. -/
def executePlaced (e : Engine) (divide : ℕ → ℕ → Split) (x : ExecutionRequest Float × ℕ) :
    Except (SimulationError Float) (ExecutionResult Float) := e.executeAlone x.1 (divide x.2)

/-- A request whose run draws nothing from outside and does not stop in the middle. -/
structure Steady (e : Engine) (r : ExecutionRequest Float) : Prop where
  determined : e.Determined r
  ne_fault (divide : ℕ → Split) (fault : Fault) : e.executeAlone r divide ≠ .error (.fault fault)

/-- Why a batch fails, if it is for the request at the given place. -/
def reasonAt (index : ℕ) (r : ExecutionRequest Float) (text : String) : String :=
  "circuit " ++ toString index ++ " ('" ++ r.circuit.name ++ "'): " ++ text

/-- A result with its place in a batch and the time it took. -/
def placed (env : Surroundings) (index : ℕ) (result : ExecutionResult Float) :
    ExecutionResult Float :=
  { result with index := index.toUInt64, executionTimeMs := some (env.elapsed index) }

section Runs

variable {r : ExecutionRequest Float} {env : Surroundings} {index : ℕ}

theorem executeFrom_cons_of_ok (hr : Steady e r) {result : ExecutionResult Float}
    (h : executePlaced e divide (r, index) = .ok result)
    (halike : e.DividesAlike r (env.given index) { divide := divide index }) :
    executeFrom e env index (r :: batch) =
      (executeFrom e env (index + 1) batch).map (placed env index result :: ·) := by
  have halone : e.executeAlone r (divide index) = .ok result := h
  rw [executeFrom, hr.determined.execute_eq_alone halike, halone]
  cases executeFrom e env (index + 1) batch <;> rfl

theorem executeFrom_cons_of_error (hr : Steady e r) {cause : SimulationError Float}
    (h : executePlaced e divide (r, index) = .error cause)
    (halike : e.DividesAlike r (env.given index) { divide := divide index }) :
    executeFrom e env index (r :: batch) =
      .error (.failed (reasonAt index r cause.toBackendError.message)) := by
  have hcause (fault : Fault) : cause ≠ .fault fault := fun heq =>
    hr.ne_fault (divide index) fault (heq ▸ h)
  have halone : e.executeAlone r (divide index) = .error cause := h
  rw [executeFrom, hr.determined.execute_eq_alone halike, halone]
  cases cause with
  | fault fault => exact absurd rfl (hcause fault)
  | _ => rfl

/-- Requests that all have results have them in order, each at its place. -/
theorem executeFrom_eq_ok (hbatch : ∀ r ∈ batch, Steady e r)
    (halike : ∀ x ∈ batch.zipIdx index,
      e.DividesAlike x.1 (env.given x.2) { divide := divide x.2 })
    {results : List (ExecutionResult Float)}
    (h : (batch.zipIdx index).mapM (executePlaced e divide) = .ok results) :
    executeFrom e env index batch =
      .ok (results.mapIdx fun i result => placed env (index + i) result) := by
  induction batch generalizing index results with
  | nil => cases h; rfl
  | cons r batch ih =>
    obtain ⟨hr, hrest⟩ := List.forall_mem_cons.1 hbatch
    rw [List.zipIdx_cons] at halike h
    obtain ⟨hdivided, halike⟩ := List.forall_mem_cons.1 halike
    rw [List.mapM_cons] at h
    obtain ⟨result, hfirst, h⟩ := bind_eq_ok.1 h
    obtain ⟨results, hresults, h⟩ := bind_eq_ok.1 h
    cases h
    have hplace (i : ℕ) : index + 1 + i = index + (i + 1) := by omega
    rw [executeFrom_cons_of_ok hr hfirst hdivided, ih hrest halike hresults, List.mapIdx_cons]
    simp only [hplace]
    rfl

/-- The first request that fails gives the batch its reason. -/
theorem executeFrom_eq_error {before after : List (ExecutionRequest Float)}
    (hbatch : ∀ x ∈ before ++ r :: after, Steady e x)
    (halike : ∀ x ∈ (before ++ r :: after).zipIdx index,
      e.DividesAlike x.1 (env.given x.2) { divide := divide x.2 })
    (hbefore : ∀ x ∈ before.zipIdx index, ∃ result, executePlaced e divide x = .ok result)
    {cause : SimulationError Float}
    (h : executePlaced e divide (r, index + before.length) = .error cause) :
    executeFrom e env index (before ++ r :: after) =
      .error (.failed (reasonAt (index + before.length) r cause.toBackendError.message)) := by
  induction before generalizing index with
  | nil =>
    exact executeFrom_cons_of_error (hbatch r (by simp)) h (halike (r, index) (by simp))
  | cons x before ih =>
    obtain ⟨hx, hrest⟩ := List.forall_mem_cons.1 hbatch
    rw [List.cons_append, List.zipIdx_cons] at halike
    obtain ⟨hdivided, halike⟩ := List.forall_mem_cons.1 halike
    rw [List.zipIdx_cons] at hbefore
    obtain ⟨⟨result, hfirst⟩, hbefore⟩ := List.forall_mem_cons.1 hbefore
    have hplace : index + (x :: before).length = index + 1 + before.length := by
      rw [List.length_cons]
      omega
    rw [hplace] at h ⊢
    rw [List.cons_append, executeFrom_cons_of_ok hx hfirst hdivided, ih hrest halike hbefore h]
    rfl

/-- A batch whose requests all have results completes, and stores them in order. -/
theorem executeBatch_eq_completed (hbatch : ∀ r ∈ batch, Steady e r)
    (halike : env.DividesAs e divide batch) {results : List (ExecutionResult Float)}
    (h : batch.zipIdx.mapM (executePlaced e divide) = .ok results) (id : JobId) :
    executeBatch e env id batch = .completed ⟨id, results.mapIdx (placed env)⟩ := by
  have hplace (i : ℕ) : 0 + i = i := by omega
  rw [executeBatch, executeFrom_eq_ok hbatch halike h]
  simp only [hplace]

/-- A batch with a request that fails after others that do not fails for it. -/
theorem executeBatch_eq_failed {before after : List (ExecutionRequest Float)}
    (hbatch : ∀ x ∈ before ++ r :: after, Steady e x)
    (halike : env.DividesAs e divide (before ++ r :: after))
    (hbefore : ∀ x ∈ before.zipIdx, ∃ result, executePlaced e divide x = .ok result)
    {cause : SimulationError Float}
    (h : executePlaced e divide (r, 0 + before.length) = .error cause) (id : JobId) :
    executeBatch e env id (before ++ r :: after) =
      .failed (reasonAt before.length r cause.toBackendError.message) := by
  rw [executeBatch, executeFrom_eq_error hbatch halike hbefore h, Nat.zero_add]

end Runs

section Stored

variable {name : String} {config : SimulatorConfig} {debugAssertions : Bool} {id : JobId}
  {r : ExecutionRequest Float} {entry : JobEntry (JobResult Float)}

theorem Ends.of_mapM_eq_ok (h : Ends name config debugAssertions divide id batch entry)
    (hbatch : ∀ r ∈ batch, Steady (build name config debugAssertions).engine r)
    {results : List (ExecutionResult Float)}
    (hresults : batch.zipIdx.mapM
      (executePlaced (build name config debugAssertions).engine divide) = .ok results) :
    entry.job.status = .completed ∧
      ∃ env, entry.result = some ⟨id, results.mapIdx (placed env)⟩ := by
  obtain ⟨env, halike, hstatus, hstored⟩ := h.exists_outcome
  rw [executeBatch_eq_completed hbatch halike hresults] at hstatus hstored
  exact ⟨hstatus, env, hstored⟩

theorem Ends.of_append_eq_error {before after : List (ExecutionRequest Float)}
    (h : Ends name config debugAssertions divide id (before ++ r :: after) entry)
    (hbatch : ∀ x ∈ before ++ r :: after, Steady (build name config debugAssertions).engine x)
    (hbefore : ∀ x ∈ before.zipIdx, ∃ result,
      executePlaced (build name config debugAssertions).engine divide x = .ok result)
    {cause : SimulationError Float}
    (hcause : executePlaced (build name config debugAssertions).engine divide
      (r, 0 + before.length) = .error cause) :
    entry.job.status = .failed (reasonAt before.length r cause.toBackendError.message) ∧
      entry.result = none := by
  obtain ⟨env, halike, hstatus, hstored⟩ := h.exists_outcome
  rw [executeBatch_eq_failed hbatch halike hbefore hcause] at hstatus hstored
  exact ⟨hstatus, hstored⟩

variable {division : ℕ → Split}

theorem Ends.of_executeAlone_eq_ok
    (h : Ends name config debugAssertions (fun _ => division) id [r] entry)
    (hr : Steady (build name config debugAssertions).engine r) {result : ExecutionResult Float}
    (hresult : (build name config debugAssertions).engine.executeAlone r division = .ok result) :
    entry.job.status = .completed ∧ ∃ env, entry.result = some ⟨id, [placed env 0 result]⟩ := by
  have hmap : [r].zipIdx.mapM
      (executePlaced (build name config debugAssertions).engine fun _ => division) =
        .ok [result] := by
    rw [List.zipIdx_singleton, List.mapM_cons, executePlaced, hresult]
    rfl
  exact h.of_mapM_eq_ok (List.forall_mem_singleton.2 hr) hmap

theorem Ends.of_executeAlone_eq_error
    (h : Ends name config debugAssertions (fun _ => division) id [r] entry)
    (hr : Steady (build name config debugAssertions).engine r) {cause : SimulationError Float}
    (hcause : (build name config debugAssertions).engine.executeAlone r division =
      .error cause) : entry.job.status = .failed (reasonAt 0 r cause.toBackendError.message) := by
  have hfirst : Ends name config debugAssertions (fun _ => division) id ([] ++ [r]) entry := h
  exact (hfirst.of_append_eq_error (List.forall_mem_singleton.2 hr) nofun hcause).1

end Stored

/-- The requests of an accepted batch run to their ends if nothing about them is left open. -/
theorem steady_of_submit {name : String} {config : SimulatorConfig} {debugAssertions : Bool}
    (hconfig : config.validate = .ok ()) {id : JobId} {now : Timestamp}
    {accepted : JobId × Simulator}
    (hsubmit : (build name config debugAssertions).submit id now batch = .ok accepted)
    (hseed : ∀ r ∈ batch, (build name config debugAssertions).engine.Determined r)
    (hinside : ∀ r ∈ batch, r.ReadsInside) :
    ∀ r ∈ batch, Steady (build name config debugAssertions).engine r := by
  intro r hr
  have htakes := (submit_eq_ok_iff.1 hsubmit).2.1 r hr
  have hlimit : r.circuit.numQubits.toNat ≤ config.maxQubits.toNat := htakes.width
  have hmax := SimulatorConfig.maxQubits_le hconfig
  exact ⟨hseed r hr, Engine.executeAlone_ne_fault htakes.valid (by omega) (hinside r hr)⟩

/-- Results are positional and independent, if the reductions of each request are divided in the
batch as they are when it is submitted alone. A batch completes if and only if each of its requests
does when it is submitted alone, and then it has the results they have alone, in order and each with
its place. Otherwise it fails for the first request that fails alone, and no result is stored. -/
theorem batch_positional {name : String} {config : SimulatorConfig} {debugAssertions : Bool}
    (hconfig : config.validate = .ok ()) {id : JobId} {now : Timestamp}
    {accepted : JobId × Simulator}
    (hsubmit : (build name config debugAssertions).submit id now batch = .ok accepted)
    (hseed : ∀ r ∈ batch, (build name config debugAssertions).engine.Determined r)
    (hinside : ∀ r ∈ batch, r.ReadsInside) (divide : ℕ → ℕ → Split) :
    let IsEnd := Ends name config debugAssertions
    (∃ entry, IsEnd divide id batch entry) ∧
    (∀ i r, batch[i]? = some r → ∀ single, ∃ entry, IsEnd (fun _ => divide i) single [r] entry) ∧
    ∀ entry, IsEnd divide id batch entry →
    ∀ (ids : ℕ → JobId) (alone : ℕ → JobEntry (JobResult Float)),
      (∀ i r, batch[i]? = some r → IsEnd (fun _ => divide i) (ids i) [r] (alone i)) →
      (entry.job.status = .completed ↔
        ∀ i < batch.length, (alone i).job.status = .completed) ∧
      (entry.job.status = .completed → ∃ results, entry.result = some ⟨id, results⟩ ∧
        results.length = batch.length ∧
        ∀ i r, batch[i]? = some r → ∃ result only, results[i]? = some result ∧
          (alone i).result = some ⟨ids i, [only]⟩ ∧
          result.index = i.toUInt64 ∧ result.circuitName = r.circuit.name ∧
          result = { only with
            index := result.index, executionTimeMs := result.executionTimeMs }) ∧
      (entry.job.status ≠ .completed → entry.result = none ∧
        ∃ k r text, batch[k]? = some r ∧
          (∀ i < k, (alone i).job.status = .completed) ∧
          (alone k).job.status = .failed (reasonAt 0 r text) ∧
          entry.job.status = .failed (reasonAt k r text)) := by
  intro IsEnd
  have hsteady := steady_of_submit hconfig hsubmit hseed hinside
  have htakes := (submit_eq_ok_iff.1 hsubmit).2.1
  -- a request of an accepted batch is accepted alone, so its job can be brought to an end too
  refine ⟨exists_ends hconfig hsubmit divide, fun i r hi single => ?_,
    fun entry hentry ids alone halone => ?_⟩
  · have haccepted : (build name config debugAssertions).submit single now [r] =
        .ok (single, (build name config debugAssertions).enqueued single now [r]) :=
      submit_eq_ok_iff.2 ⟨List.cons_ne_nil r [],
        List.forall_mem_singleton.2 (htakes r (List.mem_of_getElem? hi)), rfl⟩
    exact exists_ends hconfig haccepted fun _ => divide i
  have hended {i : ℕ} {r : ExecutionRequest Float} (hi : batch[i]? = some r) :
      IsEnd (fun _ => divide i) (ids i) [r] (alone i) ∧
        Steady (build name config debugAssertions).engine r :=
    ⟨halone i r hi, hsteady r (List.mem_of_getElem? hi)⟩
  have hplaced {i : ℕ} {r : ExecutionRequest Float} (hi : batch[i]? = some r) :
      batch.zipIdx[i]? = some (r, i) := by simp [hi]
  obtain ⟨results, hresults⟩ | ⟨before, r, after, cause, rfl, hbefore, hcause⟩ :=
    mapM_zipIdx_eq_ok_or_exists_first
      (executePlaced (build name config debugAssertions).engine divide) batch 0
  · obtain ⟨hstatus, env, hstored⟩ := hentry.of_mapM_eq_ok hsteady hresults
    refine ⟨iff_of_true hstatus fun i hi => ?_, fun _ => ⟨_, hstored, ?_, fun i r hi => ?_⟩,
      fun hne => absurd hstatus hne⟩
    · have hplace := List.getElem?_eq_getElem hi
      obtain ⟨result, -, hresult⟩ := getElem?_of_mapM hresults (hplaced hplace)
      obtain ⟨hends, hr⟩ := hended hplace
      exact (hends.of_executeAlone_eq_ok hr hresult).1
    · rw [List.length_mapIdx, ← (forall₂_of_mapM hresults).length_eq, List.length_zipIdx]
    · obtain ⟨result, hplace, hresult⟩ := getElem?_of_mapM hresults (hplaced hi)
      obtain ⟨hends, hr⟩ := hended hi
      obtain ⟨-, env', honly⟩ := hends.of_executeAlone_eq_ok hr hresult
      refine ⟨placed env i result, placed env' 0 result, ?_, honly, rfl, ?_, rfl⟩
      · rw [List.getElem?_mapIdx, hplace]
        rfl
      · exact (Engine.name_of_execute_eq_ok hresult).1
  · obtain ⟨hstatus, hstored⟩ := hentry.of_append_eq_error hsteady hbefore hcause
    have hplace : (before ++ r :: after)[before.length]? = some r := by simp
    obtain ⟨hends, hr⟩ := hended hplace
    rw [Nat.zero_add] at hcause
    have hfailed := hends.of_executeAlone_eq_error hr hcause
    refine ⟨iff_of_false (by simp [hstatus]) fun hall => ?_, fun hdone => ?_, fun _ => ⟨hstored,
      before.length, r, _, hplace, fun i hi => ?_, hfailed, hstatus⟩⟩
    · have hdone := hall before.length (by simp)
      cases hfailed.symm.trans hdone
    · cases hstatus.symm.trans hdone
    · have hmem : (before[i], i) ∈ before.zipIdx :=
        List.mem_of_getElem? (i := i) (by simp [hi])
      obtain ⟨result, hresult⟩ := hbefore _ hmem
      have hi' : (before ++ r :: after)[i]? = some before[i] := by
        rw [List.getElem?_append_left hi, List.getElem?_eq_getElem hi]
      obtain ⟨hends, hr⟩ := hended hi'
      exact (hends.of_executeAlone_eq_ok hr hresult).1

/-- An exact request, one whose angle is no number once its symbol is bound, and a sampled one with
a seed. The batch fails for the second of them. -/
theorem batch_positional_overflow :
    let bell : ExecutionRequest Float :=
      ⟨⟨"bell", 2, 0, [.standard (.plain .h) [⟨0⟩], .standard (.plain .cx) [⟨0⟩, ⟨1⟩]]⟩,
        { mode := .exact, observables := [⟨[⟨1, ⟨[(⟨1⟩, .z)]⟩⟩]⟩] }⟩
    let turned : ExecutionRequest Float :=
      ⟨⟨"turned", 1, 0, [.standard (.rotation .rx (.symbol "t" 1e300 0)) [⟨0⟩]]⟩,
        { mode := .exact, parameters := .ofList [("t", 1e300)] }⟩
    let tossed : ExecutionRequest Float :=
      ⟨⟨"tossed", 1, 1, [.standard (.plain .h) [⟨0⟩], .measure [⟨0⟩] [⟨0⟩]]⟩,
        { shots := 3, seedSimulator := some 7 }⟩
    let batch := [bell, turned, tossed]
    let s := default true
    let divide : ℕ → ℕ → Split := fun i _ => .cut i .whole .whole
    SimulatorConfig.validate {} = .ok () ∧ (∃ accepted, s.submit ⟨"a"⟩ 0 batch = .ok accepted) ∧
      (∀ r ∈ batch, s.engine.Determined r) ∧ (∀ r ∈ batch, r.ReadsInside) ∧
      ∃ entry text, Ends defaultName {} true divide ⟨"a"⟩ batch entry ∧ entry.result = none ∧
        entry.job.status = .failed (reasonAt 1 turned text) := by
  intro bell turned tossed batch s divide
  have hconfig : SimulatorConfig.validate {} = .ok () := rfl
  have hsubmit : ∃ accepted, s.submit ⟨"a"⟩ 0 batch = .ok accepted :=
    exists_eq_ok_of_isOk (by decide +kernel)
  have hseed : ∀ r ∈ batch, s.engine.Determined r := by decide
  have hinside : ∀ r ∈ batch, r.ReadsInside := by decide
  refine ⟨hconfig, hsubmit, hseed, hinside, ?_⟩
  obtain ⟨accepted, haccepted⟩ := hsubmit
  obtain ⟨⟨entry, hentry⟩, hsingle, hpositional⟩ :=
    batch_positional hconfig haccepted hseed hinside divide
  -- jobs of the single requests, all under one id, each in a simulator of its own
  have hchoice (i : ℕ) : ∃ e, ∀ r, batch[i]? = some r →
      Ends defaultName {} true (fun _ => divide i) ⟨"b"⟩ [r] e := by
    cases hi : batch[i]? with
    | none => exact ⟨entry, nofun⟩
    | some r =>
      obtain ⟨e, he⟩ := hsingle i r hi ⟨"b"⟩
      exact ⟨e, fun x hx => Option.some.inj hx ▸ he⟩
  choose alone halone using hchoice
  have hsteady := steady_of_submit hconfig haccepted hseed hinside
  have hbell : (alone 0).job.status = .completed := by
    obtain ⟨result, hresult⟩ :=
      exists_eq_ok_of_isOk (x := s.engine.executeAlone bell (divide 0)) (by decide +kernel)
    exact ((halone 0 bell rfl).of_executeAlone_eq_ok (hsteady bell (by simp [batch])) hresult).1
  have hturned : (alone 1).job.status ≠ .completed := by
    obtain ⟨cause, hcause⟩ :=
      exists_eq_error_of_isOk (x := s.engine.executeAlone turned (divide 1)) (by decide +kernel)
    rw [(halone 1 turned rfl).of_executeAlone_eq_error (hsteady turned (by simp [batch])) hcause]
    exact nofun
  obtain ⟨hiff, -, hfails⟩ := hpositional entry hentry (fun _ => ⟨"b"⟩) alone halone
  obtain ⟨hresult, k, r, text, hk, hbefore, hreason, hstatus⟩ :=
    hfails fun hdone => hturned (hiff.1 hdone 1 (by decide))
  match k, hk with
  | 0, _ => cases hbell.symm.trans hreason
  | 1, hk =>
    cases hk
    exact ⟨entry, text, hentry, hresult, hstatus⟩
  | 2, _ => exact absurd (hbefore 1 (by decide)) hturned

end Simulator

end QuantumSim
