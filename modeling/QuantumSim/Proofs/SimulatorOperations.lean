import Mathlib
import QuantumSim.Proofs.Execution
import QuantumSim.Proofs.JobTable

/-!
A simulator in use: calls of its clients, steps of its workers and turns in which every waiting
worker runs, in any order. What they do to the job table is a run of table events.
-/
namespace QuantumSim.Simulator

/-- One thing that happens to a simulator. A refused call leaves it as it is. -/
inductive Operation where
  | submit (id : JobId) (now : Timestamp) (batch : List (ExecutionRequest Float))
  | start (id : JobId) (now : Timestamp)
  | report (id : JobId) (outcome : WorkerEnd (JobResult Float)) (now : Timestamp)
  | cancel (id : JobId) (now : Timestamp)
  | forget (id : JobId)
  /-- Every waiting worker runs. -/
  | drain (env : Surroundings)

/-- The simulator a call leaves behind. -/
def after (s : Simulator) : Except BackendError Simulator → Simulator
  | .ok s' => s'
  | .error _ => s

def perform (s : Simulator) : Operation → Simulator
  | .submit id now batch => s.after ((s.submit id now batch).map (·.2))
  | .start id now => { s with table := (s.table.start? id now).getD s.table }
  | .report id outcome now => { s with table := s.table.report id outcome now }
  | .cancel id now => s.after (s.cancel id now)
  | .forget id => s.after (s.forget id)
  | .drain env => s.drain env

def performAll (s : Simulator) (operations : List Operation) : Simulator :=
  operations.foldl perform s

def Operation.submitted? : Operation → Option JobId
  | .submit id .. => some id
  | _ => none

/-- The ids under which batches are submitted, in order. -/
def submittedIds (operations : List Operation) : List JobId :=
  operations.filterMap Operation.submitted?

variable {s s' : Simulator}

/-- An accepted batch becomes a queued job. -/
theorem table_submit {id : JobId} {now : Timestamp} {batch : List (ExecutionRequest Float)}
    {accepted : JobId × Simulator} (h : s.submit id now batch = .ok accepted) :
    accepted.2.table = s.table.step (.submit id batch.length s.name now) := by
  unfold submit at h
  split at h
  · cases h
  · obtain ⟨_, -, h⟩ := bind_eq_ok.1 h
    cases h
    rfl

theorem perform_cancel (s : Simulator) (id : JobId) (now : Timestamp) :
    s.perform (.cancel id now) = { s with table := s.table.step (.cancel id now) } := by
  rw [perform, cancel, JobTable.step]
  cases s.table.cancel id now <;> rfl

theorem perform_forget (s : Simulator) (id : JobId) :
    s.perform (.forget id) = { s with table := s.table.step (.forget id) } := by
  rw [perform, forget, JobTable.step]
  cases s.table.forget id <;> rfl

/-- The new table is what a run of events with submissions under the given ids only, if at all,
makes of the old one. -/
def Follows (s s' : Simulator) (ids : List JobId) : Prop :=
  ∃ events, (JobTable.submitted events).Sublist ids ∧ s'.table = s.table.run events

theorem Follows.refl (s : Simulator) (ids : List JobId) : s.Follows s ids :=
  ⟨[], List.nil_sublist _, rfl⟩

theorem Follows.trans {s'' : Simulator} {ids ids' : List JobId} (h : s.Follows s' ids)
    (h' : s'.Follows s'' ids') : s.Follows s'' (ids ++ ids') := by
  obtain ⟨events, hids, htable⟩ := h
  obtain ⟨events', hids', htable'⟩ := h'
  refine ⟨events ++ events', ?_, by rw [htable', htable, JobTable.run_append]⟩
  rw [JobTable.submitted_append]
  exact hids.append hids'

theorem follows_of_step {e : JobTable.Event (JobResult Float)}
    (h : s'.table = s.table.step e) : s.Follows s' e.submitted?.toList := by
  refine ⟨[e], ?_, h⟩
  rw [JobTable.submitted_cons]
  simp [JobTable.submitted]

/-- A worker that may begin takes two steps. -/
theorem follows_runWorker (s : Simulator) (env : Surroundings) (id : JobId)
    (batch : List (ExecutionRequest Float)) : s.Follows (s.runWorker env id batch) [] := by
  unfold runWorker
  split
  next => exact .refl s []
  next table hstart =>
    let outcome := executeBatch s.engine env id batch
    refine ⟨[.start id env.now, .report id outcome env.now], by rfl, ?_⟩
    rw [JobTable.run_cons, JobTable.step, hstart]
    rfl

theorem follows_drain (s : Simulator) (env : Surroundings) : s.Follows (s.drain env) [] := by
  have hworkers (workers : List (JobId × List (ExecutionRequest Float))) (s' : Simulator)
      (h : s.Follows s' []) :
      s.Follows (workers.foldl (fun s w => s.runWorker env w.1 w.2) s') [] := by
    induction workers generalizing s' with
    | nil => exact h
    | cons w workers ih => exact ih _ (h.trans (follows_runWorker s' env w.1 w.2))
  exact hworkers s.waiting _ (.refl s [])

theorem follows_perform (s : Simulator) (operation : Operation) :
    s.Follows (s.perform operation) operation.submitted?.toList := by
  cases operation with
  | submit id now batch =>
    rw [perform]
    cases hsubmit : s.submit id now batch with
    | error e => exact .refl s _
    | ok accepted => exact follows_of_step (e := .submit ..) (table_submit hsubmit)
  | start id now => exact follows_of_step (e := .start id now) rfl
  | report id outcome now => exact follows_of_step (e := .report id outcome now) rfl
  | cancel id now =>
    exact follows_of_step (e := .cancel id now) (congrArg table (perform_cancel s id now))
  | forget id =>
    exact follows_of_step (e := .forget id) (congrArg table (perform_forget s id))
  | drain env => exact follows_drain s env

theorem follows_performAll (s : Simulator) (operations : List Operation) :
    s.Follows (s.performAll operations) (submittedIds operations) := by
  induction operations generalizing s with
  | nil => exact .refl s _
  | cons operation operations ih =>
    have hids : submittedIds (operation :: operations) =
        operation.submitted?.toList ++ submittedIds operations := by
      unfold submittedIds
      cases h : operation.submitted? <;> simp [h]
    rw [hids]
    exact (follows_perform s operation).trans (ih _)

/-- The job table of a simulator in use, when no two batches are submitted under one id. -/
theorem sound_performAll (name : String) (config : SimulatorConfig) (debugAssertions : Bool)
    {operations : List Operation} (hfresh : (submittedIds operations).Nodup) :
    let s := (build name config debugAssertions).performAll operations
    s.table.Sound ∧ s.table.retain = config.maxRetainedJobs.toNat := by
  intro s
  obtain ⟨events, hids, htable⟩ :=
    follows_performAll (build name config debugAssertions) operations
  rw [htable]
  exact ⟨(JobTable.sound_empty _).run (JobTable.fresh_empty _ (hfresh.sublist hids)),
    JobTable.retain_run _ _⟩

/-- Whatever is done with a simulator, in any order and with any ids, the queue of ended jobs lists
each ended job of the table once and no other job, and is no longer than the settings allow; the
number of pending jobs can be had and is right, and every completed job, and no other, has its
result. -/
theorem bookkeeping_performAll (name : String) (config : SimulatorConfig) (debugAssertions : Bool)
    (operations : List Operation) (hfresh : (submittedIds operations).Nodup) :
    let s := (build name config debugAssertions).performAll operations
    s.table.finished.Nodup ∧
      (∀ id, id ∈ s.table.finished ↔
        ∃ e, s.table.find? id = some e ∧ e.job.status.isTerminal) ∧
      s.table.finished.length ≤ config.maxRetainedJobs.toNat ∧
      s.table.finished.length ≤ s.table.held ∧
      s.table.held - s.table.finished.length = s.table.unfinished ∧
      s.table.pending = .ok s.table.unfinished ∧
      s.availability = .ok (.available s.table.unfinished.toUInt32) ∧
      (∀ id e, s.table.find? id = some e →
        (e.result.isSome ↔ e.job.status = .completed)) ∧
      ∀ id message, s.table.result id ≠ .error (.backend message) := by
  intro s
  obtain ⟨hsound, hretain⟩ := sound_performAll name config debugAssertions hfresh
  have hheld : s.table.held = s.table.finished.length + s.table.unfinished := hsound.tracks.held_eq
  have hpending : s.table.pending = .ok s.table.unfinished := hsound.pending_eq
  refine ⟨hsound.tracks.nodup, hsound.tracks.mem_iff, hretain ▸ hsound.length_le, ?_, ?_, hpending,
    ?_, hsound.tracks.result_iff, hsound.result_ne_backend⟩
  · omega
  · omega
  · unfold availability
    rw [hpending]

/-- Three jobs and room for one ended job: the first job fails and is gone when the second one is
cancelled, whose worker comes too late. -/
theorem bookkeeping_performAll_evicted :
    let flipped : Circuit Float := ⟨"flipped", 2, 0, [.standard (.plain .x) [⟨1⟩]]⟩
    let operations : List Operation := [.submit ⟨"a"⟩ 0 [⟨flipped, .exact⟩],
      .submit ⟨"b"⟩ 1 [⟨flipped, .exact⟩], .submit ⟨"c"⟩ 2 [⟨flipped, .exact⟩], .start ⟨"a"⟩ 3,
      .report ⟨"a"⟩ (.failed "no luck") 4, .cancel ⟨"b"⟩ 5, .start ⟨"b"⟩ 6, .forget ⟨"a"⟩]
    let s := (build "small" { maxRetainedJobs := 1 } true).performAll operations
    s.table.finished = [⟨"b"⟩] ∧ s.table.held = 2 ∧ s.table.pending = .ok s.table.unfinished := by
  intro flipped operations s
  have hvalid : (⟨flipped, .exact⟩ : ExecutionRequest Float).validate = .ok () :=
    ExecutionRequest.validate_eq_ok.2 ⟨⟨rfl, rfl, by decide⟩, rfl, by decide +kernel⟩
  have hsubmit (s : Simulator) (hs : s.config = { maxRetainedJobs := 1 }) (id : JobId)
      (now : Timestamp) :
      s.perform (.submit id now [⟨flipped, .exact⟩]) =
        { s with
          table := s.table.step (.submit id 1 s.name now)
          waiting := s.waiting ++ [(id, [⟨flipped, .exact⟩])] } := by
    have hcheck : s.checkBatch 0 [⟨flipped, .exact⟩] = .ok () := by
      cases s
      cases hs
      exact bind_eq_ok.2 ⟨(), bind_eq_ok.2 ⟨(), mapError_eq_ok.2 hvalid, rfl⟩, rfl⟩
    rw [perform, submit, hcheck]
    rfl
  have htable : s.table = (JobTable.empty 1).run [.submit ⟨"a"⟩ 1 "small" 0,
      .submit ⟨"b"⟩ 1 "small" 1, .submit ⟨"c"⟩ 1 "small" 2, .start ⟨"a"⟩ 3,
      .report ⟨"a"⟩ (.failed "no luck") 4, .cancel ⟨"b"⟩ 5, .start ⟨"b"⟩ 6, .forget ⟨"a"⟩] := by
    simp only [s, operations, performAll, List.foldl_cons, List.foldl_nil, hsubmit, build]
    rfl
  obtain ⟨-, -, -, -, -, hpending, -⟩ :=
    bookkeeping_performAll "small" { maxRetainedJobs := 1 } true operations (by decide)
  refine ⟨?_, ?_, hpending⟩
  · rw [htable]
    rfl
  · rw [htable]
    rfl

end QuantumSim.Simulator
