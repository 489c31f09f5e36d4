import Mathlib
import QuantumSim.Proofs.Divisions
import QuantumSim.Proofs.SimulatorOperations

/-!
What is stored of an ended job. Unless it was cancelled, a job ends as the worker reports that ran
its batch, and the result it is given is the one of that report.
-/
namespace QuantumSim

namespace JobTable

variable {α : Type} {t t' : JobTable α} {id : JobId} {P : JobId → WorkerEnd α → Prop}

/-- What an entry says of its job: nothing yet, that it was cancelled, or how its worker ended. -/
inductive Told (P : WorkerEnd α → Prop) (e : JobEntry α) : Prop
  | pending (hstatus : e.job.status.isTerminal = false) (hresult : e.result = none)
  | cancelled (hstatus : e.job.status = .cancelled)
  | ended (outcome : WorkerEnd α) (hreport : P outcome)
      (hstatus : e.job.status = WorkerEnd.status outcome)
      (hresult : e.result = WorkerEnd.result? outcome)

theorem WorkerEnd.isTerminal_status (outcome : WorkerEnd α) :
    (WorkerEnd.status outcome).isTerminal = true := by
  cases outcome <;> rfl

theorem Told.result_eq_none {P : WorkerEnd α → Prop} {e : JobEntry α} (h : Told P e)
    (hpending : e.job.status.isTerminal = false) : e.result = none := by
  cases h with
  | pending _ hresult => exact hresult
  | cancelled hstatus =>
    rw [hstatus] at hpending
    cases hpending
  | ended outcome _ hstatus =>
    rw [hstatus, WorkerEnd.isTerminal_status] at hpending
    cases hpending

/-- Every job of the table that was not cancelled ended, if it did, with a report that `P`
allows. -/
def Concluded (P : JobId → WorkerEnd α → Prop) (t : JobTable α) : Prop :=
  ∀ id e, t.find? id = some e → Told (P id) e

theorem concluded_empty (retain : ℕ) : (empty retain : JobTable α).Concluded P := fun _ _ h => by
  cases h

theorem Concluded.moveTo? (h : t.Concluded P) {status : JobStatus} {fresh : Option α}
    {now : Timestamp} (hmove : t.moveTo? id status fresh now = some t')
    (htold : ∀ e, e.job.status = status → e.result = fresh → Told (P id) e) :
    t'.Concluded P := by
  intro k e he
  obtain ⟨-, hkept⟩ | ⟨rfl, old, hold, hcan, hstatus, hresult⟩ := find?_of_moveTo? hmove he
  · exact h k e hkept
  · rw [(h k old hold).result_eq_none (isTerminal_eq_false_of_canMoveTo hcan), Option.or_none]
      at hresult
    exact htold e hstatus hresult

/-- Whether `P` allows what an event reports of a worker; other events report nothing. -/
def Event.Allowed (P : JobId → WorkerEnd α → Prop) : Event α → Prop
  | .report id outcome _ => P id outcome
  | _ => True

/-- No event makes a job end otherwise than reported. -/
theorem Concluded.step (h : t.Concluded P) {event : Event α} (hallowed : event.Allowed P) :
    (t.step event).Concluded P := by
  cases event with
  | submit id numCircuits backend now =>
    intro k e he
    rw [JobTable.step, submit, ← put, find?_put] at he
    split at he
    · cases he
      exact .pending rfl rfl
    · exact h k e he
  | start id now =>
    rw [JobTable.step, start?]
    cases hmove : t.moveTo? id .running none now with
    | none => exact h
    | some t' =>
      exact h.moveTo? hmove fun e hstatus hresult => .pending (by rw [hstatus]; rfl) hresult
  | report id outcome now =>
    rw [JobTable.step, report]
    cases hmove : t.moveTo? id (WorkerEnd.status outcome) (WorkerEnd.result? outcome) now with
    | none => exact h
    | some t' => exact h.moveTo? hmove fun e => .ended outcome hallowed
  | cancel id now =>
    rw [JobTable.step]
    cases hcancel : t.cancel id now with
    | error e => exact h
    | ok t' => exact h.moveTo? (cancel_eq_ok.1 hcancel) fun e hstatus _ => .cancelled hstatus
  | forget id =>
    rw [JobTable.step]
    cases hforget : t.forget id with
    | error e => exact h
    | ok t' =>
      obtain ⟨-, rfl⟩ := forget_eq_ok.1 hforget
      intro k e he
      change (t.remove id).find? k = some e at he
      rw [find?_remove] at he
      split at he
      · cases he
      · exact h k e he

theorem exists_start?_eq {old : JobEntry α} (hold : t.find? id = some old)
    (hqueued : old.job.status = .queued) (now : Timestamp) :
    ∃ job, t.start? id now = some (t.put id ⟨job, old.result, .running⟩) ∧
      job.status = .running := by
  have hmove : old.job.status.canMoveTo .running := by rw [hqueued]; rfl
  obtain ⟨started, hstarted⟩ := exists_moveTo?_eq_some hold hmove none now
  obtain ⟨old', job, hold', -, hrunning, rfl⟩ := moveTo?_eq_some hstarted
  cases hold.symm.trans hold'
  exact ⟨job, hstarted, hrunning⟩

theorem exists_report_eq {old : JobEntry α} (hold : t.find? id = some old)
    (hrunning : old.job.status = .running) (outcome : WorkerEnd α) (now : Timestamp) :
    ∃ e, t.report id outcome now = (t.put id e).finish id ∧
      e.job.status = WorkerEnd.status outcome := by
  have hmove : old.job.status.canMoveTo (WorkerEnd.status outcome) := by
    rw [hrunning]
    cases outcome <;> rfl
  obtain ⟨ended, hended⟩ := exists_moveTo?_eq_some hold hmove (WorkerEnd.result? outcome) now
  obtain ⟨old', job, -, -, hstatus, rfl⟩ := moveTo?_eq_some hended
  rw [if_pos (WorkerEnd.isTerminal_status outcome)] at hended
  exact ⟨⟨job, _, _⟩, by rw [report, hended]; rfl, hstatus⟩

/-- A queued job whose worker runs ends as the worker reports, and stays if there is room. -/
theorem exists_find?_report (hroom : t.finished.length < t.retain) {old : JobEntry α}
    (hold : t.find? id = some old) (hqueued : old.job.status = .queued) (outcome : WorkerEnd α)
    (now : Timestamp) :
    ∃ started e, t.start? id now = some started ∧
      (started.report id outcome now).find? id = some e ∧
      e.job.status = WorkerEnd.status outcome := by
  obtain ⟨job, hstart, hrunning⟩ := exists_start?_eq hold hqueued now
  have hstarted : (t.put id ⟨job, old.result, .running⟩).find? id =
      some ⟨job, old.result, .running⟩ := by
    rw [find?_put, if_pos rfl]
  obtain ⟨e, hreport, hstatus⟩ := exists_report_eq hstarted hrunning outcome now
  have hfits : t.finished.length + 1 - t.retain = 0 := by omega
  refine ⟨_, e, hstart, ?_, hstatus⟩
  rw [hreport, find?_finish, find?_put, if_pos rfl]
  simp [hfits]

end JobTable

/-- In these surroundings the reductions of each request of a batch are divided as said for its
place, wherever they are divided. -/
def Surroundings.DividesAs (env : Surroundings) (engine : Engine)
    (divide : ℕ → ℕ → Split) (batch : List (ExecutionRequest Float)) : Prop :=
  ∀ e ∈ batch.zipIdx, engine.DividesAlike e.1 (env.given e.2) { divide := divide e.2 }

namespace Simulator

variable {s : Simulator} {engine : Engine} {K : Surroundings → Prop}
  {P : JobId → WorkerEnd (JobResult Float) → Prop}

/-- Jobs that have ended did so as `P` allows, and so will those whose workers wait if they run in
surroundings of kind `K`. -/
structure Accounts (engine : Engine) (K : Surroundings → Prop)
    (P : JobId → WorkerEnd (JobResult Float) → Prop) (s : Simulator) : Prop where
  engine_eq : s.engine = engine
  waiting : ∀ w ∈ s.waiting, ∀ env, K env → P w.1 (executeBatch engine env w.1 w.2)
  table : s.table.Concluded P

theorem Accounts.step (h : s.Accounts engine K P) (event : JobTable.Event (JobResult Float))
    (hallowed : event.Allowed P) : Accounts engine K P { s with table := s.table.step event } :=
  ⟨h.engine_eq, h.waiting, h.table.step hallowed⟩

theorem Accounts.runWorker (h : s.Accounts engine K P) (env : Surroundings) {id : JobId}
    {batch : List (ExecutionRequest Float)} (hworker : P id (executeBatch engine env id batch)) :
    (s.runWorker env id batch).Accounts engine K P := by
  unfold Simulator.runWorker
  cases hstart : s.table.start? id env.now with
  | none => exact h
  | some table =>
    have hstarted := h.step (.start id env.now) trivial
    rw [JobTable.step, hstart] at hstarted
    rw [← h.engine_eq] at hworker
    exact hstarted.step (.report id (executeBatch s.engine env id batch) env.now) hworker

theorem Accounts.drain (h : s.Accounts engine K P) {env : Surroundings} (henv : K env) :
    (s.drain env).Accounts engine K P := by
  have hworkers (workers : List (JobId × List (ExecutionRequest Float))) (s : Simulator)
      (h : s.Accounts engine K P)
      (hwaiting : ∀ w ∈ workers, ∀ env, K env → P w.1 (executeBatch engine env w.1 w.2)) :
      (workers.foldl (fun s w => s.runWorker env w.1 w.2) s).Accounts engine K P := by
    induction workers generalizing s with
    | nil => exact h
    | cons w workers ih =>
      obtain ⟨hw, hrest⟩ := List.forall_mem_cons.1 hwaiting
      exact ih _ (h.runWorker env (hw env henv)) hrest
  exact hworkers s.waiting { s with waiting := [] } ⟨h.engine_eq, nofun, h.table⟩ h.waiting

/-- What an operation may bring about: the run of a submitted batch in surroundings of kind `K`, and
a report. -/
def Operation.Allows (engine : Engine) (K : Surroundings → Prop)
    (P : JobId → WorkerEnd (JobResult Float) → Prop) : Operation → Prop
  | .submit id _ batch => ∀ env, K env → P id (executeBatch engine env id batch)
  | .report id outcome _ => P id outcome
  | .drain env => K env
  | _ => True

theorem Accounts.perform (h : s.Accounts engine K P) {operation : Operation}
    (hallows : operation.Allows engine K P) : (s.perform operation).Accounts engine K P := by
  cases operation with
  | submit id now batch =>
    rw [Simulator.perform]
    cases hsubmit : s.submit id now batch with
    | error e => exact h
    | ok accepted =>
      obtain ⟨-, -, rfl⟩ := submit_eq_ok_iff.1 hsubmit
      refine ⟨h.engine_eq, fun w hw => ?_, ?_⟩
      · rcases List.mem_append.1 hw with hw | hw
        · exact h.waiting w hw
        · cases List.mem_singleton.1 hw
          exact hallows
      · exact (h.step (.submit id batch.length s.name now) trivial).table
  | start id now => exact h.step (.start id now) trivial
  | report id outcome now => exact h.step (.report id outcome now) hallows
  | cancel id now =>
    rw [perform_cancel]
    exact h.step (.cancel id now) trivial
  | forget id =>
    rw [perform_forget]
    exact h.step (.forget id) trivial
  | drain env => exact h.drain hallows

theorem Accounts.performAll (h : s.Accounts engine K P) {operations : List Operation}
    (hallows : ∀ operation ∈ operations, operation.Allows engine K P) :
    (s.performAll operations).Accounts engine K P := by
  induction operations generalizing s with
  | nil => exact h
  | cons operation operations ih =>
    obtain ⟨hfirst, hrest⟩ := List.forall_mem_cons.1 hallows
    exact ih (h.perform hfirst) hrest

/-- Workers that run the batch of the given id divide its reductions as said, and every report about
the id is that of such a worker. -/
structure Faithful (engine : Engine) (divide : ℕ → ℕ → Split) (id : JobId)
    (batch : List (ExecutionRequest Float)) (operations : List Operation) : Prop where
  drained (env : Surroundings) : .drain env ∈ operations → env.DividesAs engine divide batch
  reported (outcome : WorkerEnd (JobResult Float)) (now : Timestamp) :
    .report id outcome now ∈ operations → ∃ env : Surroundings,
      env.DividesAs engine divide batch ∧ outcome = executeBatch engine env id batch

/-- A simulator was used in some way, under ids of their own for all batches and with reductions
over the given batch divided as said, and now the job of the batch has ended with the given entry
and was not cancelled. -/
def Ends (name : String) (config : SimulatorConfig) (debugAssertions : Bool)
    (divide : ℕ → ℕ → Split) (id : JobId) (batch : List (ExecutionRequest Float))
    (e : JobEntry (JobResult Float)) : Prop :=
  ∃ operations now, (submittedIds operations).Nodup ∧
    Faithful (build name config debugAssertions).engine divide id batch operations ∧
    .submit id now batch ∈ operations ∧
    ((build name config debugAssertions).performAll operations).table.find? id = some e ∧
    e.job.status.isTerminal ∧ e.job.status ≠ .cancelled

/-- An id names one batch. -/
theorem batch_unique {operations : List Operation} (hfresh : (submittedIds operations).Nodup)
    {id : JobId} {now now' : Timestamp} {batch batch' : List (ExecutionRequest Float)}
    (h : .submit id now batch ∈ operations) (h' : .submit id now' batch' ∈ operations) :
    batch = batch' := by
  have hapart := List.pairwise_filterMap.1 hfresh
  have hsymm : Std.Symm fun a b : Operation =>
      ∀ x, a.submitted? = some x → ∀ y, b.submitted? = some y → x ≠ y :=
    ⟨fun a b hab y hy x hx => (hab x hx y hy).symm⟩
  by_contra hne
  have hdistinct : Operation.submit id now batch ≠ .submit id now' batch' := by
    rintro ⟨⟩
    exact hne rfl
  exact hapart.forall h h' hdistinct id rfl id rfl rfl

section Stored

variable {name : String} {config : SimulatorConfig} {debugAssertions : Bool}
  {divide : ℕ → ℕ → Split} {id : JobId} {batch : List (ExecutionRequest Float)}

/-- A job that was not cancelled ends as a run of its batch does. -/
theorem Ends.exists_outcome {e : JobEntry (JobResult Float)}
    (h : Ends name config debugAssertions divide id batch e) :
    let engine := (build name config debugAssertions).engine
    ∃ env : Surroundings, env.DividesAs engine divide batch ∧
      e.job.status = JobTable.WorkerEnd.status (executeBatch engine env id batch) ∧
      e.result = JobTable.WorkerEnd.result? (executeBatch engine env id batch) := by
  intro engine
  obtain ⟨operations, now, hfresh, hfaithful, hsubmit, he, hterminal, hkept⟩ := h
  have haccounts : ((build name config debugAssertions).performAll operations).Accounts engine
      (fun env => env.DividesAs engine divide batch) fun k outcome => k = id →
        ∃ env : Surroundings, env.DividesAs engine divide batch ∧
          outcome = executeBatch engine env id batch := by
    refine Accounts.performAll ⟨rfl, nofun, JobTable.concluded_empty _⟩ fun operation hmem => ?_
    cases operation with
    | submit k now' batch' =>
      rintro env henv rfl
      obtain rfl := batch_unique hfresh hsubmit hmem
      exact ⟨env, henv, rfl⟩
    | report k outcome now =>
      rintro rfl
      exact hfaithful.reported outcome now hmem
    | drain env => exact hfaithful.drained env hmem
    | _ => trivial
  cases haccounts.table id e he with
  | pending hstatus => simp [hstatus] at hterminal
  | cancelled hstatus => exact absurd hstatus hkept
  | ended outcome hreport hstatus hresult =>
    obtain ⟨env, henv, rfl⟩ := hreport rfl
    exact ⟨env, henv, hstatus, hresult⟩

/-- An accepted batch can be brought to its end: its worker runs, and there is room for the job. -/
theorem exists_ends (hconfig : config.validate = .ok ()) {now : Timestamp}
    {accepted : JobId × Simulator}
    (hsubmit : (build name config debugAssertions).submit id now batch = .ok accepted)
    (divide : ℕ → ℕ → Split) : ∃ e, Ends name config debugAssertions divide id batch e := by
  let s := build name config debugAssertions
  let env : Surroundings := { given := fun i => { divide := divide i } }
  have hroom : 0 < config.maxRetainedJobs.toNat := SimulatorConfig.maxRetainedJobs_pos hconfig
  obtain ⟨-, -, rfl⟩ := submit_eq_ok_iff.1 hsubmit
  let queued : JobEntry (JobResult Float) :=
    ⟨(Job.create id batch.length now).withBackend name, none, .queued⟩
  let outcome := executeBatch s.engine env id batch
  have hqueued : ((JobTable.empty config.maxRetainedJobs.toNat).put id queued).find? id =
      some queued := by rw [JobTable.find?_put, if_pos rfl]
  obtain ⟨started, e, hstart, he, hstatus⟩ :=
    JobTable.exists_find?_report (by exact hroom) hqueued rfl outcome 0
  have htable : (s.performAll [.submit id now batch, .drain env]).table =
      started.report id outcome 0 := by
    have hperform : s.perform (.submit id now batch) = s.enqueued id now batch := by
      rw [perform, hsubmit]
      rfl
    rw [performAll, List.foldl_cons, List.foldl_cons, List.foldl_nil, hperform]
    show (runWorker { s.enqueued id now batch with waiting := [] } env id batch).table = _
    unfold runWorker
    have hstarts : JobTable.start? (s.enqueued id now batch).table id env.now = some started :=
      hstart
    simp only [hstarts]
    rfl
  have hfaithful : Faithful s.engine divide id batch [.submit id now batch, .drain env] := by
    constructor
    · intro env' hmem
      obtain rfl : env' = env := by simpa using hmem
      exact fun e _ => .inr rfl
    · intro outcome now hmem
      simp at hmem
  refine ⟨e, [.submit id now batch, .drain env], now, List.nodup_singleton id, hfaithful, by simp,
    htable ▸ he, ?_, ?_⟩
  · rw [hstatus, JobTable.WorkerEnd.isTerminal_status]
  · rw [hstatus]
    cases outcome <;> exact JobStatus.noConfusion

end Stored

end Simulator

end QuantumSim
