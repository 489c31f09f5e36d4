import Mathlib
import QuantumSim.Proofs.JobOutcome
import QuantumSim.Proofs.TableFrame
import QuantumSim.Proofs.Waiting

/-!
Workers next to the job table. Every submitted job gets a worker, which waits for a place, begins
unless its job was cancelled, and reports how it ended. The clients' calls and the steps of all
workers come in any order. A worker that returns leaves an ended job behind, or none, with one
exception: the report that there was no place to be had is refused, and its job stays queued.
-/
namespace QuantumSim

/-- How the worker of a job returned. -/
inductive WorkerExit (α : Type) where
  /-- When it had its place, its job was not queued any more. -/
  | turnedAway
  /-- No place was to be had. -/
  | noPlace
  | ran (outcome : WorkerEnd α)

/-- How far the worker of a job has come. -/
inductive WorkerStage (α : Type) where
  /-- It waits for a place among the running jobs. -/
  | waiting
  | working
  | returned (exit : WorkerExit α)

/-- The statuses that a returned worker leaves its job in, if the job is still there. -/
def WorkerExit.Leaves {α : Type} : WorkerExit α → JobStatus → Prop
  | turnedAway, status => status = .cancelled
  | noPlace, status => status = .queued ∨ status = .cancelled
  | ran outcome, status => status = JobTable.WorkerEnd.status outcome

/-- A job table and the workers of its jobs. -/
structure Crew (α : Type) where
  table : JobTable α
  workers : JobId → Option (WorkerStage α)

namespace Crew

variable {α : Type}

/-- What can happen next: a call, or a step of a worker. -/
inductive Action (α : Type) where
  | submit (id : JobId) (numCircuits : Nat) (backend : String) (now : Timestamp)
  | cancel (id : JobId) (now : Timestamp)
  | forget (id : JobId)
  /-- The worker of a job gets a place and tries to begin. -/
  | place (id : JobId) (now : Timestamp)
  /-- The worker of a job learns that it will get no place, and reports it. -/
  | noPlace (id : JobId) (now : Timestamp)
  /-- The worker of a job has run the batch, or stopped in the middle, and reports it. -/
  | report (id : JobId) (outcome : WorkerEnd α) (now : Timestamp)

def Action.jobId : Action α → JobId
  | submit id .. | cancel id _ | forget id | place id _ | noPlace id _ | report id .. => id

def Action.submitted? : Action α → Option JobId
  | submit id .. => some id
  | _ => none

/-- The ids under which jobs are submitted, in order. -/
def submitted (actions : List (Action α)) : List JobId := actions.filterMap Action.submitted?

def empty (retain : ℕ) : Crew α := ⟨.empty retain, fun _ => none⟩

/-- Records how far the worker of a job has come. -/
def advance (c : Crew α) (id : JobId) (stage : WorkerStage α) : Crew α :=
  { c with workers := Function.update c.workers id (some stage) }

/-- A step that a worker cannot take at its stage does not happen. -/
def step (c : Crew α) : Action α → Crew α
  | .submit id numCircuits backend now =>
    advance { c with table := c.table.step (.submit id numCircuits backend now) } id .waiting
  | .cancel id now => { c with table := c.table.step (.cancel id now) }
  | .forget id => { c with table := c.table.step (.forget id) }
  | .place id now =>
    match c.workers id, c.table.start? id now with
    | some .waiting, some table => advance { c with table } id .working
    | some .waiting, none => advance c id (.returned .turnedAway)
    | _, _ => c
  | .noPlace id now =>
    match c.workers id with
    | some .waiting =>
      advance { c with table := c.table.report id .poolClosed now } id (.returned .noPlace)
    | _ => c
  | .report id outcome now =>
    match c.workers id with
    | some .working =>
      advance { c with table := c.table.report id outcome now } id (.returned (.ran outcome))
    | _ => c

def run (c : Crew α) (actions : List (Action α)) : Crew α := actions.foldl step c

@[simp] theorem run_nil (c : Crew α) : c.run [] = c := rfl

@[simp] theorem run_cons (c : Crew α) (a : Action α) (actions : List (Action α)) :
    c.run (a :: actions) = (c.step a).run actions := rfl

theorem run_append (c : Crew α) (before after : List (Action α)) :
    c.run (before ++ after) = (c.run before).run after := List.foldl_append ..

section Steps

variable {c : Crew α} {a : Action α} {k : JobId}

@[simp] theorem table_advance (c : Crew α) (id : JobId) (stage : WorkerStage α) :
    (c.advance id stage).table = c.table := rfl

@[simp] theorem workers_advance (c : Crew α) (id : JobId) (stage : WorkerStage α) :
    (c.advance id stage).workers id = some stage := Function.update_self ..

theorem workers_advance_of_ne (c : Crew α) {id : JobId} (stage : WorkerStage α) (hk : k ≠ id) :
    (c.advance id stage).workers k = c.workers k := Function.update_of_ne hk ..

/-- An action is about one worker. -/
theorem workers_step_of_ne (c : Crew α) (hk : k ≠ a.jobId) :
    (c.step a).workers k = c.workers k := by
  cases a with
  | submit | place | noPlace | report =>
    rw [step]
    repeat' split
    all_goals first | rfl | exact workers_advance_of_ne _ _ hk
  | cancel | forget => rfl

/-- A job gets a worker only when it is submitted. -/
theorem workers_step_of_none (h : c.workers k = none) (hk : k ∉ a.submitted?) :
    (c.step a).workers k = none := by
  by_cases hid : k = a.jobId
  · cases a with
    | submit id => exact absurd (congrArg some hid.symm) hk
    | cancel | forget => exact h
    | place id now | noPlace id now | report id outcome now =>
      obtain rfl : k = id := hid
      simp only [step, h]
  · rw [workers_step_of_ne c hid, h]

/-- What an action does to the table is one event about the same job, if anything. -/
theorem table_step (c : Crew α) (a : Action α) :
    (c.step a).table = c.table ∨
      ∃ e : JobTable.Event α, e.jobId = a.jobId ∧ e.submitted? = a.submitted? ∧
        (c.step a).table = c.table.step e := by
  cases a with
  | submit id numCircuits backend now =>
    exact .inr ⟨.submit id numCircuits backend now, rfl, rfl, rfl⟩
  | cancel id now => exact .inr ⟨.cancel id now, rfl, rfl, rfl⟩
  | forget id => exact .inr ⟨.forget id, rfl, rfl, rfl⟩
  | place id now =>
    rw [step]
    split
    next table _ hstart =>
      refine .inr ⟨.start id now, rfl, rfl, ?_⟩
      rw [JobTable.step, hstart]
      rfl
    · exact .inl rfl
    · exact .inl rfl
  | noPlace id now =>
    rw [step]
    split
    · exact .inr ⟨.report id .poolClosed now, rfl, rfl, rfl⟩
    · exact .inl rfl
  | report id outcome now =>
    rw [step]
    split
    · exact .inr ⟨.report id outcome now, rfl, rfl, rfl⟩
    · exact .inl rfl

end Steps

/-- The worker of a simulator gets its place and reports without anything in between. -/
theorem table_runWorker (s : Simulator) (env : Surroundings) {id : JobId}
    (batch : List (ExecutionRequest Float))
    {workers : JobId → Option (WorkerStage (JobResult Float))}
    (hwaiting : workers id = some .waiting) :
    (s.runWorker env id batch).table = (run ⟨s.table, workers⟩ [.place id env.now,
      .report id (Simulator.executeBatch s.engine env id batch) env.now]).table := by
  rw [run_cons, run_cons, run_nil, Simulator.runWorker]
  cases hstart : s.table.start? id env.now with
  | none => simp [step, hwaiting, hstart]
  | some table => simp [step, hwaiting, hstart]

section Invariant

/-- What the stage of a worker says of the entry of its job. -/
def Accounts : Option (WorkerStage α) → Option (JobEntry α) → Prop
  | none, entry => entry = none
  | some .waiting, entry => ∀ e ∈ entry, e.job.status = .queued ∨ e.job.status = .cancelled
  | some .working, entry => ∃ e, entry = some e ∧ e.job.status = .running
  | some (.returned exit), entry => ∀ e ∈ entry, exit.Leaves e.job.status

/-- The books are sound, the waiters are told of every status, and every job is where its worker
says. -/
structure Consistent (c : Crew α) : Prop where
  sound : c.table.Sound
  announced : c.table.Announced
  accounts (id : JobId) : Accounts (c.workers id) (c.table.find? id)

theorem consistent_empty (retain : ℕ) : (empty retain : Crew α).Consistent :=
  ⟨JobTable.sound_empty retain, JobTable.announced_empty retain, fun _ => rfl⟩

variable {c : Crew α} {a : Action α} {id : JobId}

/-- An ended job may leave the table at any time. -/
theorem Accounts.of_gone {stage : Option (WorkerStage α)} {entry : Option (JobEntry α)}
    (h : Accounts stage entry) (hended : entry.any (fun e => e.job.status.isTerminal) = true) :
    Accounts stage none := by
  match stage with
  | none => rfl
  | some .waiting | some (.returned _) => exact nofun
  | some .working =>
    obtain ⟨e, rfl, hrunning⟩ := h
    simp [hrunning, JobStatus.isTerminal] at hended

/-- Cancelling fits every stage at which the job can be cancelled. -/
theorem Accounts.cancelled {stage : Option (WorkerStage α)} {old e : JobEntry α}
    (h : Accounts stage (some old)) (hmove : old.job.status.canMoveTo .cancelled = true)
    (hstatus : e.job.status = .cancelled) : Accounts stage (some e) := by
  match stage with
  | none => cases h
  | some .waiting =>
    rintro _ ⟨⟩
    exact .inr hstatus
  | some .working =>
    obtain ⟨_, ⟨⟩, hrunning⟩ := h
    rw [hrunning] at hmove
    cases hmove
  | some (.returned exit) =>
    rintro _ ⟨⟩
    have hold := h old rfl
    rw [hstatus]
    cases exit with
    | turnedAway => rfl
    | noPlace => exact .inr rfl
    | ran outcome =>
      rw [hold] at hmove
      cases outcome <;> cases hmove

theorem Accounts.cancel {t : JobTable α} {stage : Option (WorkerStage α)}
    (h : Accounts stage (t.find? id)) (now : Timestamp) :
    Accounts stage ((t.step (.cancel id now)).find? id) := by
  rw [JobTable.step, JobTable.after_cancel]
  cases hmove : t.moveTo? id .cancelled none now with
  | none => exact h
  | some t' =>
    obtain ⟨old, job, hold, hcan, hstatus, -⟩ := JobTable.moveTo?_eq_some hmove
    rw [hold] at h
    rw [Option.getD_some]
    cases hentry : t'.find? id with
    | some e => exact h.cancelled hcan (JobTable.status_of_moveTo? hmove hentry)
    | none =>
      have hcancelled : Accounts stage (some ⟨job, none, .cancelled⟩) := h.cancelled hcan hstatus
      exact hcancelled.of_gone (by simp [hstatus, JobStatus.isTerminal])

theorem Accounts.forget {t : JobTable α} {stage : Option (WorkerStage α)}
    (h : Accounts stage (t.find? id)) :
    Accounts stage ((t.step (.forget id)).find? id) := by
  rw [JobTable.step]
  cases hforget : t.forget id with
  | error cause => exact h
  | ok t' =>
    obtain ⟨⟨old, hold, hterminal⟩, rfl⟩ := JobTable.forget_eq_ok.1 hforget
    change Accounts stage ((t.remove id).find? id)
    rw [JobTable.find?_remove, if_pos rfl]
    exact h.of_gone (by simp [hold, hterminal])

/-- A worker that may begin has a running job. -/
theorem Accounts.start {t t' : JobTable α} {now : Timestamp} (hstart : t.start? id now = some t') :
    Accounts (some .working) (t'.find? id) := by
  obtain ⟨old, job, -, -, hstatus, rfl⟩ := JobTable.moveTo?_eq_some hstart
  refine ⟨⟨job, none.or old.result, .running⟩, ?_, hstatus⟩
  exact (JobTable.find?_put t id id _).trans (if_pos rfl)

/-- A worker that may not begin has a cancelled job, if any. -/
theorem Accounts.turnedAway {t : JobTable α} {now : Timestamp}
    (h : Accounts (some .waiting) (t.find? id)) (hstart : t.start? id now = none) :
    Accounts (some (.returned .turnedAway)) (t.find? id) := by
  intro e he
  refine (h e he).resolve_left fun hqueued => ?_
  have hcan : e.job.status.canMoveTo .running = true := by
    rw [hqueued]
    rfl
  obtain ⟨t', hmove⟩ := JobTable.exists_moveTo?_eq_some he hcan none now
  cases hmove.symm.trans hstart

/-- The report that there is no place is refused, whether the job is queued, cancelled or gone. -/
theorem report_poolClosed {t : JobTable α} (h : Accounts (some .waiting) (t.find? id))
    (now : Timestamp) : t.report id .poolClosed now = t := by
  unfold JobTable.report
  cases hmove : t.moveTo? id (JobTable.WorkerEnd.status .poolClosed)
      (JobTable.WorkerEnd.result? .poolClosed) now with
  | none => rfl
  | some t' =>
    obtain ⟨old, -, hold, hcan, -⟩ := JobTable.moveTo?_eq_some hmove
    rcases h old hold with hstatus | hstatus <;> (rw [hstatus] at hcan; cases hcan)

/-- The report of a worker that has begun is never refused. -/
theorem Accounts.report {t : JobTable α} (h : Accounts (some .working) (t.find? id))
    (outcome : WorkerEnd α) (now : Timestamp) :
    Accounts (some (.returned (.ran outcome))) ((t.report id outcome now).find? id) := by
  obtain ⟨old, hold, hrunning⟩ := h
  have hcan : old.job.status.canMoveTo (JobTable.WorkerEnd.status outcome) = true := by
    rw [hrunning]
    cases outcome <;> rfl
  obtain ⟨t', hmove⟩ :=
    JobTable.exists_moveTo?_eq_some hold hcan (JobTable.WorkerEnd.result? outcome) now
  rw [JobTable.report, hmove, Option.getD_some]
  exact fun e he => JobTable.status_of_moveTo? hmove he

theorem Consistent.accounts_own (h : c.Consistent) (a : Action α) :
    Accounts ((c.step a).workers a.jobId) ((c.step a).table.find? a.jobId) := by
  cases a with
  | submit id numCircuits backend now =>
    have hfind : ((c.step (.submit id numCircuits backend now)).table.find? id) =
        some ⟨(Job.create id numCircuits now).withBackend backend, none, .queued⟩ :=
      (JobTable.find?_put c.table id id _).trans (if_pos rfl)
    rw [Action.jobId, hfind, step, workers_advance]
    rintro _ ⟨⟩
    exact .inl rfl
  | cancel id now => exact (h.accounts id).cancel now
  | forget id => exact (h.accounts id).forget
  | place id now =>
    have hbefore := h.accounts id
    rw [Action.jobId, step]
    split
    next table hwaiting hstart =>
      rw [workers_advance]
      exact .start hstart
    next hwaiting hstart =>
      rw [hwaiting] at hbefore
      rw [workers_advance]
      exact hbefore.turnedAway hstart
    next => exact hbefore
  | noPlace id now =>
    have hbefore := h.accounts id
    rw [Action.jobId, step]
    split
    next hwaiting =>
      rw [hwaiting] at hbefore
      rw [workers_advance, table_advance, report_poolClosed hbefore]
      exact hbefore
    next => exact hbefore
  | report id outcome now =>
    have hbefore := h.accounts id
    rw [Action.jobId, step]
    split
    next hworking =>
      rw [hworking] at hbefore
      rw [workers_advance]
      exact hbefore.report outcome now
    next => exact hbefore

theorem Consistent.step (h : c.Consistent) (hnew : ∀ id ∈ a.submitted?, c.workers id = none) :
    (c.step a).Consistent := by
  have hchange := table_step c a
  constructor
  · obtain hsame | ⟨e, -, hentering, hstep⟩ := hchange
    · exact hsame ▸ h.sound
    · rw [hstep]
      refine h.sound.change (JobTable.change_step c.table e) fun id hid => ?_
      have hnone := h.accounts id
      rwa [hnew id (hentering ▸ hid)] at hnone
  · obtain hsame | ⟨e, -, -, hstep⟩ := hchange
    · exact hsame ▸ h.announced
    · exact hstep ▸ h.announced.change (JobTable.change_step c.table e)
  · intro k
    by_cases hk : k = a.jobId
    · exact hk ▸ h.accounts_own a
    · rw [workers_step_of_ne c hk]
      obtain hsame | ⟨e, hid, -, hstep⟩ := hchange
      · exact hsame ▸ h.accounts k
      · rw [hstep]
        obtain hkept | ⟨hgone, hended⟩ := h.sound.find?_step_of_ne (hid ▸ hk)
        · exact hkept ▸ h.accounts k
        · exact hgone ▸ (h.accounts k).of_gone hended

theorem submitted_cons (a : Action α) (actions : List (Action α)) :
    submitted (a :: actions) = a.submitted?.toList ++ submitted actions := by
  unfold submitted
  cases h : a.submitted? <;> simp [h]

/-- The jobs still to be submitted have ids of their own, for which there are no workers yet. -/
structure Fresh (c : Crew α) (actions : List (Action α)) : Prop where
  nodup : (submitted actions).Nodup
  unknown (id : JobId) : id ∈ submitted actions → c.workers id = none

variable {actions before after : List (Action α)}

theorem fresh_empty (retain : ℕ) (h : (submitted actions).Nodup) : (empty retain).Fresh actions :=
  ⟨h, fun _ _ => rfl⟩

theorem Fresh.head (h : c.Fresh (a :: actions)) : ∀ id ∈ a.submitted?, c.workers id = none := by
  intro id hid
  refine h.unknown id ?_
  rw [submitted_cons]
  exact List.mem_append_left _ (Option.mem_toList.2 hid)

theorem Fresh.step (h : c.Fresh (a :: actions)) : (c.step a).Fresh actions := by
  obtain ⟨hnodup, hunknown⟩ := h
  rw [submitted_cons] at hnodup hunknown
  obtain ⟨-, hrest, hdisjoint⟩ := List.nodup_append.1 hnodup
  refine ⟨hrest, fun id hid => ?_⟩
  have hout : id ∉ a.submitted? := fun hmem => hdisjoint id (Option.mem_toList.2 hmem) id hid rfl
  exact workers_step_of_none (hunknown id (List.mem_append_right _ hid)) hout

theorem Fresh.not_mem (h : c.Fresh actions) {stage : WorkerStage α}
    (hworker : c.workers id = some stage) : id ∉ submitted actions := fun hid => by
  simp [h.unknown id hid] at hworker

/-- The joint state of the table and the workers after the first part of a run, and what is still
to be submitted then. -/
theorem Consistent.run (h : c.Consistent) (hfresh : c.Fresh (before ++ after)) :
    (c.run before).Consistent ∧ (c.run before).Fresh after := by
  induction before generalizing c with
  | nil => exact ⟨h, hfresh⟩
  | cons a before ih => exact ih (h.step hfresh.head) hfresh.step

end Invariant

section Runs

variable {c : Crew α} {a : Action α} {id : JobId} {actions : List (Action α)}

/-- What the actions do to the table is a run of events that submits no other job. -/
theorem exists_table_run (c : Crew α) (actions : List (Action α)) :
    ∃ events, (JobTable.submitted events).Sublist (submitted actions) ∧
      (c.run actions).table = c.table.run events := by
  induction actions generalizing c with
  | nil => exact ⟨[], List.nil_sublist _, rfl⟩
  | cons a actions ih =>
    obtain ⟨events, hids, htable⟩ := ih (c.step a)
    rw [submitted_cons, run_cons, htable]
    obtain hsame | ⟨e, -, hentering, hstep⟩ := table_step c a
    · exact ⟨events, hids.trans (List.sublist_append_right _ _), by rw [hsame]⟩
    · refine ⟨e :: events, ?_, by rw [hstep, JobTable.run_cons]⟩
      rw [JobTable.submitted_cons, hentering]
      exact (List.Sublist.refl _).append hids

/-- A job that is not queued any more although its worker waits is cancelled, if it is there, and
stays so. -/
theorem not_queued_run (hc : c.Consistent) (hwaiting : c.workers id = some .waiting)
    (hstatus : c.table.status id ≠ .ok .queued) (hfresh : c.Fresh actions) :
    (c.run actions).table.status id = .ok .cancelled ∨
      (c.run actions).table.status id = JobTable.notFound id := by
  obtain ⟨events, hids, htable⟩ := exists_table_run c actions
  have hout : id ∉ JobTable.submitted events := fun hid =>
    hfresh.not_mem hwaiting (hids.subset hid)
  have hentry := hc.accounts id
  rw [hwaiting] at hentry
  rw [htable]
  cases hfind : c.table.find? id with
  | none => exact .inr (JobTable.status_of_none (JobTable.find?_run_of_none hout hfind))
  | some e =>
    have hcancelled : e.job.status = .cancelled := (hentry e hfind).resolve_left fun hqueued =>
      hstatus (JobTable.status_eq_ok.2 ⟨e, hfind, hqueued⟩)
    rcases JobTable.find?_run_of_terminal hout hfind (by rw [hcancelled]; rfl) with hkept | hgone
    · exact .inl (JobTable.status_eq_ok.2 ⟨e, hkept, hcancelled⟩)
    · exact .inr (JobTable.status_of_none hgone)

/-- A queued job whose worker has given up. -/
def Stuck (c : Crew α) (id : JobId) : Prop :=
  c.workers id = some (.returned .noPlace) ∧ c.table.status id = .ok .queued

/-- Nothing but a cancellation gets the job going again. -/
theorem Stuck.step (h : c.Stuck id) (hc : c.Consistent) (hnew : id ∉ a.submitted?)
    (hkept : ∀ now, a ≠ .cancel id now) : (c.step a).Stuck id := by
  obtain ⟨hworker, hqueued⟩ := h
  obtain ⟨e, hfind, hstatus⟩ := JobTable.status_eq_ok.1 hqueued
  by_cases hid : id = a.jobId
  · cases a with
    | submit k => exact absurd (congrArg some hid.symm) hnew
    | cancel k now =>
      obtain rfl : id = k := hid
      exact absurd rfl (hkept now)
    | forget k =>
      obtain rfl : id = k := hid
      refine ⟨hworker, ?_⟩
      have hrefused : c.table.forget id = .error (.jobPending id e.job.status) := by
        unfold JobTable.forget JobTable.entry
        rw [hfind, ok_bind, hstatus]
        rfl
      rw [step, JobTable.step, hrefused]
      exact hqueued
    | place k now | noPlace k now | report k outcome now =>
      obtain rfl : id = k := hid
      simp only [Crew.step, hworker]
      exact ⟨hworker, hqueued⟩
  · refine ⟨(workers_step_of_ne c hid).trans hworker, ?_⟩
    obtain hsame | ⟨event, hjob, -, hstep⟩ := table_step c a
    · rw [hsame, hqueued]
    · rw [hstep]
      obtain hkept | ⟨-, hended⟩ := hc.sound.find?_step_of_ne (hjob ▸ hid)
      · exact JobTable.status_eq_ok.2 ⟨e, hkept.trans hfind, hstatus⟩
      · obtain ⟨e', he', hterminal⟩ := JobTable.hasEnded_iff.1 hended
        cases hfind.symm.trans he'
        rw [hstatus] at hterminal
        cases hterminal

theorem Stuck.run (h : c.Stuck id) (hc : c.Consistent) (hfresh : c.Fresh actions)
    (hkept : ∀ now, .cancel id now ∉ actions) : (c.run actions).Stuck id := by
  induction actions generalizing c with
  | nil => exact h
  | cons a actions ih =>
    have hhead : id ∉ a.submitted? := fun hid => by
      cases h.1.symm.trans (hfresh.head id hid)
    have hfirst : ∀ now, a ≠ .cancel id now := fun now heq => hkept now (by simp [heq])
    exact ih (h.step hc hhead hfirst) (hc.step hfresh.head) hfresh.step fun now hmem =>
      hkept now (List.mem_cons_of_mem _ hmem)

/-- A worker that gives up on a queued job leaves it stuck. -/
theorem stuck_of_noPlace (hc : c.Consistent) (hwaiting : c.workers id = some .waiting)
    (hqueued : c.table.status id = .ok .queued) (now : Timestamp) :
    (c.step (.noPlace id now)).Stuck id := by
  have hentry := hc.accounts id
  rw [hwaiting] at hentry
  simp only [Crew.step, hwaiting]
  refine ⟨workers_advance _ id _, ?_⟩
  rw [table_advance, report_poolClosed hentry, hqueued]

end Runs

section Ends

variable {c : Crew α} {id : JobId}

/-- What the stage of a worker tells of its job. -/
structure Settled (c : Crew α) (id : JobId) : Prop where
  /-- The job of a worker that has run its batch, or stopped in the middle, is as reported, or
  gone. -/
  ran (outcome : WorkerEnd α) : c.workers id = some (.returned (.ran outcome)) →
    c.table.status id = .ok (JobTable.WorkerEnd.status outcome) ∨
      c.table.status id = JobTable.notFound id
  /-- The job of a worker that was turned away is cancelled, or gone. -/
  turnedAway : c.workers id = some (.returned .turnedAway) →
    c.table.status id = .ok .cancelled ∨ c.table.status id = JobTable.notFound id
  /-- Who waits for a job is told that it ended once its worker has returned, unless there was no
  place for the worker. -/
  notified (exit : WorkerExit α) : c.workers id = some (.returned exit) → exit ≠ .noPlace →
    JobTable.Waiter.isNotified ⟨id⟩ c.table = true
  /-- A queued or running job has a worker at that stage, or one that got no place. -/
  pending (status : JobStatus) : c.table.status id = .ok status → status.isPending = true →
    c.workers id = some .waiting ∧ status = .queued ∨
      c.workers id = some .working ∧ status = .running ∨
      c.workers id = some (.returned .noPlace) ∧ status = .queued

theorem Consistent.status_of_returned (h : c.Consistent) {exit : WorkerExit α}
    (hworker : c.workers id = some (.returned exit)) :
    (∃ status, c.table.status id = .ok status ∧ exit.Leaves status) ∨
      c.table.status id = JobTable.notFound id := by
  have hentry := h.accounts id
  rw [hworker] at hentry
  cases hfind : c.table.find? id with
  | none => exact .inr (JobTable.status_of_none hfind)
  | some e => exact .inl ⟨_, JobTable.status_of_some hfind, hentry e hfind⟩

theorem isTerminal_of_leaves {exit : WorkerExit α} {status : JobStatus} (h : exit.Leaves status)
    (hplace : exit ≠ .noPlace) : status.isTerminal = true := by
  cases exit with
  | turnedAway =>
    obtain rfl : status = .cancelled := h
    rfl
  | noPlace => exact absurd rfl hplace
  | ran outcome =>
    obtain rfl : status = JobTable.WorkerEnd.status outcome := h
    exact JobTable.WorkerEnd.isTerminal_status outcome

theorem Consistent.settled (h : c.Consistent) (id : JobId) : c.Settled id where
  ran outcome hworker := by
    obtain ⟨status, hstatus, rfl⟩ | hgone := h.status_of_returned hworker
    · exact .inl hstatus
    · exact .inr hgone
  turnedAway hworker := by
    obtain ⟨status, hstatus, rfl⟩ | hgone := h.status_of_returned hworker
    · exact .inl hstatus
    · exact .inr hgone
  notified exit hworker hplace := by
    have hentry := h.accounts id
    rw [hworker] at hentry
    cases hfind : c.table.find? id with
    | none => exact JobTable.isNotified_of_none hfind
    | some e =>
      rw [JobTable.isNotified_of_some h.announced hfind]
      exact isTerminal_of_leaves (hentry e hfind) hplace
  pending status hstatus hpending := by
    obtain ⟨e, hfind, rfl⟩ := JobTable.status_eq_ok.1 hstatus
    have hentry := h.accounts id
    have hnot : e.job.status.isTerminal = false := by
      simpa [JobStatus.isPending_eq] using hpending
    rw [hfind] at hentry
    match hworker : c.workers id with
    | none =>
      rw [hworker] at hentry
      cases hentry
    | some .waiting =>
      rw [hworker] at hentry
      refine .inl ⟨rfl, (hentry e rfl).resolve_right fun hcancelled => ?_⟩
      rw [hcancelled] at hnot
      cases hnot
    | some .working =>
      rw [hworker] at hentry
      obtain ⟨_, ⟨⟩, hrunning⟩ := hentry
      exact .inr (.inl ⟨rfl, hrunning⟩)
    | some (.returned .noPlace) =>
      rw [hworker] at hentry
      refine .inr (.inr ⟨rfl, (hentry e rfl).resolve_right fun hcancelled => ?_⟩)
      rw [hcancelled] at hnot
      cases hnot
    | some (.returned .turnedAway) | some (.returned (.ran _)) =>
      rw [hworker] at hentry
      rw [isTerminal_of_leaves (hentry e rfl) nofun] at hnot
      cases hnot

/-- In every run in which no two jobs are submitted under one id, a worker that returns leaves its
job ended or gone, and whoever waits for the job is told. The exception is a worker that gets no
place: unless the job was cancelled before, its report is refused, and the job stays queued without
a worker until somebody cancels it. -/
theorem settled_run (retain : ℕ) {actions : List (Action α)} (hfresh : (submitted actions).Nodup)
    (id : JobId) :
    let c := (empty retain).run actions
    c.Settled id ∧ ∀ before now later, actions = before ++ .noPlace id now :: later →
      let earlier := (empty retain).run before
      earlier.workers id = some .waiting →
        (earlier.table.status id ≠ .ok .queued →
          c.table.status id = .ok .cancelled ∨ c.table.status id = JobTable.notFound id) ∧
        (earlier.table.status id = .ok .queued → (∀ now, .cancel id now ∉ later) →
          c.table.status id = .ok .queued ∧
            JobTable.Waiter.isNotified ⟨id⟩ c.table = false) := by
  intro c
  have hinitial : (empty retain).Fresh actions := fresh_empty retain hfresh
  have hfinal : c.Consistent := by
    rw [← List.append_nil actions] at hinitial
    exact ((consistent_empty retain).run hinitial).1
  refine ⟨hfinal.settled id, ?_⟩
  rintro before now later rfl earlier hwaiting
  obtain ⟨hearlier, hrest⟩ := (consistent_empty retain).run hinitial
  have hrun : c = earlier.run (.noPlace id now :: later) := run_append ..
  rw [hrun]
  refine ⟨fun hstatus => not_queued_run hearlier hwaiting hstatus hrest, fun hqueued hkept => ?_⟩
  have hstuck := (stuck_of_noPlace hearlier hwaiting hqueued now).run
    (hearlier.step hrest.head) hrest.step hkept
  have hannounced : (earlier.run (.noPlace id now :: later)).table.Announced :=
    hrun ▸ hfinal.announced
  obtain ⟨e, hfind, hstatus⟩ := JobTable.status_eq_ok.1 hstuck.2
  have hnotified := JobTable.isNotified_of_some hannounced hfind
  rw [hstatus] at hnotified
  exact ⟨hstuck.2, hnotified⟩

/-- Four jobs and room for two ended ones. The first job completes, the second one is cancelled
before its worker gets its place, the worker of the third one gets none, and the worker of the last
one stops in the middle. -/
theorem settled_run_stranded :
    let before : List (Action ℕ) := [.submit ⟨"a"⟩ 1 "small" 0, .submit ⟨"b"⟩ 1 "small" 1,
      .submit ⟨"c"⟩ 1 "small" 2, .submit ⟨"d"⟩ 1 "small" 3, .place ⟨"a"⟩ 4,
      .report ⟨"a"⟩ (.completed 7) 5, .cancel ⟨"b"⟩ 6, .place ⟨"b"⟩ 7, .place ⟨"d"⟩ 8]
    let later : List (Action ℕ) := [.report ⟨"d"⟩ (.aborted "panic") 10, .forget ⟨"c"⟩]
    let c := (empty 2).run (before ++ .noPlace ⟨"c"⟩ 9 :: later)
    (submitted (before ++ .noPlace ⟨"c"⟩ 9 :: later)).Nodup ∧
      c.table.status ⟨"a"⟩ = JobTable.notFound ⟨"a"⟩ ∧
      JobTable.Waiter.isNotified ⟨⟨"b"⟩⟩ c.table = true ∧
      (c.table.status ⟨"c"⟩ = .ok .queued ∧
        JobTable.Waiter.isNotified ⟨⟨"c"⟩⟩ c.table = false) ∧
      c.table.status ⟨"d"⟩ = .ok (.failed "simulation worker aborted: panic") := by
  intro before later c
  have hfresh : (submitted (before ++ .noPlace ⟨"c"⟩ 9 :: later)).Nodup := by decide
  obtain ⟨ha, -⟩ := settled_run 2 hfresh ⟨"a"⟩
  obtain ⟨hb, -⟩ := settled_run 2 hfresh ⟨"b"⟩
  obtain ⟨-, hc⟩ := settled_run 2 hfresh ⟨"c"⟩
  obtain ⟨hd, -⟩ := settled_run 2 hfresh ⟨"d"⟩
  refine ⟨hfresh, ?_, hb.notified .turnedAway rfl nofun, ?_, ?_⟩
  · exact (ha.ran (.completed 7) rfl).resolve_left nofun
  · exact (hc before 9 later rfl rfl).2 rfl (by simp [later])
  · exact (hd.ran (.aborted "panic") rfl).resolve_right nofun

end Ends

end Crew
end QuantumSim
