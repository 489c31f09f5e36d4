import Mathlib
import QuantumSim.JobTable
import QuantumSim.Proofs.Dict
import QuantumSim.Proofs.Outcome

/-!
Everything that happens to a job table, as a list of events in the order in which they got hold of
the table. An event that is refused leaves the table as it is. Every other one enters a job, moves
one on, ends one or forgets one, and that is all a table ever does.
-/
namespace QuantumSim

theorem Job.moveTo?_eq_some {job job' : Job} {status : JobStatus} {now : Timestamp}
    (h : job.moveTo? status now = some job') :
    job.status.canMoveTo status ∧ job'.status = status := by
  unfold Job.moveTo? at h
  split at h
  next hmove =>
    cases h
    exact ⟨hmove, rfl⟩
  next => cases h

namespace JobTable

variable {α : Type}

inductive Event (α : Type) where
  | submit (id : JobId) (numCircuits : Nat) (backend : String) (now : Timestamp)
  /-- The worker of a job has its place and tries to begin. -/
  | start (id : JobId) (now : Timestamp)
  | report (id : JobId) (outcome : WorkerEnd α) (now : Timestamp)
  | cancel (id : JobId) (now : Timestamp)
  | forget (id : JobId)

/-- The table a call leaves behind: a refusal changes nothing. -/
def after (t : JobTable α) : Except BackendError (JobTable α) → JobTable α
  | .ok t' => t'
  | .error _ => t

def step (t : JobTable α) : Event α → JobTable α
  | .submit id numCircuits backend now =>
    t.submit ((Job.create id numCircuits now).withBackend backend)
  | .start id now => (t.start? id now).getD t
  | .report id outcome now => t.report id outcome now
  | .cancel id now => t.after (t.cancel id now)
  | .forget id => t.after (t.forget id)

def run (t : JobTable α) (events : List (Event α)) : JobTable α := events.foldl step t

@[simp] theorem run_nil (t : JobTable α) : t.run [] = t := rfl

@[simp] theorem run_cons (t : JobTable α) (e : Event α) (events : List (Event α)) :
    t.run (e :: events) = (t.step e).run events := rfl

theorem run_append (t : JobTable α) (before after : List (Event α)) :
    t.run (before ++ after) = (t.run before).run after := List.foldl_append ..

def Event.submitted? : Event α → Option JobId
  | .submit id .. => some id
  | _ => none

/-- The ids under which jobs are submitted, in order. -/
def submitted (events : List (Event α)) : List JobId := events.filterMap Event.submitted?

/-- Sets the entry of a job. -/
def put (t : JobTable α) (id : JobId) (e : JobEntry α) : JobTable α :=
  { t with jobs := t.jobs.insert id.text e }

@[simp] theorem finished_put (t : JobTable α) (id : JobId) (e : JobEntry α) :
    (t.put id e).finished = t.finished := rfl

@[simp] theorem retain_put (t : JobTable α) (id : JobId) (e : JobEntry α) :
    (t.put id e).retain = t.retain := rfl

/-- Erases a finished job. -/
def remove (t : JobTable α) (id : JobId) : JobTable α :=
  { t with jobs := t.jobs.erase id.text, finished := t.finished.filter (· ≠ id) }

section Lookup

variable (t : JobTable α) (id k : JobId)

theorem text_inj {id k : JobId} : k.text = id.text ↔ k = id := by
  cases id
  cases k
  simp

@[simp] theorem find?_empty (retain : Nat) : (empty retain : JobTable α).find? k = none := rfl

theorem find?_put (e : JobEntry α) :
    (t.put id e).find? k = if k = id then some e else t.find? k := by
  simp only [put, find?, Dict.get?_insert, text_inj]

theorem find?_remove : (t.remove id).find? k = if k = id then none else t.find? k := by
  simp only [remove, find?, Dict.get?_erase, text_inj]

theorem finished_finish :
    (t.finish id).finished =
      (t.finished ++ [id]).drop ((t.finished ++ [id]).length - t.retain) := rfl

theorem length_finished_finish : (t.finish id).finished.length ≤ t.retain := by
  rw [finished_finish, List.length_drop]
  omega

/-- The oldest ended jobs are the ones that leave. -/
theorem find?_finish :
    (t.finish id).find? k =
      if k ∈ (t.finished ++ [id]).take ((t.finished ++ [id]).length - t.retain) then none
      else t.find? k := by
  have herase (gone : List JobId) (jobs : Dict (JobEntry α)) :
      (gone.foldl (fun jobs old => jobs.erase old.text) jobs).get? k.text =
        if k ∈ gone then none else jobs.get? k.text := by
    induction gone generalizing jobs with
    | nil => simp
    | cons old gone ih =>
      rw [List.foldl_cons, ih, Dict.get?_erase]
      by_cases h : k = old
      · simp [h]
      · simp [h, text_inj]
  exact herase _ t.jobs

end Lookup

/-- What an event does to a table, and the id under which it enters a job if it does. -/
inductive Change (t : JobTable α) : Option JobId → JobTable α → Prop
  | refused : Change t none t
  | entered (id : JobId) (job : Job) (hstatus : job.status = .queued) :
      Change t (some id) (t.put id ⟨job, none, job.status⟩)
  | moved (id : JobId) (old : JobEntry α) (job : Job) (hold : t.find? id = some old)
      (hmove : old.job.status.canMoveTo job.status) (hpending : job.status.isTerminal = false) :
      Change t none (t.put id ⟨job, old.result, job.status⟩)
  | ended (id : JobId) (old : JobEntry α) (job : Job) (fresh : Option α)
      (hold : t.find? id = some old) (hmove : old.job.status.canMoveTo job.status)
      (hterminal : job.status.isTerminal) (hfresh : fresh.isSome ↔ job.status = .completed) :
      Change t none ((t.put id ⟨job, fresh.or old.result, job.status⟩).finish id)
  | forgotten (id : JobId) (old : JobEntry α) (hold : t.find? id = some old)
      (hterminal : old.job.status.isTerminal) : Change t none (t.remove id)

/-- A step of a job, in a table that has it. -/
theorem moveTo?_eq_some {t t' : JobTable α} {id : JobId} {status : JobStatus} {fresh : Option α}
    {now : Timestamp} (h : t.moveTo? id status fresh now = some t') :
    ∃ old job, t.find? id = some old ∧ old.job.status.canMoveTo status ∧ job.status = status ∧
      t' = if status.isTerminal then (t.put id ⟨job, fresh.or old.result, status⟩).finish id
        else t.put id ⟨job, fresh.or old.result, status⟩ := by
  obtain ⟨old, hold, h⟩ := Option.bind_eq_some_iff.1 h
  obtain ⟨job, hjob, h⟩ := Option.bind_eq_some_iff.1 h
  obtain ⟨hmove, hstatus⟩ := Job.moveTo?_eq_some hjob
  cases h
  exact ⟨old, job, hold, hmove, hstatus, rfl⟩

theorem exists_moveTo?_eq_some {t : JobTable α} {id : JobId} {status : JobStatus} {old : JobEntry α}
    (hold : t.find? id = some old) (hmove : old.job.status.canMoveTo status) (fresh : Option α)
    (now : Timestamp) : ∃ t', t.moveTo? id status fresh now = some t' := by
  simp [moveTo?, hold, Job.moveTo?, hmove]

/-- After a step of a job an entry is as before, or it is the one of that job, with its new
status. -/
theorem find?_of_moveTo? {t t' : JobTable α} {id k : JobId} {status : JobStatus} {fresh : Option α}
    {now : Timestamp} {e : JobEntry α} (h : t.moveTo? id status fresh now = some t')
    (he : t'.find? k = some e) :
    k ≠ id ∧ t.find? k = some e ∨ k = id ∧ ∃ old, t.find? id = some old ∧
      old.job.status.canMoveTo status ∧ e.job.status = status ∧ e.result = fresh.or old.result := by
  obtain ⟨old, job, hold, hmove, hstatus, rfl⟩ := moveTo?_eq_some h
  have hput : (t.put id ⟨job, fresh.or old.result, status⟩).find? k = some e := by
    split at he
    · rw [find?_finish] at he
      split at he
      · cases he
      · exact he
    · exact he
  rw [find?_put] at hput
  split at hput
  next heq =>
    cases hput
    exact .inr ⟨heq, old, hold, hmove, hstatus, rfl⟩
  next hne => exact .inl ⟨hne, hput⟩

theorem status_of_moveTo? {t t' : JobTable α} {id : JobId} {status : JobStatus} {fresh : Option α}
    {now : Timestamp} {e : JobEntry α} (h : t.moveTo? id status fresh now = some t')
    (he : t'.find? id = some e) : e.job.status = status := by
  obtain ⟨hne, -⟩ | ⟨-, -, -, -, hstatus, -⟩ := find?_of_moveTo? h he
  · exact absurd rfl hne
  · exact hstatus

/-- Cancelling is a step of the job's life like the others. -/
theorem cancel_eq_ok {t t' : JobTable α} {id : JobId} {now : Timestamp} :
    t.cancel id now = .ok t' ↔ t.moveTo? id .cancelled none now = some t' := by
  unfold cancel moveTo? entry
  cases t.find? id with
  | none => simp
  | some old =>
    cases hjob : old.job.moveTo? .cancelled now with
    | none => simp [hjob, throw_eq]
    | some job => simp [hjob, JobStatus.isTerminal, pure_eq]

theorem forget_eq_ok {t t' : JobTable α} {id : JobId} :
    t.forget id = .ok t' ↔
      (∃ old, t.find? id = some old ∧ old.job.status.isTerminal) ∧ t' = t.remove id := by
  unfold forget entry
  cases t.find? id with
  | none => simp
  | some old =>
    rw [ok_bind]
    split
    next hterminal =>
      refine ⟨fun h => ?_, fun h => h.2 ▸ rfl⟩
      cases h
      exact ⟨⟨old, rfl, hterminal⟩, rfl⟩
    next hpending => simp [hpending, throw_eq]

/-- A step that is taken, with a fresh result exactly if it completes the job. -/
theorem change_of_moveTo? {t t' : JobTable α} {id : JobId} {status : JobStatus} {fresh : Option α}
    {now : Timestamp} (hfresh : fresh.isSome ↔ status = .completed)
    (h : t.moveTo? id status fresh now = some t') : Change t none t' := by
  obtain ⟨old, job, hold, hmove, hstatus, rfl⟩ := moveTo?_eq_some h
  subst hstatus
  split
  next hterminal => exact .ended id old job fresh hold hmove hterminal hfresh
  next hterminal =>
    have hnone : fresh = none := by
      cases fresh with
      | none => rfl
      | some r => simp [hfresh.1 rfl, JobStatus.isTerminal] at hterminal
    subst hnone
    exact .moved id old job hold hmove (by simpa using hterminal)

theorem change_getD {t : JobTable α} {t' : Option (JobTable α)}
    (h : ∀ u, t' = some u → Change t none u) : Change t none (t'.getD t) := by
  cases t' with
  | none => exact .refused
  | some u => exact h u rfl

theorem change_after {t : JobTable α} {call : Except BackendError (JobTable α)}
    (h : ∀ u, call = .ok u → Change t none u) : Change t none (t.after call) := by
  cases call with
  | error e => exact .refused
  | ok u => exact h u rfl

theorem change_step (t : JobTable α) (event : Event α) :
    Change t event.submitted? (t.step event) := by
  cases event with
  | submit id numCircuits backend now => exact .entered id _ rfl
  | start id now => exact change_getD fun u hu => change_of_moveTo? (by simp) hu
  | report id outcome now =>
    refine change_getD fun u hu => change_of_moveTo? ?_ hu
    cases outcome <;> simp [WorkerEnd.result?, WorkerEnd.status]
  | cancel id now => exact change_after fun u hu => change_of_moveTo? (by simp) (cancel_eq_ok.1 hu)
  | forget id =>
    refine change_after fun u hu => ?_
    obtain ⟨⟨old, hold, hterminal⟩, rfl⟩ := forget_eq_ok.1 hu
    exact .forgotten id old hold hterminal

end JobTable

end QuantumSim
