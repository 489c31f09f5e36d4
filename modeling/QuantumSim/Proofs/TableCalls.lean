import Mathlib
import QuantumSim.Proofs.Acceptance
import QuantumSim.Proofs.TableFrame

/-!
Calls that overwrite the job table. A call works on the table in place, one field after the other,
and what it has written stays when it gives up. Nevertheless a refused call leaves everything as it
was, and one that is accepted touches no job but its own, apart from the oldest ended jobs, which
leave when there are too many of them.
-/
namespace QuantumSim

/-- Programs that work in place. A refusal leaves what was written before it. -/
abbrev Stepwise (σ β : Type) := ExceptT BackendError (StateM σ) β

namespace Stepwise

variable {α : Type}

section Programs

/-- Moves a job on and stamps the time; false if the step is not one of a job's life. -/
def moveJob (status : JobStatus) (now : Timestamp) : StateM Job Bool := do
  if (← get).status.canMoveTo status = false then return false
  modify fun job => { job with status }
  if status = .running ∧ (← get).startedAt = none then
    modify fun job => { job with startedAt := some now }
  if status.isTerminal ∧ (← get).finishedAt = none then
    modify fun job => { job with finishedAt := some now }
  return true

/-- Moves the job of an entry on, stores its result, if there is one, and tells the waiters. -/
def moveEntry (status : JobStatus) (result : Option α) (now : Timestamp) :
    StateM (JobEntry α) Bool := do
  let (moved, job) := (moveJob status now).run (← get).job
  modify fun e => { e with job }
  if moved = false then return false
  if result.isSome then modify fun e => { e with result }
  modify fun e => { e with sent := status }
  return true

/-- Runs a program on the entry of a job; none if the table does not have the job. -/
def onEntry {β : Type} (id : JobId) (body : StateM (JobEntry α) β) :
    StateM (JobTable α) (Option β) := do
  match (← get).find? id with
  | none => return none
  | some e =>
    let (b, e) := body.run e
    modify fun t => t.put id e
    return some b

/-- Drops the oldest ended job as long as there are more of them than are retained. -/
def evict (t : JobTable α) : JobTable α :=
  match t with
  | ⟨jobs, [], retain⟩ => ⟨jobs, [], retain⟩
  | ⟨jobs, old :: finished, retain⟩ =>
    if retain < finished.length + 1 then evict ⟨jobs.erase old.text, finished, retain⟩
    else ⟨jobs, old :: finished, retain⟩
termination_by t.finished.length

/-- Records that a job has ended. -/
def finish (id : JobId) : StateM (JobTable α) Unit := do
  modify fun t => { t with finished := t.finished ++ [id] }
  modify evict

/-- Moves a job on; false if the job is gone or the step is not one of its life. -/
def transition (id : JobId) (status : JobStatus) (result : Option α) (now : Timestamp) :
    StateM (JobTable α) Bool := do
  match ← onEntry id (moveEntry status result now) with
  | some true =>
    if status.isTerminal then finish id
    return true
  | _ => return false

/-- Cancels the job of an entry; the status that forbids it, if one does. -/
def cancelEntry (now : Timestamp) : StateM (JobEntry α) (Option JobStatus) := do
  if ← moveEntry .cancelled none now then return none
  return some (← get).job.status

def cancel (id : JobId) (now : Timestamp) : Stepwise (JobTable α) Unit := do
  let entry : StateM (JobTable α) (Option (Option JobStatus)) := onEntry id (cancelEntry now)
  match ← entry with
  | none => throw (.jobNotFound id)
  | some (some status) => throw (.notCancellable id status)
  | some none => (finish id : StateM (JobTable α) Unit)

def forget (id : JobId) : Stepwise (JobTable α) Unit := do
  match (← get).find? id with
  | none => throw (.jobNotFound id)
  | some e =>
    if e.job.status.isTerminal then
      modify fun t => { t with jobs := t.jobs.erase id.text }
      modify fun t => { t with finished := t.finished.filter (· ≠ id) }
    else throw (.jobPending id e.job.status)

/-- Checks the requests of a batch, the first one at position `index`. -/
def checkBatch (index : ℕ) (batch : List (ExecutionRequest Float)) : Stepwise Simulator PUnit :=
  forM (batch.zipIdx index) fun e => do liftExcept ((← get).checkRequest e.2 e.1)

/-- Checks a batch and then enters a job with a worker for it. -/
def submit (id : JobId) (now : Timestamp) (batch : List (ExecutionRequest Float)) :
    Stepwise Simulator JobId := do
  if batch.isEmpty then throw (.invalidRequest "empty batch")
  checkBatch 0 batch
  let job := (Job.create id batch.length now).withBackend (← get).name
  modify fun s => { s with table := s.table.submit job }
  modify fun s => { s with waiting := s.waiting ++ [(id, batch)] }
  return id

end Programs

section Steps

variable {σ β γ : Type}

theorem run_bind (x : Stepwise σ β) (f : β → Stepwise σ γ) (s : σ) :
    (x >>= f).run.run s =
      match x.run.run s with
      | (.ok b, s') => (f b).run.run s'
      | (.error cause, s') => (.error cause, s') := by
  rw [ExceptT.run_bind, StateT.run_bind]
  rcases x.run.run s with ⟨_ | _, s'⟩ <;> rfl

theorem run_get (s : σ) : (get : Stepwise σ σ).run.run s = (.ok s, s) := rfl

theorem run_monadLift (x : StateM σ β) (s : σ) :
    (monadLift x : Stepwise σ β).run.run s = (.ok (x.run s).1, (x.run s).2) := rfl

theorem run_liftExcept (x : Except BackendError β) (s : σ) :
    (liftExcept x : Stepwise σ β).run.run s = (x, s) := by
  cases x <;> rfl

end Steps

section Runs

variable {t : JobTable α} {id : JobId} {now : Timestamp}

theorem run_moveJob (status : JobStatus) (now : Timestamp) (job : Job) :
    (moveJob status now).run job =
      match job.moveTo? status now with
      | some job' => (true, job')
      | none => (false, job) := by
  obtain ⟨id, old, numCircuits, createdAt, startedAt, finishedAt, backend⟩ := job
  cases old <;> cases status <;> cases startedAt <;> cases finishedAt <;> rfl

theorem run_moveEntry (status : JobStatus) (result : Option α) (now : Timestamp)
    (e : JobEntry α) :
    (moveEntry status result now).run e =
      match e.job.moveTo? status now with
      | some job => (true, ⟨job, result.or e.result, status⟩)
      | none => (false, e) := by
  have hjob := run_moveJob status now e.job
  cases hmove : e.job.moveTo? status now with
  | none =>
    rw [hmove] at hjob
    simp [moveEntry, hjob]
    rfl
  | some job =>
    rw [hmove] at hjob
    cases result <;> simp [moveEntry, hjob] <;> rfl

theorem run_cancelEntry (now : Timestamp) (e : JobEntry α) :
    (cancelEntry now).run e =
      match e.job.moveTo? .cancelled now with
      | some job => (none, { e with job, sent := .cancelled })
      | none => (some e.job.status, e) := by
  have hentry := run_moveEntry .cancelled (none : Option α) now e
  rw [cancelEntry, StateT.run_bind, hentry]
  cases e.job.moveTo? .cancelled now <;> rfl

theorem run_onEntry_none {β : Type} (h : t.find? id = none) (body : StateM (JobEntry α) β) :
    (onEntry id body).run t = (none, t) := by
  simp [onEntry, h]
  rfl

theorem run_onEntry_some {β : Type} {e : JobEntry α} (h : t.find? id = some e)
    (body : StateM (JobEntry α) β) :
    (onEntry id body).run t = (some (body.run e).1, t.put id (body.run e).2) := by
  simp [onEntry, h]
  rfl

/-- Writing an entry back as it was changes nothing. -/
theorem put_of_find? {e : JobEntry α} (h : t.find? id = some e) : t.put id e = t := by
  rw [JobTable.put, Dict.insert_of_get? h]

theorem evict_eq (t : JobTable α) : evict t =
    { t with
      jobs := (t.finished.take (t.finished.length - t.retain)).foldl
        (fun jobs old => jobs.erase old.text) t.jobs
      finished := t.finished.drop (t.finished.length - t.retain) } := by
  induction t using evict.induct with
  | case1 jobs retain => simp [evict]
  | case2 jobs old finished retain hmore ih =>
    have hlength : finished.length + 1 - retain = (finished.length - retain) + 1 := by omega
    rw [evict, if_pos hmore, ih, List.length_cons, hlength]
    rfl
  | case3 jobs old finished retain hfew =>
    have hlength : finished.length + 1 - retain = 0 := by omega
    rw [evict, if_neg hfew, List.length_cons, hlength]
    rfl

theorem run_finish (id : JobId) (t : JobTable α) :
    (finish id).run t = ((), t.finish id) :=
  congrArg (Prod.mk ()) (evict_eq _)

/-- A transition that is taken does what it does to the table as a whole. One that is not taken has
written nothing. -/
theorem run_transition (id : JobId) (status : JobStatus) (result : Option α) (now : Timestamp)
    (t : JobTable α) :
    (transition id status result now).run t =
      match t.moveTo? id status result now with
      | some t' => (true, t')
      | none => (false, t) := by
  have hrun (u : JobTable α) (answer : Option Bool)
      (hentry : (onEntry id (moveEntry status result now)).run t = (answer, u)) :
      (transition id status result now).run t =
        if answer = some true then (true, if status.isTerminal then u.finish id else u)
        else (false, u) := by
    rw [transition, StateT.run_bind, hentry]
    obtain - | - | - := answer
    · rfl
    · rfl
    · cases hterminal : status.isTerminal with
      | false => rfl
      | true => exact congrArg (Prod.mk true ∘ Prod.snd) (run_finish id u)
  unfold JobTable.moveTo?
  cases hfind : t.find? id with
  | none => rw [hrun _ _ (run_onEntry_none hfind _)]; rfl
  | some e =>
    rw [hrun _ _ (run_onEntry_some hfind _), run_moveEntry]
    cases hmove : e.job.moveTo? status now with
    | none => simp [hmove, put_of_find? hfind]
    | some job => simp [hmove, JobTable.put]

theorem run_cancel (id : JobId) (now : Timestamp) (t : JobTable α) :
    (cancel id now).run.run t =
      match t.cancel id now with
      | .ok t' => (.ok (), t')
      | .error cause => (.error cause, t) := by
  rw [cancel, run_bind, run_monadLift]
  unfold JobTable.cancel JobTable.entry
  cases hfind : t.find? id with
  | none => rw [run_onEntry_none hfind]; rfl
  | some e =>
    rw [run_onEntry_some hfind, run_cancelEntry]
    cases hmove : e.job.moveTo? .cancelled now with
    | none =>
      rw [ok_bind, hmove, put_of_find? hfind]
      rfl
    | some job =>
      rw [ok_bind, hmove]
      change (monadLift (finish id) : Stepwise (JobTable α) Unit).run.run _ = _
      rw [run_monadLift, run_finish]
      rfl

theorem run_forget (id : JobId) (t : JobTable α) :
    (forget id).run.run t =
      match t.forget id with
      | .ok t' => (.ok (), t')
      | .error cause => (.error cause, t) := by
  rw [forget, run_bind, run_get]
  unfold JobTable.forget JobTable.entry
  dsimp only
  cases hfind : t.find? id with
  | none => rfl
  | some e =>
    rw [ok_bind]
    dsimp only
    by_cases hterminal : e.job.status.isTerminal = true
    · rw [if_pos hterminal, if_pos hterminal]
      rfl
    · rw [if_neg hterminal, if_neg hterminal]
      rfl

theorem run_checkBatch (index : ℕ) (batch : List (ExecutionRequest Float)) (s : Simulator) :
    (checkBatch index batch).run.run s = (s.checkBatch index batch, s) := by
  induction batch generalizing index with
  | nil => rfl
  | cons r batch ih =>
    rw [checkBatch, List.zipIdx_cons, List.forM_cons, run_bind, run_bind, run_get]
    dsimp only
    rw [run_liftExcept, Simulator.checkBatch]
    cases s.checkRequest index r with
    | error cause => rfl
    | ok u => exact ih (index + 1)

theorem run_submit (id : JobId) (now : Timestamp) (batch : List (ExecutionRequest Float))
    (s : Simulator) :
    (submit id now batch).run.run s =
      match s.submit id now batch with
      | .ok accepted => (.ok accepted.1, accepted.2)
      | .error cause => (.error cause, s) := by
  unfold Simulator.submit submit
  by_cases hempty : batch.isEmpty = true
  · rw [if_pos hempty, if_pos hempty]
    rfl
  · rw [if_neg hempty, if_neg hempty, run_bind, run_checkBatch]
    cases s.checkBatch 0 batch with
    | error cause => rfl
    | ok u => rfl

end Runs

section Calls

/-- Runs a program on the job table of a simulator. -/
def onTable {β : Type} (x : Stepwise (JobTable (JobResult Float)) β) : Stepwise Simulator β :=
  ExceptT.mk do
    let (answer, table) := x.run.run (← get).table
    modify fun s => { s with table }
    return answer

/-- A call about a job. -/
inductive Call where
  | submit (id : JobId) (now : Timestamp) (batch : List (ExecutionRequest Float))
  | transition (id : JobId) (status : JobStatus) (result : Option (JobResult Float))
      (now : Timestamp)
  | cancel (id : JobId) (now : Timestamp)
  | forget (id : JobId)

namespace Call

def jobId : Call → JobId
  | submit id .. | transition id .. | cancel id _ | forget id => id

/-- The program of a call. Its answer is true if the call is accepted. -/
def program : Call → Stepwise Simulator Bool
  | submit id now batch => do
    let _ ← Stepwise.submit id now batch
    return true
  | transition id status result now =>
    onTable (monadLift (Stepwise.transition id status result now))
  | cancel id now => do
    onTable (Stepwise.cancel id now)
    return true
  | forget id => do
    onTable (Stepwise.forget id)
    return true

/-- The workers that a call makes. -/
def workers : Call → List (JobId × List (ExecutionRequest Float))
  | submit id _ batch => [(id, batch)]
  | _ => []

/-- The queue of ended jobs after a call, before it is cut to the number of jobs retained. -/
def queue (t : JobTable (JobResult Float)) : Call → List JobId
  | submit .. => t.finished
  | transition id status .. => t.queueAfter id status
  | cancel id _ => t.queueAfter id .cancelled
  | forget id => t.finished.filter (· ≠ id)

/-- What an accepted call makes of a simulator. -/
structure Accepted (c : Call) (s s' : Simulator) : Prop where
  settings : s'.name = s.name ∧ s'.config = s.config ∧ s'.debugAssertions = s.debugAssertions
  waiting : s'.waiting = s.waiting ++ c.workers
  table : s.table.TouchesOnly s'.table c.jobId (c.queue s.table)

theorem run_onTable {β : Type} (x : Stepwise (JobTable (JobResult Float)) β) (s : Simulator) :
    (onTable x).run.run s =
      ((x.run.run s.table).1, { s with table := (x.run.run s.table).2 }) := rfl

theorem accepted_or_refused (c : Call) {s : Simulator} (hsound : s.table.Sound) :
    (∃ answer, answer ≠ .ok true ∧ c.program.run.run s = (answer, s)) ∨
      ∃ s', c.program.run.run s = (.ok true, s') ∧ c.Accepted s s' := by
  cases c with
  | submit id now batch =>
    rw [program, run_bind, run_submit]
    cases hsubmit : s.submit id now batch with
    | error cause => exact .inl ⟨.error cause, nofun, rfl⟩
    | ok accepted =>
      obtain ⟨-, -, rfl⟩ := Simulator.submit_eq_ok_iff.1 hsubmit
      exact .inr ⟨_, rfl, ⟨rfl, rfl, rfl⟩, rfl, hsound.touchesOnly_put id _⟩
  | transition id status result now =>
    rw [program, run_onTable, run_monadLift, run_transition]
    cases hmove : s.table.moveTo? id status result now with
    | none => exact .inl ⟨.ok false, nofun, rfl⟩
    | some table =>
      have honly := hsound.touchesOnly_moveTo? hmove
      exact .inr ⟨_, rfl, ⟨rfl, rfl, rfl⟩, (List.append_nil _).symm, honly⟩
  | cancel id now =>
    rw [program, run_bind, run_onTable, run_cancel]
    cases hcancel : s.table.cancel id now with
    | error cause => exact .inl ⟨.error cause, nofun, rfl⟩
    | ok table =>
      have htouches := hsound.touchesOnly_moveTo? (JobTable.cancel_eq_ok.1 hcancel)
      exact .inr ⟨_, rfl, ⟨rfl, rfl, rfl⟩, (List.append_nil _).symm, htouches⟩
  | forget id =>
    rw [program, run_bind, run_onTable, run_forget]
    cases hforget : s.table.forget id with
    | error cause => exact .inl ⟨.error cause, nofun, rfl⟩
    | ok table =>
      obtain ⟨-, rfl⟩ := JobTable.forget_eq_ok.1 hforget
      exact .inr ⟨_, rfl, ⟨rfl, rfl, rfl⟩, (List.append_nil _).symm, hsound.touchesOnly_remove id⟩

/-- The first request of a batch that is refused decides the answer. -/
theorem checkBatch_append {s : Simulator} {before : List (ExecutionRequest Float)}
    (hbefore : ∀ q ∈ before, s.Takes q) {r : ExecutionRequest Float} {index : ℕ}
    {cause : BackendError} (hr : s.checkRequest (index + before.length) r = .error cause)
    (after : List (ExecutionRequest Float)) :
    s.checkBatch index (before ++ r :: after) = .error cause := by
  induction before generalizing index with
  | nil =>
    rw [List.nil_append, Simulator.checkBatch]
    exact bind_eq_error.2 (.inl hr)
  | cons q before ih =>
    obtain ⟨hfirst, hrest⟩ := List.forall_mem_cons.1 hbefore
    rw [List.cons_append, Simulator.checkBatch, (Simulator.checkRequest_eq_ok index).2 hfirst,
      ok_bind]
    refine ih hrest ?_
    rwa [Nat.add_assoc, Nat.add_comm 1]

/-- Whatever is called on a simulator with sound books, either the call is refused, with the
simulator exactly as it was, or it is accepted and touches no job but its own and the ended ones
that have to leave. In particular a batch with a request that is refused enters nothing, wherever
the request stands. -/
theorem framed (c : Call) {s : Simulator} (hsound : s.table.Sound) :
    ((∃ answer, answer ≠ .ok true ∧ c.program.run.run s = (answer, s)) ∨
      ∃ s', c.program.run.run s = (.ok true, s') ∧ c.Accepted s s') ∧
    ∀ id now before r after, c = submit id now (before ++ r :: after) →
      (∀ q ∈ before, s.Takes q) → ¬s.Takes r →
        ∃ cause, s.checkRequest before.length r = .error cause ∧
          c.program.run.run s = (.error cause, s) := by
  refine ⟨c.accepted_or_refused hsound, ?_⟩
  rintro id now before r after rfl hbefore hrefused
  cases hr : s.checkRequest before.length r with
  | ok u => exact absurd ((Simulator.checkRequest_eq_ok _).1 hr) hrefused
  | error cause =>
    rw [← Nat.zero_add before.length] at hr
    have hsubmit : s.submit id now (before ++ r :: after) = .error cause := by
      unfold Simulator.submit
      rw [if_neg (by simp), checkBatch_append hbefore hr]
      rfl
    refine ⟨cause, rfl, ?_⟩
    rw [program, run_bind, run_submit, hsubmit]

/-- With room for one ended job: the second job that ends takes the place of the first one, and the
queued job is not touched; nobody may forget it yet. -/
theorem framed_replacing :
    let s : Simulator := { Simulator.build "small" { maxRetainedJobs := 1 } true with
      table := (JobTable.empty 1).run [.submit ⟨"a"⟩ 1 "small" 0, .submit ⟨"b"⟩ 1 "small" 1,
        .submit ⟨"c"⟩ 1 "small" 2, .start ⟨"a"⟩ 3, .report ⟨"a"⟩ (.failed "no luck") 4,
        .start ⟨"b"⟩ 5] }
    s.table.Sound ∧
      (∃ s', (transition ⟨"b"⟩ .completed (some ⟨⟨"b"⟩, []⟩) 6).program.run.run s = (.ok true, s') ∧
        s'.table.find? ⟨"a"⟩ = none ∧ s'.table.find? ⟨"c"⟩ = s.table.find? ⟨"c"⟩ ∧
        s'.table.finished = [⟨"b"⟩]) ∧
      (forget ⟨"c"⟩).program.run.run s = (.error (.jobPending ⟨"c"⟩ .queued), s) := by
  intro s
  have hsound : s.table.Sound :=
    (JobTable.sound_empty 1).run (JobTable.fresh_empty 1 (by decide))
  refine ⟨hsound, ?_, ?_⟩
  · obtain ⟨⟨answer, hanswer, hrun⟩ | ⟨s', hrun, -, -, htable⟩, -⟩ :=
      framed (transition ⟨"b"⟩ .completed (some ⟨⟨"b"⟩, []⟩) 6) hsound
    · exact absurd (congrArg Prod.fst hrun).symm hanswer
    · have hleaving : s.table.leaving [⟨"a"⟩, ⟨"b"⟩] = [⟨"a"⟩] := rfl
      have hqueue : s.table.leaving [⟨"a"⟩, ⟨"b"⟩] ++ s'.table.finished = [⟨"a"⟩, ⟨"b"⟩] :=
        htable.queue_eq
      rw [hleaving] at hqueue
      refine ⟨s', hrun, (htable.left ⟨"a"⟩ ?_).1, htable.others ⟨"c"⟩ ?_ ?_, ?_⟩
      · exact List.mem_singleton.2 rfl
      · decide
      · exact (by decide : (⟨"c"⟩ : JobId) ∉ [⟨"a"⟩])
      · exact (List.cons.inj hqueue).2
  · obtain ⟨⟨answer, -, hrun⟩ | ⟨s', hrun, -⟩, -⟩ := framed (forget ⟨"c"⟩) hsound
    · exact hrun.trans (congrArg (·, s) (congrArg Prod.fst hrun).symm)
    · cases (congrArg Prod.fst hrun).symm

end Call

end Calls

end Stepwise
end QuantumSim
