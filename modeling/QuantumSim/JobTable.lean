import QuantumSim.Backend.Error
import QuantumSim.Dict

/-!
The table of live and recently finished jobs. Every operation is one step on the whole table.
Finished jobs wait in the order they ended, and the oldest leave together with their results once
more of them have piled up than are retained.
-/
namespace QuantumSim

/-- A job with its result once it has one, and the channel on which its waiters are told. -/
structure JobEntry (α : Type) where
  job : Job
  result : Option α := none
  /-- The status that was sent last. -/
  sent : JobStatus := .queued
  deriving Repr

structure JobTable (α : Type) where
  jobs : Dict (JobEntry α)
  /-- Finished jobs, the one that ended first in front. -/
  finished : List JobId
  retain : Nat

/-- How a worker ends that had a job to run. -/
inductive WorkerEnd (α : Type) where
  /-- No place among the running jobs could be had. -/
  | poolClosed
  | completed (result : α)
  | failed (reason : String)
  /-- The worker stopped in the middle. -/
  | aborted (reason : String)
  deriving Repr

namespace JobTable

variable {α : Type}

def empty (retain : Nat) : JobTable α := ⟨.empty, [], retain⟩

def find? (t : JobTable α) (id : JobId) : Option (JobEntry α) := t.jobs.get? id.text

/-- The entry of a job, or the refusal of a call about an unknown one. -/
def entry (t : JobTable α) (id : JobId) : Except BackendError (JobEntry α) :=
  match t.find? id with
  | some e => .ok e
  | none => .error (.jobNotFound id)

/-- The number of jobs held. -/
def held (t : JobTable α) : Nat := t.jobs.size

/-- The number of jobs that have not ended. -/
def pending (t : JobTable α) : Checked Nat :=
  if t.finished.length ≤ t.held then .ok (t.held - t.finished.length) else .error .overflow

/-- Enters a new job. -/
def submit (t : JobTable α) (job : Job) : JobTable α :=
  { t with jobs := t.jobs.insert job.id.text ⟨job, none, .queued⟩ }

/-- Records that a job has ended, and drops the oldest finished jobs beyond the number retained. -/
def finish (t : JobTable α) (id : JobId) : JobTable α :=
  let finished := t.finished ++ [id]
  let overflow := finished.length - t.retain
  { t with
    jobs := (finished.take overflow).foldl (fun jobs old => jobs.erase old.text) t.jobs
    finished := finished.drop overflow }

/-- Moves a job on, with its result if it has one now, and tells its waiters. None if the job is
gone or the step is not one of a job's life. -/
def moveTo? (t : JobTable α) (id : JobId) (status : JobStatus) (result : Option α)
    (now : Timestamp) : Option (JobTable α) := do
  let e ← t.find? id
  let job ← e.job.moveTo? status now
  let t := { t with jobs := t.jobs.insert id.text ⟨job, result.or e.result, status⟩ }
  return if status.isTerminal then t.finish id else t

/-- Begins to run a queued job. -/
def start? (t : JobTable α) (id : JobId) (now : Timestamp) : Option (JobTable α) :=
  t.moveTo? id .running none now

namespace WorkerEnd

def status : WorkerEnd α → JobStatus
  | .poolClosed => .failed "worker pool closed"
  | .completed _ => .completed
  | .failed reason => .failed reason
  | .aborted reason => .failed ("simulation worker aborted: " ++ reason)

def result? : WorkerEnd α → Option α
  | .completed r => some r
  | _ => none

end WorkerEnd

/-- Records how the worker of a job ended. A step that is refused changes nothing. -/
def report (t : JobTable α) (id : JobId) (outcome : WorkerEnd α) (now : Timestamp) : JobTable α :=
  (t.moveTo? id (WorkerEnd.status outcome) (WorkerEnd.result? outcome) now).getD t

/-- Takes a queued job out of the queue for good. -/
def cancel (t : JobTable α) (id : JobId) (now : Timestamp) : Except BackendError (JobTable α) := do
  let e ← t.entry id
  match e.job.moveTo? .cancelled now with
  | none => throw (.notCancellable id e.job.status)
  | some job =>
    let e := { e with job, sent := .cancelled }
    return { t with jobs := t.jobs.insert id.text e }.finish id

/-- Drops a finished job and its result. -/
def forget (t : JobTable α) (id : JobId) : Except BackendError (JobTable α) := do
  let e ← t.entry id
  if e.job.status.isTerminal then
    return { t with jobs := t.jobs.erase id.text, finished := t.finished.filter (· ≠ id) }
  else throw (.jobPending id e.job.status)

def status (t : JobTable α) (id : JobId) : Except BackendError JobStatus := do
  return (← t.entry id).job.status

/-- The result of a completed job, or why there is none. -/
def result (t : JobTable α) (id : JobId) : Except BackendError α := do
  let e ← t.entry id
  match e.job.status with
  | .completed =>
    match e.result with
    | some r => return r
    | none => throw (.backend ("job " ++ id.text ++ " has no stored result"))
  | .failed reason => throw (.jobFailed reason)
  | .cancelled => throw .jobCancelled
  | status => throw (.jobPending id status)

/-- A waiter that watches a job it found in the table. -/
structure Waiter where
  id : JobId
  deriving Repr, DecidableEq

/-- Begins to wait for a job. -/
def subscribe (t : JobTable α) (id : JobId) : Except BackendError Waiter := do
  let _ ← t.entry id
  return ⟨id⟩

/-- Whether the waiter has been told that its job ended: it looks at the status sent last. The
channel of a job that has left the table keeps the last status, which ended the job. -/
def Waiter.isNotified (w : Waiter) (t : JobTable α) : Bool :=
  match t.find? w.id with
  | some e => e.sent.isTerminal
  | none => true

/-- What a notified waiter answers: the result it finds when it looks. -/
def Waiter.answer (w : Waiter) (t : JobTable α) : Except BackendError α := t.result w.id

end JobTable

end QuantumSim
