/-!
Jobs and their life: queued, then running, then completed or failed; or cancelled while queued. A
status that ends a job is never left.
-/
namespace QuantumSim

structure JobId where
  text : String
  deriving Repr, DecidableEq, Inhabited

inductive JobStatus where
  | queued
  | running
  | completed
  | failed (reason : String)
  | cancelled
  deriving Repr, DecidableEq, Inhabited

namespace JobStatus

def isTerminal : JobStatus → Bool
  | completed | failed _ | cancelled => true
  | queued | running => false

def isPending : JobStatus → Bool
  | queued | running => true
  | _ => false

def isSuccess : JobStatus → Bool
  | completed => true
  | _ => false

/-- The steps of a job's life. -/
def canMoveTo : JobStatus → JobStatus → Bool
  | queued, running => true
  | queued, cancelled => true
  | running, completed => true
  | running, failed _ => true
  | _, _ => false

def text : JobStatus → String
  | queued => "Queued"
  | running => "Running"
  | completed => "Completed"
  | failed reason => "Failed: " ++ reason
  | cancelled => "Cancelled"

end JobStatus

/-- Milliseconds on the caller's clock. -/
abbrev Timestamp := Nat

structure Job where
  id : JobId
  status : JobStatus
  numCircuits : Nat
  createdAt : Option Timestamp
  startedAt : Option Timestamp := none
  finishedAt : Option Timestamp := none
  backend : Option String := none
  deriving Repr, DecidableEq

namespace Job

/-- A queued job. -/
def create (id : JobId) (numCircuits : Nat) (now : Timestamp) : Job :=
  { id, status := .queued, numCircuits, createdAt := some now }

def withBackend (job : Job) (name : String) : Job := { job with backend := some name }

/-- Moves on to a status and stamps the time of the start or the end; none if the step is not one of
a job's life. -/
def moveTo? (job : Job) (status : JobStatus) (now : Timestamp) : Option Job :=
  if job.status.canMoveTo status then
    some { job with
      status
      startedAt := if status = .running then job.startedAt.or (some now) else job.startedAt
      finishedAt := if status.isTerminal then job.finishedAt.or (some now) else job.finishedAt }
  else none

end Job

end QuantumSim
