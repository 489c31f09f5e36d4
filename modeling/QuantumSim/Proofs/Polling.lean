import Mathlib
import QuantumSim.Backend.Scripted
import QuantumSim.Proofs.Waiting
import QuantumSim.Simulator

/-!
Two ways to wait for a job. The one written for every backend asks for the status again and again
and reads the answer off the first status that is not pending. The simulator waits to be told that
the job has ended and looks up its result. On a table that nobody else changes they agree.
-/
namespace QuantumSim

namespace Backend

variable {σ : Type} [Backend σ] {s : σ} {id : JobId} {k : ℕ}
  {outcome : Except BackendError (JobResult Float)}

/-- The state after a number of calls for the status of a job. -/
def asked (s : σ) (id : JobId) (calls : ℕ) : σ := (fun s => (status s id).2)^[calls] s

/-- The answer to a call for the status after a number of earlier ones. -/
def answerAt (s : σ) (id : JobId) (earlier : ℕ) : Except BackendError JobStatus :=
  (status (asked s id earlier) id).1

/-- An answer that finds the job queued or running. -/
def FindsPending (answer : Except BackendError JobStatus) : Prop :=
  ∃ status, answer = .ok status ∧ status.isPending = true

/-- What a client is to be told after a last answer about the status. -/
inductive Concludes (s : σ) (id : JobId) :
    Except BackendError JobStatus → Except BackendError (JobResult Float) → Prop
  | completed : Concludes s id (.ok .completed) (result s id)
  | failed (reason : String) : Concludes s id (.ok (.failed reason)) (.error (.jobFailed reason))
  | cancelled : Concludes s id (.ok .cancelled) (.error .jobCancelled)
  | refused (e : BackendError) : Concludes s id (.error e) (.error e)

theorem asked_succ (s : σ) (id : JobId) (k : ℕ) :
    asked s id (k + 1) = asked (status s id).2 id k :=
  Function.iterate_succ_apply _ _ _

theorem asked_succ' (s : σ) (id : JobId) (k : ℕ) :
    asked s id (k + 1) = (status (asked s id k) id).2 :=
  Function.iterate_succ_apply' _ _ _

/-- Answers that find the job pending are passed over. -/
theorem wait_add (h : ∀ i < k, FindsPending (answerAt s id i)) (polls : ℕ) :
    wait (k + polls) s id = wait polls (asked s id k) id := by
  induction k generalizing s with
  | zero => rw [Nat.zero_add]; rfl
  | succ k ih =>
    have hrest (i : ℕ) (hi : i < k) : FindsPending (answerAt (status s id).2 id i) := by
      have hlater := h (i + 1) (by omega)
      rwa [answerAt, asked_succ] at hlater
    obtain ⟨first, hfirst, hpending⟩ := h 0 (by omega)
    have hcall : status s id = (.ok first, (status s id).2) := Prod.ext hfirst rfl
    rw [Nat.add_right_comm, asked_succ, ← ih hrest, wait, hcall]
    cases first with
    | queued | running => rfl
    | completed | failed reason | cancelled => cases hpending

theorem wait_of_concludes (h : Concludes (status s id).2 id (status s id).1 outcome) (polls : ℕ) :
    wait (polls + 1) s id = (some outcome, (status s id).2) := by
  rw [wait]
  generalize status s id = call at h ⊢
  obtain ⟨answer, next⟩ := call
  cases h with
  | completed | failed reason | cancelled | refused e => rfl

/-- Every answer that does not find the job pending has an outcome. -/
theorem exists_concludes {answer : Except BackendError JobStatus} (s : σ) (id : JobId)
    (h : ¬ FindsPending answer) : ∃ outcome, Concludes s id answer outcome := by
  cases answer with
  | error e => exact ⟨_, .refused e⟩
  | ok status =>
    cases status with
    | queued | running => exact absurd ⟨_, rfl, rfl⟩ h
    | completed => exact ⟨_, .completed⟩
    | failed reason => exact ⟨_, .failed reason⟩
    | cancelled => exact ⟨_, .cancelled⟩

/-- Waiting stops at the first answer that is not pending, and with what that answer says. -/
theorem wait_eq (hpending : ∀ i < k, FindsPending (answerAt s id i))
    (hlast : Concludes (asked s id (k + 1)) id (answerAt s id k) outcome) (polls : ℕ) :
    wait polls s id =
      if k < polls then (some outcome, asked s id (k + 1)) else (none, asked s id polls) := by
  split
  next hk =>
    obtain ⟨rest, rfl⟩ := Nat.exists_eq_add_of_lt hk
    rw [asked_succ'] at hlast ⊢
    rw [Nat.add_assoc, wait_add hpending, wait_of_concludes hlast]
  next hk =>
    have hfirst (i : ℕ) (hi : i < polls) := hpending i (by omega)
    exact wait_add hfirst 0

end Backend

namespace JobTable

variable {α : Type} {t : JobTable α} {id : JobId}

/-- Waiting for a job on a table that nobody else changes. None if the job is pending, since then
nobody ends it. -/
def waitAlone (t : JobTable α) (id : JobId) : Option (Except BackendError α) :=
  match t.subscribe id with
  | .error e => some (.error e)
  | .ok waiter => if waiter.isNotified t then some (waiter.answer t) else none

/-- What a client is to be told of a job that is not pending. -/
inductive Tells (t : JobTable α) (id : JobId) : Except BackendError α → Prop
  | completed {e : JobEntry α} {v : α} (h : t.find? id = some e)
      (hstatus : e.job.status = .completed) (hv : e.result = some v) : Tells t id (.ok v)
  | failed {e : JobEntry α} {reason : String} (h : t.find? id = some e)
      (hstatus : e.job.status = .failed reason) : Tells t id (.error (.jobFailed reason))
  | cancelled {e : JobEntry α} (h : t.find? id = some e)
      (hstatus : e.job.status = .cancelled) : Tells t id (.error .jobCancelled)
  | gone (h : t.find? id = none) : Tells t id (.error (.jobNotFound id))

theorem waitAlone_of_none (h : t.find? id = none) :
    t.waitAlone id = some (.error (.jobNotFound id)) := by
  unfold waitAlone subscribe entry
  rw [h]
  rfl

theorem waitAlone_of_some (hsent : t.Announced) {e : JobEntry α} (h : t.find? id = some e) :
    t.waitAlone id = if e.job.status.isTerminal then some (t.result id) else none := by
  unfold waitAlone
  rw [subscribe_eq_ok.2 ⟨⟨e, h⟩, rfl⟩]
  simp only [isNotified_of_some hsent h, Waiter.answer]

/-- On a sound table every job that is not pending has something to tell. -/
theorem Sound.exists_tells (h : t.Sound) (hsent : t.Announced) (hended : t.isPending id = false) :
    ∃ answer, t.Tells id answer ∧ t.waitAlone id = some answer := by
  cases hfind : t.find? id with
  | none => exact ⟨_, .gone hfind, waitAlone_of_none hfind⟩
  | some e =>
    rw [waitAlone_of_some hsent hfind]
    cases hstatus : e.job.status with
    | queued | running => simp [isPending, hfind, hstatus, JobStatus.isPending] at hended
    | completed =>
      obtain ⟨v, hv⟩ := Option.isSome_iff_exists.1 ((h.tracks.result_iff id e hfind).2 hstatus)
      have hresult : t.result id = .ok v := result_eq_ok.2 ⟨e, hfind, hstatus, hv⟩
      exact ⟨_, .completed hfind hstatus hv, by rw [hresult]; rfl⟩
    | failed reason =>
      exact ⟨_, .failed hfind hstatus, by rw [result_of_failed hfind hstatus]; rfl⟩
    | cancelled =>
      exact ⟨_, .cancelled hfind hstatus, by rw [result_of_cancelled hfind hstatus]; rfl⟩

end JobTable

namespace Simulator

variable {s : Simulator} {id : JobId}

theorem asked_eq (s : Simulator) (id : JobId) (calls : ℕ) : Backend.asked s id calls = s := by
  induction calls with
  | zero => rfl
  | succ calls ih => rw [Backend.asked_succ', ih]; rfl

theorem answerAt_eq (s : Simulator) (id : JobId) (earlier : ℕ) :
    Backend.answerAt s id earlier = s.table.status id := by
  rw [Backend.answerAt, asked_eq]
  rfl

/-- What is read off the status of an ended job is what its result says. -/
theorem concludes_of_isTerminal {e : JobEntry (JobResult Float)} (h : s.table.find? id = some e)
    (hterminal : e.job.status.isTerminal = true) :
    Backend.Concludes s id (.ok e.job.status) (s.table.result id) := by
  cases hstatus : e.job.status with
  | queued | running => simp [hstatus, JobStatus.isTerminal] at hterminal
  | completed => exact .completed
  | failed reason =>
    rw [JobTable.result_of_failed h hstatus]
    exact .failed reason
  | cancelled =>
    rw [JobTable.result_of_cancelled h hstatus]
    exact .cancelled

/-- Asking a simulator that nobody else changes comes to what waiting on its table comes to. -/
theorem backendWait_eq (hsent : s.table.Announced) (id : JobId) (polls : ℕ) :
    Backend.wait (polls + 1) s id = (s.table.waitAlone id, s) := by
  have hlast {answer : Except BackendError (JobResult Float)}
      (h : Backend.Concludes s id (s.table.status id) answer) :
      Backend.wait (polls + 1) s id = (some answer, s) := Backend.wait_of_concludes h polls
  cases hfind : s.table.find? id with
  | none =>
    rw [JobTable.waitAlone_of_none hfind]
    apply hlast
    rw [JobTable.status_of_none hfind]
    exact .refused _
  | some e =>
    have hstatus := JobTable.status_of_some hfind
    rw [JobTable.waitAlone_of_some hsent hfind]
    split
    next hterminal =>
      apply hlast
      rw [hstatus]
      exact concludes_of_isTerminal hfind hterminal
    next hterminal =>
      have hpending (i : ℕ) (_ : i < polls + 1) :
          Backend.FindsPending (Backend.answerAt s id i) := by
        refine ⟨e.job.status, by rw [answerAt_eq, hstatus], ?_⟩
        simpa [JobStatus.isPending_eq] using hterminal
      rw [← Nat.add_zero (polls + 1), Backend.wait_add hpending, asked_eq]
      rfl

theorem drain_eq_self (h : s.waiting = []) (env : Surroundings) : s.drain env = s := by
  unfold drain
  rw [h, List.foldl_nil, ← h]

/-- The simulator's own wait, when no worker is left to run. -/
theorem wait_of_waitAlone (hidle : s.waiting = [])
    {answer : Except BackendError (JobResult Float)} (h : s.table.waitAlone id = some answer)
    (env : Surroundings) : s.wait env id = (answer, s) := by
  unfold JobTable.waitAlone at h
  unfold wait
  rw [drain_eq_self hidle]
  cases hsubscribe : s.table.subscribe id with
  | error e =>
    rw [hsubscribe] at h
    cases h
    rfl
  | ok waiter =>
    simp only [hsubscribe, Option.ite_none_right_eq_some, Option.some.injEq] at h
    obtain ⟨-, rfl⟩ := h
    rfl

end Simulator

/-- The two ways to wait answer alike. Asking again and again passes over all pending answers of a
backend, stops at the first other one and reads its answer off that. On every table that a
simulator can have, and for every job that is not pending there, it gives the answer of waiting on
the table, which is the one of the simulator's own wait when no worker is left to run. -/
theorem waits_agree :
    (∀ (σ : Type) [Backend σ] (s : σ) (id : JobId) (k : ℕ),
      (∀ i < k, Backend.FindsPending (Backend.answerAt s id i)) →
      ¬ Backend.FindsPending (Backend.answerAt s id k) → ∃ outcome,
        Backend.Concludes (Backend.asked s id (k + 1)) id (Backend.answerAt s id k) outcome ∧
        ∀ polls, Backend.wait polls s id =
          if k < polls then (some outcome, Backend.asked s id (k + 1))
          else (none, Backend.asked s id polls)) ∧
    ∀ (s : Simulator) (retain : ℕ) (events : List (JobTable.Event (JobResult Float))),
      (JobTable.submitted events).Nodup → s.table = (JobTable.empty retain).run events →
      ∀ id, s.table.isPending id = false → ∃ answer, s.table.Tells id answer ∧
        (∀ polls, Backend.wait (polls + 1) s id = (some answer, s)) ∧
        s.table.waitAlone id = some answer ∧
        (s.waiting = [] → ∀ env, s.wait env id = (answer, s)) := by
  constructor
  · intro σ _ s id k hpending hlast
    obtain ⟨outcome, houtcome⟩ := Backend.exists_concludes (Backend.asked s id (k + 1)) id hlast
    exact ⟨outcome, houtcome, Backend.wait_eq hpending houtcome⟩
  · intro s retain events hfresh htable id hended
    have hsound : s.table.Sound := by
      rw [htable]
      exact (JobTable.sound_empty retain).run (JobTable.fresh_empty retain hfresh)
    have hsent : s.table.Announced := by
      rw [htable]
      exact (JobTable.announced_empty retain).run events
    obtain ⟨answer, htells, halone⟩ := hsound.exists_tells hsent hended
    refine ⟨answer, htells, fun polls => ?_, halone, fun hidle env => ?_⟩
    · rw [Simulator.backendWait_eq hsent, halone]
    · exact Simulator.wait_of_waitAlone hidle halone env

/-- A job that is found running once and then has failed; and, with room for one ended job, one
that has failed after another one has left the table. -/
theorem waits_agree_failed :
    let scripted : ScriptedBackend :=
      { ScriptedBackend.ofScript [.running, .failed "norm drift"] with
        jobs := [{ id := ⟨"scripted-0"⟩, numCircuits := 1 }] }
    let events : List (JobTable.Event (JobResult Float)) :=
      [.submit ⟨"a"⟩ 1 "small" 0, .submit ⟨"b"⟩ 1 "small" 1, .start ⟨"a"⟩ 2,
        .report ⟨"a"⟩ (.completed ⟨⟨"a"⟩, []⟩) 3, .start ⟨"b"⟩ 4,
        .report ⟨"b"⟩ (.failed "norm drift") 5]
    let s : Simulator :=
      { name := "small", config := {}, debugAssertions := true,
        table := (JobTable.empty 1).run events }
    (Backend.wait 2 scripted ⟨"scripted-0"⟩).1 = some (.error (.jobFailed "norm drift")) ∧
      (JobTable.submitted events).Nodup ∧
      Backend.wait 1 s ⟨"a"⟩ = (some (.error (.jobNotFound ⟨"a"⟩)), s) ∧
      Backend.wait 1 s ⟨"b"⟩ = (some (.error (.jobFailed "norm drift")), s) ∧
      ∀ env, s.wait env ⟨"b"⟩ = (.error (.jobFailed "norm drift"), s) := by
  intro scripted events s
  obtain ⟨hpolls, htable⟩ := waits_agree
  have hfresh : (JobTable.submitted events).Nodup := by decide
  have hlast : Backend.answerAt scripted ⟨"scripted-0"⟩ 1 = .ok (.failed "norm drift") := rfl
  have hscript : (Backend.wait 2 scripted ⟨"scripted-0"⟩).1 =
      some (.error (.jobFailed "norm drift")) := by
    obtain ⟨outcome, houtcome, hwait⟩ := hpolls ScriptedBackend scripted ⟨"scripted-0"⟩ 1
      (fun i hi => ⟨.running, by rw [Nat.lt_one_iff.1 hi]; rfl, rfl⟩)
      (by rintro ⟨status, hstatus, hpending⟩; cases hlast.symm.trans hstatus; cases hpending)
    rw [hlast] at houtcome
    cases houtcome
    rw [hwait 2]
    rfl
  obtain ⟨gone, -, hgone, halone, -⟩ := htable s 1 events hfresh rfl ⟨"a"⟩ rfl
  obtain ⟨failed, -, hfailed, halone', hwait⟩ := htable s 1 events hfresh rfl ⟨"b"⟩ rfl
  obtain rfl : .error (.jobNotFound ⟨"a"⟩) = gone := Option.some.inj halone
  obtain rfl : .error (.jobFailed "norm drift") = failed := Option.some.inj halone'
  exact ⟨hscript, hfresh, hgone 0, hfailed 0, hwait rfl⟩

end QuantumSim
