import Mathlib
import QuantumSim.Proofs.JobHistory

/-!
Which ended jobs the table keeps. A job stays at least until it has ended and is there when it ends.
After that it leaves when a client forgets it, or when as many jobs have ended after it as the table
retains; so the ended jobs of the table are always those that ended last.
-/
namespace QuantumSim.JobTable

variable {α : Type} {t t' : JobTable α} {id : JobId} {e : Event α}

/-- A job that has just moved on is in the table, also if it has ended. -/
theorem Sound.status_moveTo? (h : t.Sound) (hretain : 0 < t.retain) {status : JobStatus}
    {fresh : Option α} {now : Timestamp} (hmove : t.moveTo? id status fresh now = some t') :
    t'.status id = .ok status := by
  obtain ⟨old, job, hold, hcan, rfl, rfl⟩ := moveTo?_eq_some hmove
  have hout : id ∉ t.finished := h.tracks.not_mem fun entry hentry => by
    cases hold.symm.trans hentry
    exact isTerminal_eq_false_of_canMoveTo hcan
  split
  · obtain ⟨gone, -, hstays, -, -, hfind⟩ :=
      h.exists_gone hretain hout ⟨job, fresh.or old.result, job.status⟩
    exact status_eq_ok.2 ⟨_, (hfind id).trans (by rw [if_neg hstays, if_pos rfl]), rfl⟩
  · exact status_eq_ok.2 ⟨_, (find?_put t id id _).trans (if_pos rfl), rfl⟩

/-- A job that has not ended is in the table after the next event, too. -/
theorem Sound.status_step (h : t.Sound) (hretain : 0 < t.retain) (hid : id ∉ e.submitted?)
    {s : JobStatus} (hs : t.status id = .ok s) (hpending : s.isPending = true) :
    ∃ s', (t.step e).status id = .ok s' ∧ (s' = s ∨ s.canMoveTo s' = true) := by
  obtain ⟨entry, hentry, rfl⟩ := status_eq_ok.1 hs
  rcases (change_step t e).find?_eq hid hentry with hsame | hgone | ⟨entry', hentry', hmove⟩
  · exact ⟨_, status_of_some hsame, .inl rfl⟩
  · have hterminal := h.isTerminal_of_gone hretain hentry hgone
    simp [JobStatus.isPending_eq, hterminal] at hpending
  · exact ⟨_, status_of_some hentry', .inr hmove⟩

/-- An ended job that is gone after an event was forgotten, or the queue was full of the jobs that
ended after it. -/
theorem Records.of_gone {ended forgotten : List JobId} (h : t.Records ended forgotten)
    (hretain : 0 < t.retain) (hnext : (t.step e).Records (ended ++ (t.ending? e).toList)
      (forgotten ++ (t.forgetting? e).toList)) (hended : t.hasEnded id = true)
    (hgone : (t.step e).find? id = none) :
    e = .forget id ∨
      listedAfter id ((ended ++ (t.ending? e).toList).filter
        (· ∉ forgotten ++ (t.forgetting? e).toList)) = (t.step e).finished ∧
      (t.step e).finished.length = t.retain := by
  have hin : id ∈ t.finished := h.sound.mem_finished_iff.2 hended
  cases h.sound.turn hretain e with
  | quiet hfinished _ _ =>
    have hstill := hnext.sound.mem_finished_iff.1 (hfinished ▸ hin)
    simp [(find?_eq_none_iff.1 hgone).2] at hstill
  | ended entry hpending hstep hending hforgetting =>
    right
    have hne : id ≠ e.jobId := fun heq =>
      not_isPending_and_hasEnded ⟨heq ▸ hpending, hended⟩
    have hout : e.jobId ∉ t.finished := fun hin =>
      not_isPending_and_hasEnded ⟨hpending, h.sound.mem_finished_iff.1 hin⟩
    obtain ⟨gone, hqueue, -, hone, hfull, hfind⟩ := h.sound.exists_gone hretain hout entry
    have hleft : id ∈ gone := by
      by_contra hstays
      obtain ⟨old, hold, -⟩ := hasEnded_iff.1 hended
      rw [hstep, hfind, if_neg hstays, if_neg hne, hold] at hgone
      cases hgone
    obtain rfl : gone = [id] := by
      match gone, hone, hleft with
      | [k], _, hleft => rw [List.mem_singleton.1 hleft]
    obtain ⟨evicted, horder⟩ := h.order
    have hlist : (ended ++ [e.jobId]).filter (· ∉ forgotten) =
        evicted ++ id :: (t.step e).finished := by
      rw [h.filter_append hpending, horder, List.append_assoc, hqueue, hstep]
      rfl
    have hnodup := hnext.nodup.filter fun k => decide (k ∉ forgotten)
    rw [hending, Option.toList_some] at hnodup
    rw [hending, hforgetting, Option.toList_some, Option.toList_none, List.append_nil]
    exact ⟨listedAfter_eq hnodup hlist, hstep ▸ hfull (by simp)⟩
  | forgot hevent _ hstep _ _ =>
    left
    rw [hstep, find?_remove] at hgone
    split at hgone
    next heq => rw [heq, ← hevent]
    next =>
      obtain ⟨old, hold, -⟩ := hasEnded_iff.1 hended
      simp [hold] at hgone

/-- How long jobs stay in the table in a run of a table that is empty at first. -/
structure Retention (retain : ℕ) (events : List (Event α)) : Prop where
  /-- A queued or running job is in the table after every event, as it was or one step further in
  its life. -/
  pending (before after : List (Event α)) (e : Event α) (id : JobId) (s : JobStatus) :
    events = before ++ e :: after → ((empty retain).run before).status id = .ok s →
      s.isPending = true → ∃ s', ((empty retain).run (before ++ [e])).status id = .ok s' ∧
        (s' = s ∨ s.canMoveTo s' = true)
  /-- A job whose worker has just ended is in the table. -/
  reported (before after : List (Event α)) (id : JobId) (outcome : WorkerEnd α) (now : Timestamp) :
    events = before ++ .report id outcome now :: after →
      ((empty retain).run before).status id = .ok .running →
        ((empty retain).run (before ++ [.report id outcome now])).status id =
          .ok (WorkerEnd.status outcome)
  /-- A job that was just cancelled is in the table. -/
  cancelled (before after : List (Event α)) (id : JobId) (now : Timestamp) :
    events = before ++ .cancel id now :: after →
      ((empty retain).run before).status id = .ok .queued →
        ((empty retain).run (before ++ [.cancel id now])).status id = .ok .cancelled
  /-- An ended job leaves only if it is forgotten, or if the table is left with exactly as many
  ended jobs as it retains, which are the ones that have ended after it. -/
  left (before after : List (Event α)) (e : Event α) (id : JobId) (s : JobStatus) :
    events = before ++ e :: after → ((empty retain).run before).status id = .ok s →
      s.isTerminal = true → ((empty retain).run (before ++ [e])).status id = notFound id →
        e = .forget id ∨
          ((empty retain).endedAfter (before ++ [e]) id).length = retain ∧
          ∀ k, k ∈ (empty retain).endedAfter (before ++ [e]) id ↔
            ((empty retain).run (before ++ [e])).hasEnded k = true
  /-- Every job ends at most once. -/
  endings_nodup : ((empty retain : JobTable α).endings events).Nodup
  /-- The ended jobs of the table are those of its queue. -/
  mem_finished (id : JobId) :
    id ∈ ((empty retain).run events).finished ↔ ((empty retain).run events).hasEnded id = true
  /-- Of the jobs that ended and were not forgotten, the queue holds the last ones, in the order in
  which they ended. -/
  recent : ((empty retain).run events).finished <:+ (empty retain).remembered events
  length_le : ((empty retain).run events).finished.length ≤ retain

/-- The table keeps jobs so in every run in which no two jobs are submitted under one id. -/
theorem retention {retain : ℕ} (hretain : 0 < retain) (events : List (Event α))
    (hfresh : (submitted events).Nodup) : Retention retain events := by
  have hrecords {before after : List (Event α)} (h : events = before ++ after) :
      ((empty retain : JobTable α).run before).Records ((empty retain).endings before)
        ((empty retain).forgotten before) := by
    subst h
    exact records_run hretain (nodup_submitted_left hfresh)
  have hroom (before : List (Event α)) : 0 < ((empty retain).run before).retain := by
    rwa [retain_run]
  have hall := hrecords (List.append_nil events).symm
  constructor
  case pending =>
    rintro before after e id s rfl hs hpending
    rw [run_snoc]
    refine (hrecords rfl).sound.status_step (hroom before) ?_ hs hpending
    obtain ⟨entry, hentry, -⟩ := status_eq_ok.1 hs
    have hused := (fresh_empty retain hfresh).run.not_mem_submitted hentry
    exact (not_mem_submitted_cons hused).1
  case reported =>
    rintro before after id outcome now rfl hs
    obtain ⟨entry, hentry, hrunning⟩ := status_eq_ok.1 hs
    have hcan : entry.job.status.canMoveTo (WorkerEnd.status outcome) := by
      rw [hrunning]
      cases outcome <;> rfl
    obtain ⟨t', hmove⟩ := exists_moveTo?_eq_some hentry hcan (WorkerEnd.result? outcome) now
    rw [run_snoc, JobTable.step, report, hmove]
    exact (hrecords rfl).sound.status_moveTo? (hroom before) hmove
  case cancelled =>
    rintro before after id now rfl hs
    obtain ⟨t', hcancel⟩ := (exists_cancel_eq_ok _ id now).2 hs
    rw [run_snoc, JobTable.step, hcancel]
    exact (hrecords rfl).sound.status_moveTo? (hroom before) (cancel_eq_ok.1 hcancel)
  case left =>
    rintro before after e id s rfl hs hterminal hgone
    have hnext := hrecords (List.append_cons before e after)
    have hended : ((empty retain).run before).hasEnded id = true := by
      obtain ⟨entry, hentry, rfl⟩ := status_eq_ok.1 hs
      exact hasEnded_iff.2 ⟨entry, hentry, hterminal⟩
    have hnone : (((empty retain).run before).step e).find? id = none := by
      rw [run_snoc] at hgone
      cases h : (((empty retain).run before).step e).find? id with
      | none => rfl
      | some entry => simp [status_of_some h] at hgone
    rw [run_snoc, endings_snoc, forgotten_snoc] at hnext
    refine ((hrecords rfl).of_gone (hroom before) hnext hended hnone).imp_right fun hafter => ?_
    obtain ⟨hlist, hlength⟩ := hafter
    have hendedAfter : (empty retain).endedAfter (before ++ [e]) id =
        (((empty retain).run before).step e).finished := by
      rw [← hlist, endedAfter, remembered, endings_snoc, forgotten_snoc]
    rw [hendedAfter, run_snoc, hlength, retain_run]
    exact ⟨rfl, fun k => hnext.sound.mem_finished_iff⟩
  case endings_nodup => exact hall.nodup
  case mem_finished => exact fun id => hall.sound.mem_finished_iff
  case recent =>
    obtain ⟨evicted, horder⟩ := hall.order
    exact ⟨evicted, horder.symm⟩
  case length_le => exact hall.sound.length_le.trans_eq (retain_run _ events)

/-- Of four ended jobs two are kept. The first one left when the third one ended, and the second one
was forgotten out of the middle, so that the last one found a free place. -/
theorem retention_forgotten_between :
    let full : List (Event ℕ) := [.submit ⟨"a"⟩ 1 "small" 0, .submit ⟨"b"⟩ 1 "small" 1,
      .submit ⟨"c"⟩ 1 "small" 2, .submit ⟨"d"⟩ 1 "small" 3, .start ⟨"a"⟩ 4,
      .report ⟨"a"⟩ (.completed 7) 5, .cancel ⟨"b"⟩ 6, .start ⟨"c"⟩ 7,
      .report ⟨"c"⟩ (.failed "no memory") 8]
    let events := full ++ [.forget ⟨"b"⟩, .cancel ⟨"d"⟩ 9]
    (empty 2).endedAfter full ⟨"a"⟩ = [⟨"b"⟩, ⟨"c"⟩] ∧
      (empty 2).endings events = [⟨"a"⟩, ⟨"b"⟩, ⟨"c"⟩, ⟨"d"⟩] ∧
      (empty 2).remembered events = [⟨"a"⟩, ⟨"c"⟩, ⟨"d"⟩] ∧
      ((empty 2).run events).finished = [⟨"c"⟩, ⟨"d"⟩] ∧ 0 < 2 ∧ (submitted events).Nodup ∧
      Retention 2 events := by
  intro full events
  have hfresh : (submitted events).Nodup := by decide
  exact ⟨by decide, by decide, by decide, by decide, by decide, hfresh,
    retention (by decide) events hfresh⟩

end QuantumSim.JobTable
