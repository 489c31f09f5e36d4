import Mathlib
import QuantumSim.Proofs.JobRetention

/-!
What a waiter is told. A waiter that found its job in the table learns that the job ended and then
looks it up once more. Between the two the table goes on, and the answer is the job's outcome unless
as many jobs as the table retains have ended after it by then.
-/
namespace QuantumSim.JobTable

variable {α : Type} {t t' : JobTable α} {id : JobId} {e : Event α}

/-- The status of a job that was sent last in a run, if the table ever had the job. -/
def lastSent? (t : JobTable α) (id : JobId) : List (Event α) → Option JobStatus
  | [] => (t.find? id).map JobEntry.sent
  | e :: events => (lastSent? (t.step e) id events).or ((t.find? id).map JobEntry.sent)

/-- What a client is to be told of a job that the event has ended. -/
inductive Event.Concludes (id : JobId) : Event α → Except BackendError α → Prop
  | completed (v : α) (now : Timestamp) : Concludes id (.report id (.completed v) now) (.ok v)
  | failed (outcome : WorkerEnd α) (now : Timestamp) (reason : String)
      (hfailed : WorkerEnd.status outcome = .failed reason) :
      Concludes id (.report id outcome now) (.error (.jobFailed reason))
  | cancelled (now : Timestamp) : Concludes id (.cancel id now) (.error .jobCancelled)

/-- At some moment of the run, as many jobs as are retained had ended after the given one. -/
def Overtaken (retain : ℕ) (events : List (Event α)) (id : JobId) : Prop :=
  ∃ seen, seen <+: events ∧ retain ≤ ((empty retain).endedAfter seen id).length

section Outcome

theorem subscribe_eq_ok {w : Waiter} :
    t.subscribe id = .ok w ↔ (∃ entry, t.find? id = some entry) ∧ w = ⟨id⟩ := by
  unfold subscribe entry
  cases t.find? id <;> simp [pure_eq, eq_comm]

theorem isNotified_of_some {e : JobEntry α} (h : t.Announced) (he : t.find? id = some e) :
    Waiter.isNotified ⟨id⟩ t = e.job.status.isTerminal := by
  rw [Waiter.isNotified, he, ← h id e he]

theorem isNotified_of_none (h : t.find? id = none) : Waiter.isNotified ⟨id⟩ t = true := by
  rw [Waiter.isNotified, h]

theorem isNotified_iff (h : t.Announced) :
    Waiter.isNotified ⟨id⟩ t = true ↔ t.isPending id = false := by
  unfold isPending
  cases he : t.find? id with
  | none => simp [isNotified_of_none he]
  | some e => simp [isNotified_of_some h he, JobStatus.isPending_eq]

/-- A waiter looks at the status sent last, also if its job is not in the table any more: the last
status of such a job ended it. -/
theorem isNotified_eq_lastSent (hretain : 0 < t.retain) (hsound : t.Sound) (hsent : t.Announced)
    {events : List (Event α)} (hfresh : t.Fresh events) (hid : id ∉ submitted events)
    {status : JobStatus} (hlast : t.lastSent? id events = some status) :
    Waiter.isNotified ⟨id⟩ (t.run events) = status.isTerminal := by
  induction events generalizing t with
  | nil =>
    obtain ⟨entry, hentry, rfl⟩ := Option.map_eq_some_iff.1 hlast
    rw [run_nil, isNotified_of_some hsent hentry, hsent id entry hentry]
  | cons e events ih =>
    obtain ⟨hfirst, hrest⟩ := not_mem_submitted_cons hid
    have hchange := change_step t e
    have hroom : 0 < (t.step e).retain := by rwa [hchange.retain_eq]
    rw [lastSent?] at hlast
    cases hlater : lastSent? (t.step e) id events with
    | some later =>
      rw [hlater] at hlast
      cases hlast
      exact ih hroom (hsound.step hfresh) (hsent.change hchange) hfresh.step hrest hlater
    | none =>
      rw [hlater, Option.none_or] at hlast
      obtain ⟨entry, hentry, rfl⟩ := Option.map_eq_some_iff.1 hlast
      have hgone : (t.step e).find? id = none := by
        cases events with
        | nil => simpa [lastSent?] using hlater
        | cons => simpa [lastSent?] using (Option.or_eq_none_iff.1 hlater).2
      rw [hsent id entry hentry, hsound.isTerminal_of_gone hretain hentry hgone, run_cons]
      exact isNotified_of_none (find?_run_of_none hrest hgone)

theorem result_congr (h : t'.find? id = t.find? id) : t'.result id = t.result id := by
  unfold result entry
  rw [h]

theorem result_of_failed {entry : JobEntry α} {reason : String} (h : t.find? id = some entry)
    (hstatus : entry.job.status = .failed reason) :
    t.result id = .error (.jobFailed reason) := by
  unfold result JobTable.entry
  rw [h, ok_bind, hstatus]
  rfl

theorem result_of_cancelled {entry : JobEntry α} (h : t.find? id = some entry)
    (hstatus : entry.job.status = .cancelled) : t.result id = .error .jobCancelled := by
  unfold result JobTable.entry
  rw [h, ok_bind, hstatus]
  rfl

/-- The entry of a job that a step of its life has just ended. -/
theorem exists_entry_of_moveTo? {status : JobStatus} {fresh : Option α} {now : Timestamp}
    (hpending : t.isPending id = true)
    (hended : ((t.moveTo? id status fresh now).getD t).hasEnded id = true) :
    ∃ entry, ((t.moveTo? id status fresh now).getD t).find? id = some entry ∧
      entry.job.status = status ∧ status.isTerminal = true ∧
      ∀ v, fresh = some v → entry.result = some v := by
  obtain ⟨entry, hentry, hterminal⟩ := hasEnded_iff.1 hended
  cases hmove : t.moveTo? id status fresh now with
  | none =>
    rw [hmove, Option.getD_none] at hended
    exact absurd ⟨hpending, hended⟩ not_isPending_and_hasEnded
  | some t' =>
    rw [hmove, Option.getD_some] at hentry
    obtain ⟨hne, -⟩ | ⟨-, old, -, -, rfl, hresult⟩ := find?_of_moveTo? hmove hentry
    · exact absurd rfl hne
    · exact ⟨entry, hentry, rfl, hterminal, by rintro v rfl; exact hresult⟩

/-- Right after its end, a job shows the outcome that the ending event had for it. -/
theorem exists_concludes (hending : t.ending? e = some id) :
    ∃ outcome, e.Concludes id outcome ∧ (t.step e).result id = outcome := by
  obtain ⟨hid, hpending, hended⟩ := ending?_eq_some.1 hending
  cases e with
  | submit k numCircuits backend now =>
    obtain rfl : k = id := hid
    obtain ⟨entry, hentry, hterminal⟩ := hasEnded_iff.1 hended
    cases hentry.symm.trans ((find?_put t k k _).trans (if_pos rfl))
    cases hterminal
  | start k now =>
    obtain rfl : k = id := hid
    obtain ⟨entry, -, -, hterminal, -⟩ := exists_entry_of_moveTo? hpending hended
    cases hterminal
  | report k outcome now =>
    obtain rfl : k = id := hid
    obtain ⟨entry, hentry, hstatus, -, hresult⟩ := exists_entry_of_moveTo? hpending hended
    cases hfinal : WorkerEnd.status outcome with
    | completed =>
      obtain ⟨v, rfl⟩ : ∃ v, outcome = .completed v := by
        cases outcome <;> simp_all [WorkerEnd.status]
      exact ⟨_, .completed v now, result_eq_ok.2 ⟨entry, hentry, hstatus, hresult v rfl⟩⟩
    | failed reason =>
      exact ⟨_, .failed outcome now reason hfinal,
        result_of_failed hentry (hstatus.trans hfinal)⟩
    | queued | running | cancelled => cases outcome <;> cases hfinal
  | cancel k now =>
    obtain rfl : k = id := hid
    rw [JobTable.step, after_cancel] at hended ⊢
    obtain ⟨entry, hentry, hstatus, -, -⟩ := exists_entry_of_moveTo? hpending hended
    exact ⟨_, .cancelled now, result_of_cancelled hentry hstatus⟩
  | forget k =>
    obtain rfl : k = id := hid
    rw [JobTable.step] at hended
    cases hforget : t.forget k with
    | error cause =>
      rw [hforget] at hended
      exact absurd ⟨hpending, hended⟩ not_isPending_and_hasEnded
    | ok t' =>
      obtain ⟨entry, hentry, -⟩ := hasEnded_iff.1 hended
      rw [hforget, after, (forget_eq_ok.1 hforget).2, find?_remove, if_pos rfl] at hentry
      cases hentry

/-- A job that has ended keeps its outcome until it is gone. -/
theorem exists_concludes_run {later : List (Event α)} (hid : id ∉ submitted later)
    (hending : t.ending? e = some id) :
    ∃ outcome, e.Concludes id outcome ∧
      (((t.step e).run later).result id = outcome ∨ ((t.step e).run later).find? id = none) := by
  obtain ⟨outcome, hconcludes, hresult⟩ := exists_concludes hending
  obtain ⟨-, -, hended⟩ := ending?_eq_some.1 hending
  obtain ⟨entry, hentry, hterminal⟩ := hasEnded_iff.1 hended
  refine ⟨outcome, hconcludes, ?_⟩
  rcases find?_run_of_terminal hid hentry hterminal with hsame | hgone
  · exact .inl ((result_congr (hsame.trans hentry.symm)).trans hresult)
  · exact .inr hgone

end Outcome

section Overtaking

variable {retain : ℕ} {ended forgotten : List JobId} {events : List (Event α)}

/-- A job that has not ended goes on, or ends with the next event. -/
theorem Sound.pending_step (h : t.Sound) (hretain : 0 < t.retain) (hnext : (t.step e).Sound)
    (hpending : t.isPending id = true) :
    (t.step e).isPending id = true ∨ t.ending? e = some id := by
  have hout : id ∉ t.finished := fun hin =>
    not_isPending_and_hasEnded ⟨hpending, h.mem_finished_iff.1 hin⟩
  have hheld : (t.step e).find? id ≠ none := fun hgone => by
    obtain ⟨entry, hentry, hnot⟩ := isPending_iff.1 hpending
    simp [h.isTerminal_of_gone hretain hentry hgone] at hnot
  rw [or_iff_not_imp_left, Bool.not_eq_true]
  intro hstopped
  have hin : id ∈ (t.step e).finished := hnext.mem_finished_iff.2 <| by
    rw [← Bool.not_eq_false]
    exact fun hnot => hheld (find?_eq_none_iff.2 ⟨hstopped, hnot⟩)
  cases h.turn hretain e with
  | quiet hfinished _ _ => exact absurd (hfinished ▸ hin) hout
  | ended entry _ hstep hending _ =>
    rw [hstep, finished_finish, finished_put] at hin
    rcases List.mem_append.1 (List.mem_of_mem_drop hin) with hin | hin
    · exact absurd hin hout
    · rw [hending, List.mem_singleton.1 hin]
  | forgot _ _ hstep _ _ =>
    rw [hstep] at hin
    exact absurd (List.mem_of_mem_filter hin) hout

/-- A submitted job has ended or is still to end. -/
theorem isPending_or_mem_endings (hretain : 0 < retain) (hfresh : (submitted events).Nodup)
    (hid : id ∈ submitted events) :
    ((empty retain).run events).isPending id = true ∨ id ∈ (empty retain).endings events := by
  induction events using List.reverseRecOn with
  | nil => cases hid
  | append_singleton events e ih =>
    have hnext := (records_run hretain hfresh).sound
    have hbefore := nodup_submitted_left hfresh
    rw [submitted_append, submitted_cons] at hid
    rw [run_snoc] at hnext
    rw [run_snoc, endings_snoc, List.mem_append, Option.mem_toList]
    rcases List.mem_append.1 hid with hold | hnew
    · rcases ih hbefore hold with hpending | hended
      · have hroom : 0 < ((empty retain).run events).retain := by rwa [retain_run]
        exact ((records_run hretain hbefore).sound.pending_step hroom hnext hpending).imp_right
          .inr
      · exact .inr (.inl hended)
    · cases e with
      | submit k numCircuits backend now =>
        obtain rfl : id = k := by simpa [Event.submitted?, submitted] using hnew
        refine .inl (isPending_iff.2 ⟨_, (find?_put _ id id _).trans (if_pos rfl), rfl⟩)
      | start | report | cancel | forget => simp [Event.submitted?, submitted] at hnew

/-- A job is not in the table any more once as many jobs as are retained have ended after it. -/
theorem Records.find?_eq_none (h : t.Records ended forgotten) (hretain : 0 < t.retain)
    (hlater : t.retain ≤ (listedAfter id (ended.filter (· ∉ forgotten))).length) :
    id ∈ ended ∧ t.find? id = none := by
  have hlisted : id ∈ ended.filter (· ∉ forgotten) := by
    by_contra hout
    rw [listedAfter_eq_nil hout, List.length_nil] at hlater
    omega
  have hended : id ∈ ended := List.mem_of_mem_filter hlisted
  refine ⟨hended, find?_eq_none_iff.2 ⟨h.settled id hended, ?_⟩⟩
  rw [← Bool.not_eq_true, ← h.sound.mem_finished_iff]
  intro hin
  obtain ⟨evicted, horder⟩ := h.order
  obtain ⟨sooner, later, hqueue⟩ := List.append_of_mem hin
  have hsplit : ended.filter (· ∉ forgotten) = (evicted ++ sooner) ++ id :: later := by
    rw [horder, hqueue, List.append_assoc]
  -- The jobs behind it in the queue do not fill the queue.
  have hlength := h.sound.length_le
  rw [listedAfter_eq (h.nodup.filter _) hsplit] at hlater
  rw [hqueue, List.length_append, List.length_cons] at hlength
  omega

theorem find?_eq_none_of_overtaken (hretain : 0 < retain) (hfresh : (submitted events).Nodup)
    (hover : Overtaken retain events id) : ((empty retain).run events).find? id = none := by
  obtain ⟨seen, ⟨rest, rfl⟩, hlater⟩ := hover
  have hrecords := records_run hretain (nodup_submitted_left hfresh)
  obtain ⟨hended, hnone⟩ :=
    hrecords.find?_eq_none (by rwa [retain_run]) ((retain_run _ _).trans_le hlater)
  have hnot := not_mem_submitted_right hfresh (mem_submitted_of_mem_endings hended)
  rw [run_append]
  exact find?_run_of_none hnot hnone

/-- A job that was in the table and that nobody forgets is gone only after it was overtaken. -/
theorem overtaken_of_gone (hretain : 0 < retain) {before during : List (Event α)}
    (hfresh : (submitted (before ++ during)).Nodup)
    (hheld : ((empty retain).run before).find? id ≠ none) (hkept : .forget id ∉ during)
    (hgone : ((empty retain).run (before ++ during)).find? id = none) :
    Overtaken retain (before ++ during) id := by
  induction during using List.reverseRecOn with
  | nil =>
    rw [List.append_nil] at hgone
    exact absurd hgone hheld
  | append_singleton during e ih =>
    rw [← List.append_assoc] at hfresh hgone ⊢
    have hbefore := nodup_submitted_left hfresh
    cases hentry : ((empty retain).run (before ++ during)).find? id with
    | none =>
      obtain ⟨seen, hseen, hlater⟩ := ih hbefore (by simp_all) hentry
      exact ⟨seen, hseen.trans (List.prefix_append _ _), hlater⟩
    | some entry =>
      have hrecords := records_run hretain hbefore
      have hnext := records_run hretain hfresh
      have hroom : 0 < ((empty retain).run (before ++ during)).retain := by rwa [retain_run]
      rw [run_snoc] at hgone hnext
      have hterminal := hrecords.sound.isTerminal_of_gone hroom hentry hgone
      rw [endings_snoc, forgotten_snoc] at hnext
      rcases hrecords.of_gone hroom hnext (hasEnded_iff.2 ⟨entry, hentry, hterminal⟩) hgone with
        hforget | ⟨hlist, hlength⟩
      · exact absurd (List.mem_append_right _ (List.mem_singleton.2 hforget.symm)) hkept
      · refine ⟨_, List.prefix_rfl, ?_⟩
        rw [endedAfter, remembered, endings_snoc, forgotten_snoc, hlist, hlength, retain_run]
        exact le_rfl

end Overtaking

/-- Whoever finds a job in the table and waits for it, while nobody forgets it, learns that it has
ended exactly if it has. The answer is the outcome that the ending event had for the job, unless the
job was overtaken before the waiter looked it up. -/
theorem answer_of_subscribed {retain : ℕ} (hretain : 0 < retain) {before during : List (Event α)}
    {id : JobId} {w : Waiter} (hfresh : (submitted (before ++ during)).Nodup)
    (hfound : ((empty retain).run before).subscribe id = .ok w) (hkept : .forget id ∉ during) :
    let events := before ++ during
    let t := (empty retain).run events
    (w.isNotified t = true ↔ id ∈ (empty retain).endings events) ∧
      (w.isNotified t = true → ∃ earlier e later outcome, events = earlier ++ e :: later ∧
        ((empty retain).run earlier).ending? e = some id ∧ e.Concludes id outcome ∧
        (Overtaken retain events id → w.answer t = .error (.jobNotFound id)) ∧
        (¬ Overtaken retain events id → w.answer t = outcome)) := by
  intro events t
  obtain ⟨⟨entry, hentry⟩, rfl⟩ := subscribe_eq_ok.1 hfound
  have hrecords := records_run hretain hfresh
  have hused : id ∈ submitted events := by
    rw [submitted_append]
    exact List.mem_append_left _ (mem_submitted_of_find? hentry)
  have hnotified : Waiter.isNotified ⟨id⟩ t = true ↔ id ∈ (empty retain).endings events := by
    rw [isNotified_iff ((announced_empty retain).run events)]
    constructor
    · intro hstopped
      exact (isPending_or_mem_endings hretain hfresh hused).resolve_left
        (Bool.eq_false_iff.1 hstopped)
    · exact hrecords.settled id
  refine ⟨hnotified, fun htold => ?_⟩
  obtain ⟨earlier, e, later, hsplit, hending⟩ := mem_endings.1 (hnotified.1 htold)
  have hnot : id ∉ submitted later := by
    have hrest : ((empty retain).run earlier).Fresh (e :: later) :=
      (fresh_empty retain (hsplit ▸ hfresh)).run
    obtain ⟨-, hpending, -⟩ := ending?_eq_some.1 hending
    obtain ⟨old, hold, -⟩ := isPending_iff.1 hpending
    exact (not_mem_submitted_cons (hrest.not_mem_submitted hold)).2
  obtain ⟨outcome, hconcludes, hanswer⟩ := exists_concludes_run hnot hending
  have hrun : (((empty retain).run earlier).step e).run later = t := by
    rw [← run_cons, ← run_append, ← hsplit]
  rw [hrun] at hanswer
  refine ⟨earlier, e, later, outcome, hsplit, hending, hconcludes, ?_, ?_⟩
  · exact fun hover => result_of_none (find?_eq_none_of_overtaken hretain hfresh hover)
  · intro hnever
    refine hanswer.resolve_right fun hgone => hnever ?_
    exact overtaken_of_gone hretain hfresh (by simp [hentry]) hkept hgone

/-- With room for one ended job, a waiter that looks at once finds the result. One that looks after
another job has ended does not, although it has been told that its job ended. -/
theorem answer_of_subscribed_too_late :
    let before : List (Event ℕ) :=
      [.submit ⟨"a"⟩ 1 "small" 0, .submit ⟨"b"⟩ 1 "small" 1, .start ⟨"a"⟩ 2]
    let ended : List (Event ℕ) := [.report ⟨"a"⟩ (.completed 7) 3]
    let during := ended ++ [.start ⟨"b"⟩ 4, .report ⟨"b"⟩ (.completed 8) 5]
    let w : Waiter := ⟨⟨"a"⟩⟩
    0 < 1 ∧ (submitted (before ++ during)).Nodup ∧
      ((empty 1).run before).subscribe ⟨"a"⟩ = .ok w ∧ .forget ⟨"a"⟩ ∉ during ∧
      w.answer ((empty 1).run (before ++ ended)) = .ok 7 ∧
      w.isNotified ((empty 1).run (before ++ during)) = true ∧
      w.answer ((empty 1).run (before ++ during)) = .error (.jobNotFound ⟨"a"⟩) := by
  intro before ended during w
  have hfresh : (submitted (before ++ during)).Nodup := by decide
  have hfound : ((empty 1).run before).subscribe ⟨"a"⟩ = .ok w := rfl
  have hkept : .forget ⟨"a"⟩ ∉ during := by simp [during, ended]
  obtain ⟨hnotified, htold⟩ := answer_of_subscribed Nat.one_pos hfresh hfound hkept
  have hended := hnotified.2 (by decide)
  have hover : Overtaken 1 (before ++ during) ⟨"a"⟩ := ⟨_, List.prefix_rfl, by decide⟩
  obtain ⟨-, -, -, -, -, -, -, hgone, -⟩ := htold hended
  exact ⟨Nat.one_pos, hfresh, hfound, hkept, rfl, hended, hgone hover⟩

end QuantumSim.JobTable
