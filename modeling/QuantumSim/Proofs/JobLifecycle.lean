import Mathlib
import QuantumSim.Proofs.JobTable

/-!
The life of a job as its clients see it. Whatever else happens to the table, the answers about one
job run through its statuses in the order of its life, each for some while, and once the job is gone
it stays gone.
-/
namespace QuantumSim.JobTable

variable {α : Type} {t t' : JobTable α} {id : JobId}

/-- What a client is told about an unknown job. -/
abbrev notFound (id : JobId) : Except BackendError JobStatus := .error (.jobNotFound id)

/-- What a client who asks before the first event and after each one is told about a job. -/
def answers (t : JobTable α) (id : JobId) : List (Event α) → List (Except BackendError JobStatus)
  | [] => [t.status id]
  | e :: events => t.status id :: answers (t.step e) id events

/-- The answers about a job in the order of its life. It waits, runs, completes or fails, or it
waits and is cancelled, and it is gone at the end. No part needs to last. -/
inductive IsLife (id : JobId) : List (Except BackendError JobStatus) → Prop
  | ran (q r f g : ℕ) (final : JobStatus)
      (hfinal : final = .completed ∨ ∃ reason, final = .failed reason) :
      IsLife id (.replicate q (.ok .queued) ++ .replicate r (.ok .running) ++
        .replicate f (.ok final) ++ .replicate g (notFound id))
  | cancelled (q c g : ℕ) :
      IsLife id (.replicate q (.ok .queued) ++ .replicate c (.ok .cancelled) ++
        .replicate g (notFound id))

theorem status_of_some {e : JobEntry α} (h : t.find? id = some e) :
    t.status id = .ok e.job.status := by
  unfold status entry
  rw [h]
  rfl

theorem status_of_none (h : t.find? id = none) : t.status id = notFound id := by
  unfold status entry
  rw [h]
  rfl

theorem status_eq_ok {s : JobStatus} :
    t.status id = .ok s ↔ ∃ e, t.find? id = some e ∧ e.job.status = s := by
  cases h : t.find? id with
  | none => simp [status_of_none h]
  | some e => simp [status_of_some h]

/-- Only a completed job has a result to show. -/
theorem result_eq_ok {v : α} :
    t.result id = .ok v ↔
      ∃ e, t.find? id = some e ∧ e.job.status = .completed ∧ e.result = some v := by
  unfold result entry
  cases t.find? id with
  | none => simp
  | some e =>
    simp only [ok_bind, Option.some.injEq, exists_eq_left']
    cases e.job.status with
    | completed => cases e.result <;> simp [throw_eq, pure_eq]
    | queued | running | cancelled | failed reason => simp [throw_eq]

theorem result_of_none (h : t.find? id = none) : t.result id = .error (.jobNotFound id) := by
  unfold result entry
  rw [h]
  rfl

/-- A job stays as it is, moves on by one step of its life, or is gone. -/
theorem Change.find?_eq {entering : Option JobId} (h : Change t entering t') (hid : id ∉ entering)
    {e : JobEntry α} (he : t.find? id = some e) :
    t'.find? id = some e ∨ t'.find? id = none ∨
      ∃ e', t'.find? id = some e' ∧ e.job.status.canMoveTo e'.job.status := by
  cases h with
  | refused => exact .inl he
  | entered k job hstatus =>
    have hne : id ≠ k := fun h => hid (h ▸ rfl)
    exact .inl (by rw [find?_put, if_neg hne, he])
  | moved k old job hold hmove =>
    rw [find?_put]
    split
    next heq =>
      subst heq
      cases he.symm.trans hold
      exact .inr (.inr ⟨_, rfl, hmove⟩)
    next => exact .inl he
  | ended k old job fresh hold hmove =>
    rw [find?_finish, find?_put]
    split
    · exact .inr (.inl rfl)
    · split
      next heq =>
        subst heq
        cases he.symm.trans hold
        exact .inr (.inr ⟨_, rfl, hmove⟩)
      next => exact .inl he
  | forgotten k old hold =>
    rw [find?_remove]
    split
    · exact .inr (.inl rfl)
    · exact .inl he

theorem not_mem_submitted_cons {e : Event α} {events : List (Event α)}
    (h : id ∉ submitted (e :: events)) : id ∉ e.submitted? ∧ id ∉ submitted events := by
  rw [submitted_cons, List.mem_append, not_or] at h
  exact ⟨fun hid => h.1 (by simpa using hid), h.2⟩

/-- A job that is not there does not come by itself. -/
theorem find?_run_of_none {events : List (Event α)} (hid : id ∉ submitted events)
    (h : t.find? id = none) : (t.run events).find? id = none := by
  induction events generalizing t with
  | nil => exact h
  | cons e events ih =>
    obtain ⟨hfirst, hrest⟩ := not_mem_submitted_cons hid
    exact ih hrest ((change_step t e).find?_eq_none hfirst h)

/-- A job that has ended keeps its entry until it is gone. -/
theorem find?_run_of_terminal {events : List (Event α)} (hid : id ∉ submitted events)
    {e : JobEntry α} (he : t.find? id = some e) (hterminal : e.job.status.isTerminal) :
    (t.run events).find? id = some e ∨ (t.run events).find? id = none := by
  induction events generalizing t with
  | nil => exact .inl he
  | cons event events ih =>
    obtain ⟨hfirst, hrest⟩ := not_mem_submitted_cons hid
    rcases (change_step t event).find?_eq hfirst he with hsame | hgone | ⟨e', -, hmove⟩
    · exact ih hrest hsame
    · rw [run_cons]
      exact .inr (find?_run_of_none hrest hgone)
    · simp [isTerminal_eq_false_of_canMoveTo hmove] at hterminal

section Answers

theorem answers_of_none {events : List (Event α)} (hid : id ∉ submitted events)
    (h : t.find? id = none) :
    answers t id events = .replicate (events.length + 1) (notFound id) := by
  induction events generalizing t with
  | nil => simp [answers, status_of_none h]
  | cons e events ih =>
    obtain ⟨hfirst, hrest⟩ := not_mem_submitted_cons hid
    rw [answers, ih hrest ((change_step t e).find?_eq_none hfirst h), status_of_none h]
    rfl

theorem answers_append (t : JobTable α) (id : JobId) (before after : List (Event α))
    (e : Event α) :
    answers t id (before ++ e :: after) =
      answers t id before ++ answers (t.run (before ++ [e])) id after := by
  induction before generalizing t with
  | nil => rfl
  | cons first before ih => simp only [List.cons_append, answers, run_cons, ih]

/-- A job keeps its status for a while. Then the run is over, or the job is gone or has moved on by
one step of its life. -/
theorem exists_block {events : List (Event α)} (hid : id ∉ submitted events) {e : JobEntry α}
    (he : t.find? id = some e) :
    ∃ n l, answers t id events = .replicate n (.ok e.job.status) ++ l ∧
      (l = [] ∨ (∃ g, l = .replicate g (notFound id)) ∨
        ∃ (t' : JobTable α) (rest : List (Event α)) (e' : JobEntry α), id ∉ submitted rest ∧
          l = answers t' id rest ∧ t'.find? id = some e' ∧
          e.job.status.canMoveTo e'.job.status) := by
  induction events generalizing t with
  | nil => exact ⟨1, [], by simp [answers, status_of_some he], .inl rfl⟩
  | cons event events ih =>
    obtain ⟨hfirst, hrest⟩ := not_mem_submitted_cons hid
    rw [answers, status_of_some he]
    rcases (change_step t event).find?_eq hfirst he with hsame | hgone | ⟨e', he', hmove⟩
    · obtain ⟨n, l, hanswers, hl⟩ := ih hrest hsame
      exact ⟨n + 1, l, by rw [hanswers]; rfl, hl⟩
    · exact ⟨1, _, rfl, .inr (.inl ⟨_, answers_of_none hrest hgone⟩)⟩
    · exact ⟨1, _, rfl, .inr (.inr ⟨_, _, e', hrest, rfl, he', hmove⟩)⟩

theorem answers_of_terminal {events : List (Event α)} (hid : id ∉ submitted events)
    {e : JobEntry α} (he : t.find? id = some e) (hterminal : e.job.status.isTerminal) :
    ∃ f g, answers t id events = .replicate f (.ok e.job.status) ++ .replicate g (notFound id) := by
  obtain ⟨f, l, hanswers, rfl | ⟨g, rfl⟩ | ⟨_, _, e', -, -, -, hmove⟩⟩ := exists_block hid he
  · exact ⟨f, 0, hanswers⟩
  · exact ⟨f, g, hanswers⟩
  · simp [isTerminal_eq_false_of_canMoveTo hmove] at hterminal

theorem answers_of_running {events : List (Event α)} (hid : id ∉ submitted events)
    {e : JobEntry α} (he : t.find? id = some e) (hrunning : e.job.status = .running) :
    ∃ r f g final, (final = .completed ∨ ∃ reason, final = JobStatus.failed reason) ∧
      answers t id events =
        .replicate r (.ok .running) ++ .replicate f (.ok final) ++ .replicate g (notFound id) := by
  obtain ⟨r, l, hanswers, hl⟩ := exists_block hid he
  rw [hrunning] at hanswers hl
  obtain rfl | ⟨g, rfl⟩ | ⟨t', rest, e', hrest, rfl, he', hmove⟩ := hl
  · exact ⟨r, 0, 0, .completed, .inl rfl, by simpa using hanswers⟩
  · exact ⟨r, 0, g, .completed, .inl rfl, by simpa using hanswers⟩
  · have hfinal : e'.job.status = .completed ∨ ∃ reason, e'.job.status = .failed reason := by
      cases hs : e'.job.status <;> simp_all [JobStatus.canMoveTo]
    have hterminal : e'.job.status.isTerminal := by
      obtain hs | ⟨reason, hs⟩ := hfinal <;> simp [hs, JobStatus.isTerminal]
    obtain ⟨f, g, hrest⟩ := answers_of_terminal hrest he' hterminal
    exact ⟨r, f, g, _, hfinal, by rw [hanswers, hrest, List.append_assoc]⟩

theorem isLife_answers {events : List (Event α)} (hid : id ∉ submitted events)
    {e : JobEntry α} (he : t.find? id = some e) (hqueued : e.job.status = .queued) :
    IsLife id (answers t id events) := by
  obtain ⟨q, l, hanswers, hl⟩ := exists_block hid he
  rw [hqueued] at hanswers hl
  rw [hanswers]
  obtain rfl | ⟨g, rfl⟩ | ⟨t', rest, e', hrest, rfl, he', hmove⟩ := hl
  · simpa using (.cancelled q 0 0 : IsLife id _)
  · simpa using (.cancelled q 0 g : IsLife id _)
  · have hnext : e'.job.status = .running ∨ e'.job.status = .cancelled := by
      cases hs : e'.job.status <;> simp_all [JobStatus.canMoveTo]
    rcases hnext with hrunning | hcancelled
    · obtain ⟨r, f, g, final, hfinal, hrun⟩ := answers_of_running hrest he' hrunning
      rw [hrun, ← List.append_assoc, ← List.append_assoc]
      exact .ran q r f g final hfinal
    · obtain ⟨c, g, hend⟩ := answers_of_terminal hrest he' (by rw [hcancelled]; rfl)
      rw [hend, hcancelled, ← List.append_assoc]
      exact .cancelled q c g

/-- The answers after a submission begin a life. -/
theorem isLife_of_submit (t : JobTable α) {events : List (Event α)} (hid : id ∉ submitted events)
    (numCircuits : ℕ) (backend : String) (now : Timestamp) :
    ∃ l, IsLife id (.ok .queued :: l) ∧
      answers (t.step (.submit id numCircuits backend now)) id events = .ok .queued :: l := by
  obtain ⟨e, he, hqueued⟩ : ∃ e, (t.step (.submit id numCircuits backend now)).find? id = some e ∧
      e.job.status = .queued := ⟨_, (find?_put t id id _).trans (if_pos rfl), rfl⟩
  have hhead : ∃ l, answers (t.step (.submit id numCircuits backend now)) id events =
      .ok .queued :: l := by
    rw [← hqueued, ← status_of_some he]
    cases events <;> exact ⟨_, rfl⟩
  obtain ⟨l, hl⟩ := hhead
  exact ⟨l, hl ▸ isLife_answers hid he hqueued, hl⟩

end Answers

/-- A job can be cancelled exactly while it waits. -/
theorem exists_cancel_eq_ok (t : JobTable α) (id : JobId) (now : Timestamp) :
    (∃ t', t.cancel id now = .ok t') ↔ t.status id = .ok .queued := by
  rw [status_eq_ok]
  constructor
  · rintro ⟨t', h⟩
    obtain ⟨old, job, hold, hmove, -⟩ := moveTo?_eq_some (cancel_eq_ok.1 h)
    refine ⟨old, hold, ?_⟩
    cases hs : old.job.status <;> simp_all [JobStatus.canMoveTo]
  · rintro ⟨e, he, hqueued⟩
    have hmove : e.job.status.canMoveTo .cancelled := by
      rw [hqueued]
      rfl
    obtain ⟨t', h⟩ := exists_moveTo?_eq_some he hmove none now
    exact ⟨t', cancel_eq_ok.2 h⟩

/-- A job that was cancelled is so from then on, or gone. -/
theorem find?_of_cancel {now : Timestamp} (h : t.cancel id now = .ok t') :
    (∃ e, t'.find? id = some e ∧ e.job.status = .cancelled) ∨ t'.find? id = none := by
  obtain ⟨old, job, -, -, hstatus, rfl⟩ := moveTo?_eq_some (cancel_eq_ok.1 h)
  simp only [JobStatus.isTerminal, ↓reduceIte, find?_finish]
  split
  · exact .inr rfl
  · exact .inl ⟨_, by rw [find?_put, if_pos rfl], hstatus⟩

theorem start?_eq_none (h : t.status id ≠ .ok .queued) (now : Timestamp) :
    t.start? id now = none := by
  rw [← Option.not_isSome_iff_eq_none]
  intro hsome
  obtain ⟨t', hstart⟩ := Option.isSome_iff_exists.1 hsome
  obtain ⟨old, job, hold, hmove, -⟩ := moveTo?_eq_some hstart
  refine h (status_eq_ok.2 ⟨old, hold, ?_⟩)
  cases hs : old.job.status <;> simp_all [JobStatus.canMoveTo]

theorem status_run_of_cancel {now : Timestamp} (h : t.cancel id now = .ok t')
    {events : List (Event α)} (hid : id ∉ submitted events) :
    (t'.run events).status id = .ok .cancelled ∨ (t'.run events).status id = notFound id := by
  rcases find?_of_cancel h with ⟨e, he, hcancelled⟩ | hnone
  · rcases find?_run_of_terminal hid he (by rw [hcancelled]; rfl) with hkept | hgone
    · exact .inl (status_eq_ok.2 ⟨e, hkept, hcancelled⟩)
    · exact .inr (status_of_none hgone)
  · exact .inr (status_of_none (find?_run_of_none hid hnone))

/-- A result is kept until the job is gone. -/
theorem result_run {v : α} (hv : t.result id = .ok v) {events : List (Event α)}
    (hid : id ∉ submitted events) :
    (t.run events).result id = .ok v ∨ (t.run events).result id = .error (.jobNotFound id) := by
  obtain ⟨e, he, hcompleted, hresult⟩ := result_eq_ok.1 hv
  rcases find?_run_of_terminal hid he (by rw [hcompleted]; rfl) with hkept | hgone
  · exact .inl (result_eq_ok.2 ⟨e, hkept, hcompleted, hresult⟩)
  · exact .inr (result_of_none hgone)

theorem result_ne_ok (h : t.status id ≠ .ok .completed) (v : α) : t.result id ≠ .ok v := by
  intro hv
  obtain ⟨e, he, hcompleted, -⟩ := result_eq_ok.1 hv
  exact h (status_eq_ok.2 ⟨e, he, hcompleted⟩)

/-- With room for an ended job, a job is gone only after it has ended. -/
theorem Sound.isTerminal_of_gone {e : Event α} (h : t.Sound) (hretain : 0 < t.retain)
    {old : JobEntry α} (hold : t.find? id = some old) (hgone : (t.step e).find? id = none) :
    old.job.status.isTerminal := by
  have hchange := change_step t e
  generalize e.submitted? = entering, t.step e = t' at hchange hgone
  cases hchange with
  | refused => simp [hold] at hgone
  | entered k job =>
    rw [find?_put] at hgone
    split at hgone <;> simp [hold] at hgone
  | moved k _ job =>
    rw [find?_put] at hgone
    split at hgone <;> simp [hold] at hgone
  | ended k _ job fresh =>
    rw [find?_finish, find?_put, finished_put, retain_put] at hgone
    split at hgone
    next hleaves =>
      -- The job that just ended stands behind all others, and at most one of them has to leave.
      have hlength := h.length_le
      rw [List.take_append_of_le_length (by rw [List.length_append, List.length_singleton]; omega)]
        at hleaves
      obtain ⟨e', he', hterminal⟩ := (h.tracks.mem_iff id).1 (List.mem_of_mem_take hleaves)
      cases hold.symm.trans he'
      exact hterminal
    next => split at hgone <;> simp [hold] at hgone
  | forgotten k e' he' hterminal =>
    rw [find?_remove] at hgone
    split at hgone
    next heq =>
      subst heq
      cases hold.symm.trans he'
      exact hterminal
    next => simp [hold] at hgone

theorem Fresh.run {before after : List (Event α)} (h : t.Fresh (before ++ after)) :
    (t.run before).Fresh after := by
  induction before generalizing t with
  | nil => exact h
  | cons e before ih => exact ih h.step

/-- The job of an id that is in use is not submitted again. -/
theorem Fresh.not_mem_submitted {events : List (Event α)} (h : t.Fresh events) {e : JobEntry α}
    (he : t.find? id = some e) : id ∉ submitted events := fun hid => by
  simp [h.find?_eq_none id hid] at he

/-- How one job fares in a run of a table that is empty at first. -/
structure Lifecycle (retain : ℕ) (events : List (Event α)) (id : JobId) : Prop where
  /-- Nobody has heard of a job that was not submitted. -/
  unknown : id ∉ submitted events →
    answers (empty retain) id events = .replicate (events.length + 1) (notFound id)
  /-- The answers from the submission on follow the job's life. -/
  life (before after : List (Event α)) (numCircuits : ℕ) (backend : String) (now : Timestamp) :
    events = before ++ .submit id numCircuits backend now :: after →
      ∃ l, IsLife id (.ok .queued :: l) ∧ answers (empty retain) id events =
        .replicate (before.length + 1) (notFound id) ++ .ok .queued :: l
  /-- A job is gone only after it has ended, unless no ended job is kept at all. -/
  gone (before after : List (Event α)) (e : Event α) (s : JobStatus) :
    0 < retain → events = before ++ e :: after → ((empty retain).run before).status id = .ok s →
      (((empty retain).run before).step e).status id = notFound id → s.isTerminal
  /-- Only a queued job can be cancelled. -/
  cancel_iff (now : Timestamp) :
    (∃ t, ((empty retain).run events).cancel id now = .ok t) ↔
      ((empty retain).run events).status id = .ok .queued
  /-- A cancelled job never runs, however late its worker starts, and never has a result. -/
  cancelled (before after : List (Event α)) (now : Timestamp) (t : JobTable α) :
    events = before ++ .cancel id now :: after →
      ((empty retain).run before).cancel id now = .ok t →
        (((empty retain).run events).status id = .ok .cancelled ∨
          ((empty retain).run events).status id = notFound id) ∧
        (∀ late, ((empty retain).run events).start? id late = none) ∧
        ∀ v, ((empty retain).run events).result id ≠ .ok v
  /-- A result that was once seen is the one that is seen until the job is gone. -/
  result_stable (before after : List (Event α)) (v : α) :
    events = before ++ after → ((empty retain).run before).result id = .ok v →
      ((empty retain).run events).result id = .ok v ∨
        ((empty retain).run events).result id = .error (.jobNotFound id)

/-- Every job fares so in every run in which no two jobs are submitted under one id, whatever else
the table is asked to do and in whatever order. -/
theorem lifecycle (retain : ℕ) (events : List (Event α)) (hfresh : (submitted events).Nodup)
    (id : JobId) : Lifecycle retain events id := by
  have hrun {before after : List (Event α)} (h : events = before ++ after) :
      ((empty retain).run before).Fresh after := by
    subst h
    exact (fresh_empty retain hfresh).run
  constructor
  case unknown => exact fun hid => answers_of_none hid rfl
  case life =>
    rintro before after numCircuits backend now rfl
    have hnew : id ∉ submitted before ∧ id ∉ submitted after := by
      rw [submitted_append, submitted_cons] at hfresh
      have hboth := List.nodup_middle.1 hfresh
      simpa using (List.nodup_cons.1 hboth).1
    obtain ⟨l, hlife, hl⟩ :=
      isLife_of_submit ((empty retain).run before) hnew.2 numCircuits backend now
    exact ⟨l, hlife, by
      rw [answers_append, answers_of_none hnew.1 rfl, run_append, run_cons, run_nil, hl]⟩
  case gone =>
    rintro before after e s hretain rfl hs hgone
    obtain ⟨old, hold, rfl⟩ := status_eq_ok.1 hs
    rw [submitted_append] at hfresh
    have hbefore := hfresh.sublist (List.sublist_append_left _ _)
    have hsound : ((empty retain : JobTable α).run before).Sound :=
      (sound_empty retain).run (fresh_empty retain hbefore)
    refine hsound.isTerminal_of_gone (e := e) (by rwa [retain_run]) hold ?_
    cases he : (((empty retain).run before).step e).find? id with
    | none => rfl
    | some e' => simp [status_of_some he] at hgone
  case cancel_iff => exact exists_cancel_eq_ok _ id
  case cancelled =>
    rintro before after now t rfl hcancel
    have hafter : ((empty retain).run (before ++ .cancel id now :: after)) = t.run after := by
      rw [run_append, run_cons, step, hcancel]
      rfl
    obtain ⟨old, job, hold, -⟩ := moveTo?_eq_some (cancel_eq_ok.1 hcancel)
    have hid : id ∉ submitted after :=
      (not_mem_submitted_cons ((hrun rfl).not_mem_submitted hold)).2
    have hstatus := status_run_of_cancel hcancel hid
    rw [hafter]
    exact ⟨hstatus, start?_eq_none (by rcases hstatus with h | h <;> simp [h]),
      result_ne_ok (by rcases hstatus with h | h <;> simp [h])⟩
  case result_stable =>
    rintro before after v rfl hv
    obtain ⟨e, he, -⟩ := result_eq_ok.1 hv
    rw [run_append]
    exact result_run hv ((hrun rfl).not_mem_submitted he)

/-- The worker of a cancelled job starts too late, and its job is gone once another job has
ended. -/
theorem lifecycle_cancelled_early :
    let events : List (Event ℕ) := [.cancel ⟨"b"⟩ 0, .submit ⟨"b"⟩ 2 "small" 1,
      .submit ⟨"a"⟩ 1 "small" 2, .cancel ⟨"b"⟩ 3, .start ⟨"b"⟩ 4, .report ⟨"b"⟩ (.completed 8) 5,
      .start ⟨"a"⟩ 6, .report ⟨"a"⟩ (.completed 7) 7, .start ⟨"b"⟩ 8]
    answers (empty 1) ⟨"b"⟩ events = [notFound ⟨"b"⟩, notFound ⟨"b"⟩, .ok .queued, .ok .queued,
        .ok .cancelled, .ok .cancelled, .ok .cancelled, .ok .cancelled, notFound ⟨"b"⟩,
        notFound ⟨"b"⟩] ∧
      (∃ v, ((empty 1).run events).result ⟨"a"⟩ = .ok v) ∧
      Lifecycle 1 events ⟨"a"⟩ ∧ Lifecycle 1 events ⟨"b"⟩ := by
  intro events
  have hfresh : (submitted events).Nodup := by decide
  exact ⟨rfl, ⟨7, rfl⟩, lifecycle 1 events hfresh ⟨"a"⟩, lifecycle 1 events hfresh ⟨"b"⟩⟩

end QuantumSim.JobTable
