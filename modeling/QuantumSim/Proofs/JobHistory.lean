import Mathlib
import QuantumSim.Proofs.JobLifecycle

/-!
What a run of the job table has seen. A history lists the jobs that ended, in the order in which
they ended, and the ended jobs that were forgotten; both are read off the statuses before and after
each event. The queue of the table is the end of the first list without the second one.
-/
namespace QuantumSim

theorem JobStatus.isPending_eq (s : JobStatus) : s.isPending = !s.isTerminal := by
  cases s <;> rfl

namespace JobTable

variable {α : Type} {t : JobTable α} {id : JobId} {e : Event α}

/-- The job that an event is about. -/
def Event.jobId : Event α → JobId
  | .submit id .. => id
  | .start id _ => id
  | .report id .. => id
  | .cancel id _ => id
  | .forget id => id

/-- Whether the table has a job that has not ended. -/
def isPending (t : JobTable α) (id : JobId) : Bool :=
  (t.find? id).any fun e => e.job.status.isPending

/-- Whether the table has a job that has ended. -/
def hasEnded (t : JobTable α) (id : JobId) : Bool :=
  (t.find? id).any fun e => e.job.status.isTerminal

/-- The job that ends with an event. -/
def ending? (t : JobTable α) (e : Event α) : Option JobId :=
  if t.isPending e.jobId && (t.step e).hasEnded e.jobId then some e.jobId else none

/-- The ended job that an event forgets. -/
def forgetting? (t : JobTable α) : Event α → Option JobId
  | .forget id => if t.hasEnded id then some id else none
  | _ => none

/-- The jobs that end in a run, in the order in which they end. -/
def endings (t : JobTable α) : List (Event α) → List JobId
  | [] => []
  | e :: events => (t.ending? e).toList ++ endings (t.step e) events

/-- The ended jobs that are forgotten in a run. -/
def forgotten (t : JobTable α) : List (Event α) → List JobId
  | [] => []
  | e :: events => (t.forgetting? e).toList ++ forgotten (t.step e) events

/-- The jobs that end in a run and are not forgotten, in the order in which they end. -/
def remembered (t : JobTable α) (events : List (Event α)) : List JobId :=
  (t.endings events).filter (· ∉ t.forgotten events)

/-- The jobs listed behind the given one. -/
def listedAfter (id : JobId) (jobs : List JobId) : List JobId := (jobs.dropWhile (· ≠ id)).tail

/-- The jobs that end in a run after the given one and are not forgotten. -/
def endedAfter (t : JobTable α) (events : List (Event α)) (id : JobId) : List JobId :=
  listedAfter id (t.remembered events)

section Readings

theorem listedAfter_eq {jobs first later : List JobId} (hnodup : jobs.Nodup)
    (hsplit : jobs = first ++ id :: later) : listedAfter id jobs = later := by
  subst hsplit
  have hid : id ∉ first := fun hmem => (List.nodup_append.1 hnodup).2.2 id hmem id (by simp) rfl
  have hskip : ∀ k ∈ first, decide (k ≠ id) = true := fun k hk =>
    decide_eq_true fun heq => hid (heq ▸ hk)
  rw [listedAfter, List.dropWhile_append_of_pos hskip]
  simp

theorem listedAfter_eq_nil {jobs : List JobId} (hid : id ∉ jobs) : listedAfter id jobs = [] := by
  have hskip : jobs.dropWhile (· ≠ id) = [] :=
    List.dropWhile_eq_nil_iff.2 fun k hk => decide_eq_true fun heq => hid (heq ▸ hk)
  rw [listedAfter, hskip, List.tail_nil]

theorem isPending_iff :
    t.isPending id = true ↔ ∃ e, t.find? id = some e ∧ e.job.status.isTerminal = false := by
  unfold isPending
  cases t.find? id <;> simp [JobStatus.isPending_eq]

theorem hasEnded_iff :
    t.hasEnded id = true ↔ ∃ e, t.find? id = some e ∧ e.job.status.isTerminal = true := by
  unfold hasEnded
  cases t.find? id <;> simp

theorem not_isPending_and_hasEnded : ¬(t.isPending id = true ∧ t.hasEnded id = true) := by
  rw [isPending_iff, hasEnded_iff]
  rintro ⟨⟨e, he, hpending⟩, e', he', hterminal⟩
  cases he.symm.trans he'
  simp [hpending] at hterminal

theorem find?_eq_none_iff :
    t.find? id = none ↔ t.isPending id = false ∧ t.hasEnded id = false := by
  unfold isPending hasEnded
  cases t.find? id with
  | none => simp
  | some e => cases h : e.job.status.isTerminal <;> simp [JobStatus.isPending_eq, h]

theorem Sound.mem_finished_iff (h : t.Sound) : id ∈ t.finished ↔ t.hasEnded id = true :=
  (h.tracks.mem_iff id).trans hasEnded_iff.symm

theorem ending?_eq_some :
    t.ending? e = some id ↔
      e.jobId = id ∧ t.isPending id = true ∧ (t.step e).hasEnded id = true := by
  unfold ending?
  split
  next h =>
    rw [Bool.and_eq_true] at h
    constructor
    · rintro ⟨⟩
      exact ⟨rfl, h⟩
    · rintro ⟨rfl, -⟩
      rfl
  next h =>
    rw [Bool.and_eq_true] at h
    constructor
    · rintro ⟨⟩
    · rintro ⟨rfl, hid⟩
      exact absurd hid h

theorem ending?_eq_none (h : (t.step e).hasEnded e.jobId = false) : t.ending? e = none := by
  simp [ending?, h]

theorem ending?_eq_none_of_refused (h : t.step e = t) : t.ending? e = none := by
  cases hending : t.ending? e with
  | none => rfl
  | some id =>
    obtain ⟨-, hbefore⟩ := ending?_eq_some.1 hending
    rw [h] at hbefore
    exact absurd hbefore not_isPending_and_hasEnded

theorem endings_append (t : JobTable α) (before after : List (Event α)) :
    t.endings (before ++ after) = t.endings before ++ (t.run before).endings after := by
  induction before generalizing t with
  | nil => rfl
  | cons e before ih => simp only [List.cons_append, endings, ih, run_cons, List.append_assoc]

theorem forgotten_append (t : JobTable α) (before after : List (Event α)) :
    t.forgotten (before ++ after) = t.forgotten before ++ (t.run before).forgotten after := by
  induction before generalizing t with
  | nil => rfl
  | cons e before ih => simp only [List.cons_append, forgotten, ih, run_cons, List.append_assoc]

theorem run_snoc (t : JobTable α) (before : List (Event α)) (e : Event α) :
    t.run (before ++ [e]) = (t.run before).step e := by
  rw [run_append, run_cons, run_nil]

theorem endings_snoc (t : JobTable α) (before : List (Event α)) (e : Event α) :
    t.endings (before ++ [e]) = t.endings before ++ ((t.run before).ending? e).toList := by
  rw [endings_append, endings, endings, List.append_nil]

theorem forgotten_snoc (t : JobTable α) (before : List (Event α)) (e : Event α) :
    t.forgotten (before ++ [e]) = t.forgotten before ++ ((t.run before).forgetting? e).toList := by
  rw [forgotten_append, forgotten, forgotten, List.append_nil]

theorem mem_endings {events : List (Event α)} :
    id ∈ t.endings events ↔ ∃ before e after,
      events = before ++ e :: after ∧ (t.run before).ending? e = some id := by
  induction events generalizing t with
  | nil => simp [endings]
  | cons first events ih =>
    rw [endings, List.mem_append, Option.mem_toList, ih]
    constructor
    · rintro (hfirst | ⟨before, e, after, rfl, hending⟩)
      · exact ⟨[], first, events, rfl, hfirst⟩
      · exact ⟨first :: before, e, after, rfl, hending⟩
    · rintro ⟨before, e, after, hsplit, hending⟩
      cases before with
      | nil =>
        cases hsplit
        exact .inl hending
      | cons first' before =>
        cases hsplit
        exact .inr ⟨before, e, after, rfl, hending⟩

end Readings

section Turns

/-- The queue after a job has joined it: at most the oldest job had to leave, and only if the queue
is full. -/
theorem Sound.exists_gone (h : t.Sound) (hretain : 0 < t.retain) (hout : id ∉ t.finished)
    (entry : JobEntry α) :
    ∃ gone, t.finished ++ [id] = gone ++ ((t.put id entry).finish id).finished ∧ id ∉ gone ∧
      gone.length ≤ 1 ∧
      (gone ≠ [] → ((t.put id entry).finish id).finished.length = t.retain) ∧
      ∀ k, ((t.put id entry).finish id).find? k =
        if k ∈ gone then none else if k = id then some entry else t.find? k := by
  have hlength := h.length_le
  have hoverflow : (t.finished ++ [id]).length - t.retain ≤ 1 := by
    rw [List.length_append, List.length_singleton]
    omega
  refine ⟨(t.finished ++ [id]).take ((t.finished ++ [id]).length - t.retain), ?_, ?_, ?_, ?_, ?_⟩
  · rw [finished_finish, finished_put, retain_put, List.take_append_drop]
  · rw [List.take_append_of_le_length (by rw [List.length_append, List.length_singleton]; omega)]
    exact fun hid => hout (List.mem_of_mem_take hid)
  · exact (List.length_take_le _ _).trans hoverflow
  · intro hgone
    have hfull : (t.finished ++ [id]).length - t.retain ≠ 0 :=
      fun hzero => hgone (by rw [hzero, List.take_zero])
    rw [finished_finish, finished_put, retain_put, List.length_drop]
    omega
  · intro k
    rw [find?_finish, finished_put, retain_put, find?_put]

/-- What an event does to the ended jobs. It leaves them alone, adds the job it is about or forgets
it. -/
inductive Turn (t : JobTable α) (e : Event α) : Prop
  | quiet (hfinished : (t.step e).finished = t.finished) (hending : t.ending? e = none)
      (hforgetting : t.forgetting? e = none)
  | ended (entry : JobEntry α) (hpending : t.isPending e.jobId = true)
      (hstep : t.step e = (t.put e.jobId entry).finish e.jobId)
      (hending : t.ending? e = some e.jobId) (hforgetting : t.forgetting? e = none)
  | forgot (hevent : e = .forget e.jobId) (hended : t.hasEnded e.jobId = true)
      (hstep : t.step e = t.remove e.jobId) (hending : t.ending? e = none)
      (hforgetting : t.forgetting? e = some e.jobId)

theorem turn_of_refused (hstep : t.step e = t) (hforgetting : t.forgetting? e = none) :
    Turn t e :=
  .quiet (congrArg finished hstep) (ending?_eq_none_of_refused hstep) hforgetting

theorem turn_of_moveTo? (h : t.Sound) (hretain : 0 < t.retain) (status : JobStatus)
    (fresh : Option α) (now : Timestamp)
    (hstep : t.step e = (t.moveTo? e.jobId status fresh now).getD t)
    (hforgetting : t.forgetting? e = none) : Turn t e := by
  cases hmove : t.moveTo? e.jobId status fresh now with
  | none => exact turn_of_refused (by rw [hstep, hmove]; rfl) hforgetting
  | some t' =>
    obtain ⟨old, job, hold, hcan, hstatus, ht'⟩ := moveTo?_eq_some hmove
    have hstep : t.step e = t' := by rw [hstep, hmove]; rfl
    have hpending : t.isPending e.jobId = true :=
      isPending_iff.2 ⟨old, hold, isTerminal_eq_false_of_canMoveTo hcan⟩
    rw [ht'] at hstep
    split at hstep
    next hterminal =>
      refine .ended _ hpending hstep (ending?_eq_some.2 ⟨rfl, hpending, ?_⟩) hforgetting
      have hout : e.jobId ∉ t.finished := fun hin =>
        not_isPending_and_hasEnded ⟨hpending, h.mem_finished_iff.1 hin⟩
      obtain ⟨gone, -, hstays, -, -, hfind⟩ :=
        h.exists_gone hretain hout ⟨job, fresh.or old.result, status⟩
      rw [hstep, hasEnded_iff]
      exact ⟨_, (hfind _).trans (by rw [if_neg hstays, if_pos rfl]), hstatus ▸ hterminal⟩
    next hrunning =>
      refine .quiet (by rw [hstep, finished_put]) (ending?_eq_none ?_) hforgetting
      rw [hstep, hasEnded, find?_put, if_pos rfl]
      simpa [hstatus] using hrunning

theorem after_cancel (t : JobTable α) (id : JobId) (now : Timestamp) :
    t.after (t.cancel id now) = (t.moveTo? id .cancelled none now).getD t := by
  cases hcancel : t.cancel id now with
  | ok t' =>
    rw [cancel_eq_ok.1 hcancel]
    rfl
  | error cause =>
    cases hmove : t.moveTo? id .cancelled none now with
    | none => rfl
    | some t' => cases hcancel.symm.trans (cancel_eq_ok.2 hmove)

theorem Sound.turn (h : t.Sound) (hretain : 0 < t.retain) (e : Event α) : Turn t e := by
  cases e with
  | submit id numCircuits backend now =>
    refine .quiet rfl (ending?_eq_none ?_) rfl
    show (t.put id _).hasEnded id = false
    rw [hasEnded, find?_put, if_pos rfl]
    rfl
  | start id now => exact turn_of_moveTo? h hretain .running none now rfl rfl
  | report id outcome now =>
    exact turn_of_moveTo? h hretain (WorkerEnd.status outcome) (WorkerEnd.result? outcome) now rfl
      rfl
  | cancel id now => exact turn_of_moveTo? h hretain .cancelled none now (after_cancel t id now) rfl
  | forget id =>
    by_cases hended : t.hasEnded id = true
    · have hforget : t.forget id = .ok (t.remove id) :=
        forget_eq_ok.2 ⟨hasEnded_iff.1 hended, rfl⟩
      have hstep : t.step (.forget id) = t.remove id := by
        rw [JobTable.step, hforget]
        rfl
      refine .forgot rfl hended hstep (ending?_eq_none ?_) (if_pos hended)
      rw [hstep, hasEnded, find?_remove]
      exact if_pos rfl ▸ rfl
    · refine turn_of_refused ?_ (if_neg hended)
      rw [JobTable.step]
      cases hforget : t.forget id with
      | error cause => rfl
      | ok t' => exact absurd (hasEnded_iff.2 (forget_eq_ok.1 hforget).1) hended

end Turns

section Records

/-- The lists of ended and of forgotten jobs that belong to a table. A job ends once and for all,
and what is left of the ended jobs without the forgotten ones is what the table has evicted,
followed by its queue. -/
structure Records (t : JobTable α) (ended forgotten : List JobId) : Prop where
  sound : t.Sound
  nodup : ended.Nodup
  settled : ∀ id ∈ ended, t.isPending id = false
  absent : ∀ id ∈ forgotten, id ∈ ended ∧ t.find? id = none
  order : ∃ evicted, ended.filter (· ∉ forgotten) = evicted ++ t.finished

variable {ended forgotten : List JobId}

theorem records_empty (retain : ℕ) : (empty retain : JobTable α).Records [] [] :=
  ⟨sound_empty retain, List.nodup_nil, by simp, by simp, [], rfl⟩

theorem isPending_step_eq_false (hid : id ∉ e.submitted?) (h : t.isPending id = false) :
    (t.step e).isPending id = false := by
  rw [← Bool.not_eq_true, isPending_iff] at h ⊢
  rintro ⟨entry, hentry, hpending⟩
  cases hold : t.find? id with
  | none => simp [(change_step t e).find?_eq_none hid hold] at hentry
  | some old =>
    rcases (change_step t e).find?_eq hid hold with hsame | hgone | ⟨entry', -, hmove⟩
    · cases hsame.symm.trans hentry
      exact h ⟨_, hold, hpending⟩
    · simp [hgone] at hentry
    · exact h ⟨old, hold, isTerminal_eq_false_of_canMoveTo hmove⟩

/-- A job that ends is the last one to have ended. -/
theorem Records.filter_append (h : t.Records ended forgotten) (hpending : t.isPending id = true) :
    (ended ++ [id]).filter (· ∉ forgotten) = ended.filter (· ∉ forgotten) ++ [id] := by
  have hout : id ∉ forgotten := fun hid => by
    obtain ⟨entry, hentry, -⟩ := isPending_iff.1 hpending
    simp [(h.absent id hid).2] at hentry
  simp [hout]

theorem Records.order_step (h : t.Records ended forgotten) (hretain : 0 < t.retain)
    (e : Event α) : ∃ evicted,
      (ended ++ (t.ending? e).toList).filter (· ∉ forgotten ++ (t.forgetting? e).toList) =
        evicted ++ (t.step e).finished := by
  obtain ⟨evicted, horder⟩ := h.order
  cases h.sound.turn hretain e with
  | quiet hfinished hending hforgetting =>
    exact ⟨evicted, by simpa [hending, hforgetting, hfinished] using horder⟩
  | ended entry hpending hstep hending hforgetting =>
    have hout : e.jobId ∉ t.finished := fun hin =>
      not_isPending_and_hasEnded ⟨hpending, h.sound.mem_finished_iff.1 hin⟩
    obtain ⟨gone, hqueue, -⟩ := h.sound.exists_gone hretain hout entry
    refine ⟨evicted ++ gone, ?_⟩
    rw [hending, hforgetting, hstep, Option.toList_some, Option.toList_none, List.append_nil,
      h.filter_append hpending, horder, List.append_assoc, List.append_assoc, hqueue]
  | forgot hevent hended hstep hending hforgetting =>
    refine ⟨evicted.filter (· ≠ e.jobId), ?_⟩
    have hqueue : (t.remove e.jobId).finished = t.finished.filter (· ≠ e.jobId) := rfl
    rw [hstep, hqueue, ← List.filter_append, ← horder, List.filter_filter, hending, hforgetting]
    simp [Bool.and_comm]

theorem Records.step (h : t.Records ended forgotten) (hretain : 0 < t.retain)
    (hnew : ∀ id ∈ e.submitted?, id ∉ ended ∧ t.find? id = none) :
    (t.step e).Records (ended ++ (t.ending? e).toList)
      (forgotten ++ (t.forgetting? e).toList) where
  sound := h.sound.change (change_step t e) fun id hid => (hnew id hid).2
  nodup := by
    refine List.nodup_append.2 ⟨h.nodup, Option.toList_nodup _, fun k hk k' hk' heq => ?_⟩
    obtain ⟨-, hpending, -⟩ := ending?_eq_some.1 (Option.mem_toList.1 hk')
    simp [heq ▸ h.settled k hk] at hpending
  settled := by
    intro id hid
    rcases List.mem_append.1 hid with hid | hid
    · exact isPending_step_eq_false (fun hnow => (hnew id hnow).1 hid) (h.settled id hid)
    · obtain ⟨-, -, hended⟩ := ending?_eq_some.1 (Option.mem_toList.1 hid)
      exact Bool.eq_false_iff.2 fun hpending => not_isPending_and_hasEnded ⟨hpending, hended⟩
  absent := by
    intro id hid
    rcases List.mem_append.1 hid with hid | hid
    · obtain ⟨hin, hnone⟩ := h.absent id hid
      exact ⟨List.mem_append_left _ hin,
        (change_step t e).find?_eq_none (fun hnow => (hnew id hnow).1 hin) hnone⟩
    · obtain ⟨evicted, horder⟩ := h.order
      cases h.sound.turn hretain e with
      | quiet _ _ hforgetting => simp [hforgetting] at hid
      | ended _ _ _ _ hforgetting => simp [hforgetting] at hid
      | forgot hevent hended hstep _ hforgetting =>
        obtain rfl : id = e.jobId := by simpa [hforgetting] using hid
        have hin : e.jobId ∈ ended.filter (· ∉ forgotten) :=
          horder ▸ List.mem_append_right _ (h.sound.mem_finished_iff.2 hended)
        exact ⟨List.mem_append_left _ (List.mem_of_mem_filter hin),
          by rw [hstep, find?_remove, if_pos rfl]⟩
  order := h.order_step hretain e

end Records

section Runs

variable {retain : ℕ} {events : List (Event α)}

theorem nodup_submitted_left {before after : List (Event α)}
    (h : (submitted (before ++ after)).Nodup) : (submitted before).Nodup := by
  rw [submitted_append] at h
  exact h.sublist (List.sublist_append_left _ _)

theorem not_mem_submitted_right {before after : List (Event α)}
    (h : (submitted (before ++ after)).Nodup) (hid : id ∈ submitted before) :
    id ∉ submitted after := by
  rw [submitted_append] at h
  exact fun hagain => (List.nodup_append.1 h).2.2 id hid id hagain rfl

theorem mem_submitted_of_find? {entry : JobEntry α}
    (h : ((empty retain).run events).find? id = some entry) : id ∈ submitted events :=
  by_contra fun hid => by simp [find?_run_of_none hid (find?_empty id retain)] at h

theorem mem_submitted_of_mem_endings (h : id ∈ (empty retain).endings events) :
    id ∈ submitted events := by
  obtain ⟨before, e, after, rfl, hending⟩ := mem_endings.1 h
  obtain ⟨-, hpending, -⟩ := ending?_eq_some.1 hending
  obtain ⟨entry, hentry, -⟩ := isPending_iff.1 hpending
  rw [submitted_append]
  exact List.mem_append_left _ (mem_submitted_of_find? hentry)

/-- In a run without two jobs under one id, what an event submits is new to the history. -/
theorem new_of_nodup (hfresh : (submitted (events ++ [e])).Nodup) :
    ∀ id ∈ e.submitted?, id ∉ (empty retain).endings events ∧
      ((empty retain).run events).find? id = none := by
  intro id hid
  have hout : id ∉ submitted events := fun hin => by
    refine not_mem_submitted_right hfresh hin ?_
    rw [submitted_cons]
    exact List.mem_append_left _ (Option.mem_toList.2 hid)
  exact ⟨fun hin => hout (mem_submitted_of_mem_endings hin), find?_run_of_none hout rfl⟩

/-- A run of a table that is empty at first keeps its history. -/
theorem records_run (hretain : 0 < retain) (hfresh : (submitted events).Nodup) :
    ((empty retain).run events).Records ((empty retain).endings events)
      ((empty retain).forgotten events) := by
  induction events using List.reverseRecOn with
  | nil => exact records_empty retain
  | append_singleton events e ih =>
    rw [run_snoc, endings_snoc, forgotten_snoc]
    exact (ih (nodup_submitted_left hfresh)).step (by rwa [retain_run]) (new_of_nodup hfresh)

end Runs

end JobTable

end QuantumSim
