import Mathlib
import QuantumSim.Proofs.JobEvents

/-!
The bookkeeping of the job table. The jobs are kept in a map and the ended ones, once more, in a
queue in the order in which they ended. Every event keeps the two in step, so that the difference of
their lengths is the number of jobs that have not ended.
-/
namespace QuantumSim.JobTable

variable {α : Type} {t t' : JobTable α} {queue : List JobId}

/-- The queue lists every ended job of the table once and no other id, and the jobs with a result
are the completed ones. -/
structure Tracks (t : JobTable α) (queue : List JobId) : Prop where
  nodup : queue.Nodup
  mem_iff (id : JobId) : id ∈ queue ↔ ∃ e, t.find? id = some e ∧ e.job.status.isTerminal
  result_iff (id : JobId) (e : JobEntry α) :
    t.find? id = some e → (e.result.isSome ↔ e.job.status = .completed)

structure Sound (t : JobTable α) : Prop where
  tracks : t.Tracks t.finished
  length_le : t.finished.length ≤ t.retain

/-- The number of jobs in the table that are queued or running. -/
def unfinished (t : JobTable α) : Nat := t.jobs.values.countP fun e => e.job.status.isPending

theorem Tracks.not_mem (h : t.Tracks queue) {id : JobId}
    (hpending : ∀ e, t.find? id = some e → e.job.status.isTerminal = false) : id ∉ queue := by
  intro hmem
  obtain ⟨e, he, hterminal⟩ := (h.mem_iff id).1 hmem
  simp [hpending e he] at hterminal

theorem ne_completed {s : JobStatus} (h : s.isTerminal = false) : s ≠ .completed := by
  rintro rfl
  cases h

theorem Tracks.result_eq_none (h : t.Tracks queue) {id : JobId} {e : JobEntry α}
    (he : t.find? id = some e) (hpending : e.job.status.isTerminal = false) : e.result = none := by
  have hiff := h.result_iff id e he
  rw [← Option.not_isSome_iff_eq_none]
  exact fun hsome => ne_completed hpending (hiff.1 hsome)

/-- A job that has not ended gets another entry, and joins the queue if it ends with it. -/
theorem Tracks.put (h : t.Tracks queue) (id : JobId) (e : JobEntry α)
    (hpending : ∀ old, t.find? id = some old → old.job.status.isTerminal = false)
    (hresult : e.result.isSome ↔ e.job.status = .completed) :
    (t.put id e).Tracks (if e.job.status.isTerminal then queue ++ [id] else queue) := by
  have hout : id ∉ queue := h.not_mem hpending
  have hmem (k : JobId) :
      (∃ e', (t.put id e).find? k = some e' ∧ e'.job.status.isTerminal) ↔
        if k = id then e.job.status.isTerminal = true else k ∈ queue := by
    rw [find?_put]
    split
    · simp
    · rw [h.mem_iff]
  constructor
  · split
    · refine List.nodup_append.2 ⟨h.nodup, List.nodup_singleton id, fun k hk k' hk' heq => ?_⟩
      exact hout (List.mem_singleton.1 hk' ▸ heq ▸ hk)
    · exact h.nodup
  · intro k
    rw [hmem]
    by_cases hk : k = id
    · subst hk
      split
      next hterminal => simp [hterminal]
      next hterminal => simp [hterminal, hout]
    · split <;> simp [hk]
  · intro k e' he'
    rw [find?_put] at he'
    split at he'
    · cases he'
      exact hresult
    · exact h.result_iff k e' he'

/-- Ended jobs leave the table and the queue together. -/
theorem Tracks.discard (h : t.Tracks queue) {kept : List JobId} (hkept : kept.Sublist queue)
    (hentry : ∀ k, t'.find? k = if k ∈ queue ∧ k ∉ kept then none else t.find? k) :
    t'.Tracks kept := by
  refine ⟨h.nodup.sublist hkept, fun k => ?_, fun k e he => ?_⟩
  · rw [hentry]
    split
    next hgone => simp [hgone.2]
    next hstay =>
      rw [← h.mem_iff]
      exact ⟨fun hk => hkept.subset hk, fun hk => by_contra fun hout => hstay ⟨hk, hout⟩⟩
  · rw [hentry] at he
    split at he
    · cases he
    · exact h.result_iff k e he

/-- A table whose queue has just been joined by a job, after the oldest have left. -/
theorem sound_finish {id : JobId} (h : t.Tracks (t.finished ++ [id])) : (t.finish id).Sound := by
  have htracks : (t.finish id).Tracks (t.finish id).finished := by
    refine h.discard (List.drop_sublist _ _) fun k => ?_
    rw [find?_finish, finished_finish]
    set queue := t.finished ++ [id]
    set overflow := queue.length - t.retain
    have hsplit : k ∈ queue ↔ k ∈ queue.take overflow ∨ k ∈ queue.drop overflow := by
      rw [← List.mem_append, List.take_append_drop]
    have hdisjoint : k ∈ queue.take overflow → k ∉ queue.drop overflow :=
      fun htake hdrop => List.disjoint_take_drop h.nodup le_rfl htake hdrop
    have hgone : k ∈ queue ∧ k ∉ queue.drop overflow ↔ k ∈ queue.take overflow := by tauto
    simp only [hgone]
  exact ⟨htracks, length_finished_finish t id⟩

theorem sound_empty (retain : Nat) : (empty retain : JobTable α).Sound :=
  ⟨⟨List.nodup_nil, by simp [empty, find?], by simp⟩, Nat.zero_le _⟩

theorem Sound.remove (h : t.Sound) {id : JobId} {old : JobEntry α} (hold : t.find? id = some old)
    (hterminal : old.job.status.isTerminal) : (t.remove id).Sound := by
  have hin : id ∈ t.finished := (h.tracks.mem_iff id).2 ⟨old, hold, hterminal⟩
  refine ⟨h.tracks.discard List.filter_sublist fun k => ?_, ?_⟩
  · rw [find?_remove]
    by_cases hk : k = id
    · subst hk
      simp [JobTable.remove, hin]
    · simp only [JobTable.remove, List.mem_filter]
      simp [hk]
  · exact (List.length_filter_le _ _).trans h.length_le

theorem isTerminal_eq_false_of_canMoveTo {a b : JobStatus} (h : a.canMoveTo b) :
    a.isTerminal = false := by
  cases a <;> simp_all [JobStatus.canMoveTo, JobStatus.isTerminal]

/-- No event upsets the bookkeeping, as long as jobs are entered under ids the table does not
have. -/
theorem Sound.change {entering : Option JobId} (h : t.Sound) (hchange : Change t entering t')
    (hnew : ∀ id ∈ entering, t.find? id = none) : t'.Sound := by
  cases hchange with
  | refused => exact h
  | entered id job hstatus =>
    have hpending : job.status.isTerminal = false := by rw [hstatus]; rfl
    have hput := h.tracks.put id ⟨job, none, job.status⟩ (by simp [hnew id rfl])
      (by simp [hstatus])
    rw [hpending] at hput
    exact ⟨hput, h.length_le⟩
  | moved id old job hold hmove hpending =>
    have hold' : old.job.status.isTerminal = false := isTerminal_eq_false_of_canMoveTo hmove
    have hput := h.tracks.put id ⟨job, old.result, job.status⟩ (by simp [hold, hold'])
      (by simp [h.tracks.result_eq_none hold hold', ne_completed hpending])
    rw [hpending] at hput
    exact ⟨hput, h.length_le⟩
  | ended id old job fresh hold hmove hterminal hfresh =>
    have hold' : old.job.status.isTerminal = false := isTerminal_eq_false_of_canMoveTo hmove
    have hput := h.tracks.put id ⟨job, fresh.or old.result, job.status⟩ (by simp [hold, hold'])
      (by rw [h.tracks.result_eq_none hold hold', Option.or_none, hfresh])
    rw [hterminal] at hput
    exact sound_finish hput
  | forgotten id old hold hterminal => exact h.remove hold hterminal

/-- An event enters a job under no id but its own. -/
theorem Change.find?_eq_none {entering : Option JobId} (h : Change t entering t') {id : JobId}
    (hid : id ∉ entering) (hnone : t.find? id = none) : t'.find? id = none := by
  cases h with
  | refused => exact hnone
  | entered k job hstatus =>
    have hne : id ≠ k := fun h => hid (h ▸ rfl)
    rw [find?_put, if_neg hne, hnone]
  | moved k old job hold =>
    have hne : id ≠ k := fun h => by simp [← h, hnone] at hold
    rw [find?_put, if_neg hne, hnone]
  | ended k old job fresh hold =>
    have hne : id ≠ k := fun h => by simp [← h, hnone] at hold
    rw [find?_finish, find?_put, if_neg hne, hnone, ite_self]
  | forgotten k old hold => rw [find?_remove, hnone, ite_self]

/-- The jobs still to be submitted have ids of their own, which the table does not have yet. -/
structure Fresh (t : JobTable α) (events : List (Event α)) : Prop where
  nodup : (submitted events).Nodup
  find?_eq_none (id : JobId) : id ∈ submitted events → t.find? id = none

theorem fresh_empty (retain : Nat) {events : List (Event α)} (h : (submitted events).Nodup) :
    (empty retain).Fresh events :=
  ⟨h, fun _ _ => rfl⟩

theorem submitted_cons (e : Event α) (events : List (Event α)) :
    submitted (e :: events) = e.submitted?.toList ++ submitted events := by
  unfold submitted
  cases h : e.submitted? <;> simp [h]

theorem submitted_append (before after : List (Event α)) :
    submitted (before ++ after) = submitted before ++ submitted after := List.filterMap_append ..

theorem Fresh.step {e : Event α} {events : List (Event α)} (h : t.Fresh (e :: events)) :
    (t.step e).Fresh events := by
  obtain ⟨hnodup, hnone⟩ := h
  rw [submitted_cons] at hnodup hnone
  obtain ⟨-, hrest, hdisjoint⟩ := List.nodup_append.1 hnodup
  refine ⟨hrest, fun id hid => ?_⟩
  have hout : id ∉ e.submitted? := fun hmem => hdisjoint id (by simpa using hmem) id hid rfl
  exact (change_step t e).find?_eq_none hout (hnone id (List.mem_append_right _ hid))

theorem Sound.step (h : t.Sound) {e : Event α} {events : List (Event α)}
    (hfresh : t.Fresh (e :: events)) : (t.step e).Sound := by
  refine h.change (change_step t e) fun id hid => hfresh.find?_eq_none id ?_
  rw [submitted_cons]
  exact List.mem_append_left _ (by simpa using hid)

theorem Sound.run (h : t.Sound) {events : List (Event α)} (hfresh : t.Fresh events) :
    (t.run events).Sound := by
  induction events generalizing t with
  | nil => exact h
  | cons e events ih => exact ih (h.step hfresh) hfresh.step

theorem Change.retain_eq {entering : Option JobId} (h : Change t entering t') :
    t'.retain = t.retain := by
  cases h <;> rfl

theorem retain_run (t : JobTable α) (events : List (Event α)) :
    (t.run events).retain = t.retain := by
  induction events generalizing t with
  | nil => rfl
  | cons e events ih => rw [run_cons, ih, (change_step t e).retain_eq]

/-- Waiters have been told the status of every job in the table. -/
def Announced (t : JobTable α) : Prop :=
  ∀ (id : JobId) (e : JobEntry α), t.find? id = some e → e.sent = e.job.status

theorem announced_empty (retain : Nat) : (empty retain : JobTable α).Announced := nofun

theorem Announced.put (h : t.Announced) (id : JobId) {e : JobEntry α}
    (he : e.sent = e.job.status) : (t.put id e).Announced := by
  intro k e' hk
  rw [find?_put] at hk
  split at hk
  · cases hk
    exact he
  · exact h k e' hk

/-- No event changes a status without sending it. -/
theorem Announced.change {entering : Option JobId} (h : t.Announced)
    (hchange : Change t entering t') : t'.Announced := by
  cases hchange with
  | refused => exact h
  | entered id job _ => exact h.put id rfl
  | moved id old job _ _ _ => exact h.put id rfl
  | ended id old job fresh _ _ _ _ =>
    intro k e hk
    rw [find?_finish] at hk
    split at hk
    · cases hk
    · exact h.put id rfl k e hk
  | forgotten id old _ _ =>
    intro k e hk
    rw [find?_remove] at hk
    split at hk
    · cases hk
    · exact h k e hk

theorem Announced.run (h : t.Announced) (events : List (Event α)) : (t.run events).Announced := by
  induction events generalizing t with
  | nil => exact h
  | cons e events ih => exact ih (h.change (change_step t e))

/-- The jobs held are the ended ones, which the queue lists, and the unfinished ones. -/
theorem Tracks.held_eq (h : t.Tracks queue) : t.held = queue.length + t.unfinished := by
  set ended := t.jobs.entries.filter fun p => p.2.job.status.isTerminal
  have hkeys : (ended.map (·.1)).Nodup := t.jobs.nodup_keys.sublist (List.filter_sublist.map _)
  have hmem (text : String) : text ∈ ended.map (·.1) ↔ text ∈ queue.map (·.text) := by
    have hqueue : text ∈ queue.map (·.text) ↔ (⟨text⟩ : JobId) ∈ queue :=
      ⟨fun hm => by obtain ⟨id, hid, rfl⟩ := List.mem_map.1 hm; exact hid,
        fun hm => List.mem_map.2 ⟨_, hm, rfl⟩⟩
    rw [hqueue, h.mem_iff]
    simp [ended, find?, Dict.get?_eq_some_iff]
  have hperm : (ended.map (·.1)).Perm (queue.map (·.text)) :=
    (List.perm_ext_iff_of_nodup hkeys
      (h.nodup.map fun a b hab => text_inj.1 hab)).2 hmem
  have hlength : ended.length = queue.length := by simpa using hperm.length_eq
  have hpending (e : JobEntry α) : e.job.status.isPending = !e.job.status.isTerminal := by
    cases e.job.status <;> rfl
  have hsplit := List.length_eq_countP_add_countP (l := t.jobs.entries)
    fun p => p.2.job.status.isTerminal
  rw [← hlength, held, Dict.size, unfinished, Dict.values, List.countP_map, hsplit,
    List.countP_eq_length_filter]
  simp [Function.comp_def, hpending, ended]

theorem Sound.pending_eq (h : t.Sound) : t.pending = .ok t.unfinished := by
  have hheld := h.tracks.held_eq
  unfold pending
  rw [if_pos (by omega), hheld, Nat.add_sub_cancel_left]

/-- A completed job always has its result. -/
theorem Sound.result_ne_backend (h : t.Sound) (id : JobId) (message : String) :
    t.result id ≠ .error (.backend message) := by
  unfold result entry
  cases he : t.find? id with
  | none => simp
  | some e =>
    rw [ok_bind]
    cases hs : e.job.status with
    | completed =>
      obtain ⟨r, hr⟩ := Option.isSome_iff_exists.1 ((h.tracks.result_iff id e he).2 hs)
      simp [hr, pure_eq]
    | queued | running | cancelled | failed reason =>
      simp [throw_eq]

end QuantumSim.JobTable
