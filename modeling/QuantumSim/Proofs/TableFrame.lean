import Mathlib
import QuantumSim.Proofs.JobHistory

/-!
What a change of the job table leaves alone. Apart from the job it is about, a table loses the
oldest ended jobs that its queue has no room for, with their entries, and keeps the entry of every
other job.
-/
namespace QuantumSim.JobTable

variable {α : Type} {t t' : JobTable α} {id : JobId}

/-- The jobs that a queue is too long by, which are the ones that ended first. -/
def leaving (t : JobTable α) (queue : List JobId) : List JobId :=
  queue.take (queue.length - t.retain)

/-- The new table has the entries of the old one under all ids but the given one, except for the
ended jobs that have left a queue which was too long. -/
structure TouchesOnly (t t' : JobTable α) (id : JobId) (queue : List JobId) : Prop where
  retain_eq : t'.retain = t.retain
  queue_eq : t.leaving queue ++ t'.finished = queue
  length_le : (t.leaving queue).length ≤ 1
  left (k : JobId) : k ∈ t.leaving queue → t'.find? k = none ∧ (k = id ∨ t.hasEnded k = true)
  others (k : JobId) : k ≠ id → k ∉ t.leaving queue → t'.find? k = t.find? k

/-- A queue with room for all its jobs loses none. -/
theorem leaving_eq_nil {queue : List JobId} (h : queue.length ≤ t.retain) :
    t.leaving queue = [] := by
  rw [leaving, Nat.sub_eq_zero_of_le h, List.take_zero]

theorem Sound.touchesOnly_of_fits (h : t.Sound) {finished : List JobId} {jobs : Dict (JobEntry α)}
    (hfits : finished.length ≤ t.finished.length)
    (hothers : ∀ k, k ≠ id → jobs.get? k.text = t.find? k) :
    t.TouchesOnly ⟨jobs, finished, t.retain⟩ id finished := by
  have hnone : t.leaving finished = [] := leaving_eq_nil (hfits.trans h.length_le)
  constructor
  · rfl
  · rw [hnone, List.nil_append]
  · simp [hnone]
  · simp [hnone]
  · exact fun k hk _ => hothers k hk

theorem Sound.touchesOnly_refl (h : t.Sound) (id : JobId) : t.TouchesOnly t id t.finished :=
  h.touchesOnly_of_fits le_rfl fun _ _ => rfl

theorem Sound.touchesOnly_put (h : t.Sound) (id : JobId) (e : JobEntry α) :
    t.TouchesOnly (t.put id e) id t.finished :=
  h.touchesOnly_of_fits le_rfl fun k hk => (find?_put t id k e).trans (if_neg hk)

theorem Sound.touchesOnly_remove (h : t.Sound) (id : JobId) :
    t.TouchesOnly (t.remove id) id (t.finished.filter (· ≠ id)) :=
  h.touchesOnly_of_fits (List.length_filter_le ..) fun k hk =>
    (find?_remove t id k).trans (if_neg hk)

/-- A job that ends joins the queue, and the first of the queue leaves if it was full. -/
theorem Sound.touchesOnly_finish (h : t.Sound) (id : JobId) (e : JobEntry α) :
    t.TouchesOnly ((t.put id e).finish id) id (t.finished ++ [id]) := by
  have hfind (k : JobId) : ((t.put id e).finish id).find? k =
      if k ∈ t.leaving (t.finished ++ [id]) then none else (t.put id e).find? k :=
    find?_finish (t.put id e) id k
  have hlength := h.length_le
  constructor
  · rfl
  · exact List.take_append_drop _ _
  · rw [leaving, List.length_take, List.length_append, List.length_singleton]
    omega
  · intro k hk
    refine ⟨(hfind k).trans (if_pos hk), ?_⟩
    rcases List.mem_append.1 (List.mem_of_mem_take hk) with hold | hnew
    · exact .inr (h.mem_finished_iff.1 hold)
    · exact .inl (List.mem_singleton.1 hnew)
  · intro k hne hk
    rw [hfind, if_neg hk, find?_put, if_neg hne]

/-- The queue after a step of a job's life, before it is cut to the number of jobs retained. -/
def queueAfter (t : JobTable α) (id : JobId) (status : JobStatus) : List JobId :=
  if status.isTerminal then t.finished ++ [id] else t.finished

theorem Sound.touchesOnly_moveTo? (h : t.Sound) {status : JobStatus} {fresh : Option α}
    {now : Timestamp} (hmove : t.moveTo? id status fresh now = some t') :
    t.TouchesOnly t' id (t.queueAfter id status) := by
  obtain ⟨old, job, -, -, -, rfl⟩ := moveTo?_eq_some hmove
  unfold queueAfter
  split
  · exact h.touchesOnly_finish id _
  · exact h.touchesOnly_put id _

/-- Whatever happens to a table, it touches no job but the one it is about and the ones that
leave. -/
theorem Sound.exists_touchesOnly_step (h : t.Sound) (e : Event α) :
    ∃ queue, t.TouchesOnly (t.step e) e.jobId queue := by
  have hmoveTo (id : JobId) (status : JobStatus) (fresh : Option α) (now : Timestamp) :
      ∃ queue, t.TouchesOnly ((t.moveTo? id status fresh now).getD t) id queue := by
    cases hmove : t.moveTo? id status fresh now with
    | none => exact ⟨_, h.touchesOnly_refl id⟩
    | some t' => exact ⟨_, h.touchesOnly_moveTo? hmove⟩
  cases e with
  | submit id numCircuits backend now => exact ⟨_, h.touchesOnly_put id _⟩
  | start id now => exact hmoveTo id .running none now
  | report id outcome now => exact hmoveTo id _ _ now
  | cancel id now =>
    rw [JobTable.step, after_cancel]
    exact hmoveTo id .cancelled none now
  | forget id =>
    rw [JobTable.step]
    cases hforget : t.forget id with
    | error cause => exact ⟨_, h.touchesOnly_refl id⟩
    | ok t' =>
      obtain ⟨-, rfl⟩ := forget_eq_ok.1 hforget
      exact ⟨_, h.touchesOnly_remove id⟩

/-- A job that an event is not about keeps its entry, or it had ended and is gone. -/
theorem Sound.find?_step_of_ne (h : t.Sound) {e : Event α} {k : JobId} (hk : k ≠ e.jobId) :
    (t.step e).find? k = t.find? k ∨ (t.step e).find? k = none ∧ t.hasEnded k = true := by
  obtain ⟨queue, htouches⟩ := h.exists_touchesOnly_step e
  by_cases hleaves : k ∈ t.leaving queue
  · obtain ⟨hgone, hended⟩ := htouches.left k hleaves
    exact .inr ⟨hgone, hended.resolve_left hk⟩
  · exact .inl (htouches.others k hk hleaves)

end QuantumSim.JobTable
