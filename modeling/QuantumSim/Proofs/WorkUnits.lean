import Mathlib
import QuantumSim.Proofs.Outcome

/-!
Work units on a shared array. A unit reads and writes single elements, one access after the other.
Units that keep to elements of their own do not notice each other: run one by one in any order, or
with their accesses interleaved in any way, they leave the same array.
-/
namespace QuantumSim

/-- What a work unit has left to do to an array. -/
inductive WorkUnit (α : Type) where
  | done
  | read (i : ℕ) (next : α → WorkUnit α)
  | write (i : ℕ) (a : α) (next : WorkUnit α)

variable {α : Type}

/-- Two arrays with the same elements at the given indices. -/
def AgreeOn (indices : Set ℕ) (xs ys : Array α) : Prop := ∀ i ∈ indices, xs[i]? = ys[i]?

theorem AgreeOn.refl (indices : Set ℕ) (xs : Array α) : AgreeOn indices xs xs := fun _ _ => rfl

theorem AgreeOn.symm {indices : Set ℕ} {xs ys : Array α} (h : AgreeOn indices xs ys) :
    AgreeOn indices ys xs := fun i hi => (h i hi).symm

theorem AgreeOn.trans {indices : Set ℕ} {xs ys zs : Array α} (hxy : AgreeOn indices xs ys)
    (hyz : AgreeOn indices ys zs) : AgreeOn indices xs zs :=
  fun i hi => (hxy i hi).trans (hyz i hi)

theorem AgreeOn.mono {indices indices' : Set ℕ} {xs ys : Array α} (h : AgreeOn indices' xs ys)
    (hsub : indices ⊆ indices') : AgreeOn indices xs ys := fun i hi => h i (hsub hi)

theorem agreeOn_set {indices : Set ℕ} {i : ℕ} (hi : i ∉ indices) (a : α) (xs : Array α) :
    AgreeOn indices (xs.setIfInBounds i a) xs := by
  intro p hp
  have hne : i ≠ p := fun h => hi (h ▸ hp)
  simp [hne]

namespace WorkUnit

variable {own : Set ℕ} {u : WorkUnit α} {xs xs' ys : Array α}

/-- The next access of a unit: what it has left to do after it, and the array. -/
def step : WorkUnit α → Array α → Checked (WorkUnit α × Array α)
  | done, xs => .ok (done, xs)
  | read i next, xs => do return (next (← elementAt xs i), xs)
  | write i a next, xs =>
    if i < xs.size then .ok (next, xs.setIfInBounds i a) else .error .index

/-- Runs a unit to its end. -/
def run : WorkUnit α → Array α → Checked (Array α)
  | done, xs => .ok xs
  | read i next, xs => do (next (← elementAt xs i)).run xs
  | write i a next, xs => if i < xs.size then next.run (xs.setIfInBounds i a) else .error .index

/-- The unit accesses elements of its own only. -/
inductive Within (own : Set ℕ) : WorkUnit α → Prop
  | done : Within own done
  | read {i : ℕ} {next : α → WorkUnit α} (hi : i ∈ own) (hnext : ∀ a, Within own (next a)) :
      Within own (read i next)
  | write {i : ℕ} {a : α} {next : WorkUnit α} (hi : i ∈ own) (hnext : Within own next) :
      Within own (write i a next)

/-- A unit whose elements are all there runs to its end and leaves the other elements alone. -/
theorem Within.exists_run (h : u.Within own) (hown : ∀ i ∈ own, i < xs.size) :
    ∃ ys, u.run xs = .ok ys ∧ ys.size = xs.size ∧ AgreeOn ownᶜ ys xs := by
  induction h generalizing xs with
  | done => exact ⟨xs, rfl, rfl, AgreeOn.refl _ xs⟩
  | @read i next hi hnext ih =>
    have hin : i < xs.size := hown i hi
    obtain ⟨ys, hrun, hys⟩ := ih xs[i] hown
    exact ⟨ys, by rw [run, elementAt_eq hin, ok_bind, hrun], hys⟩
  | @write i a next hi hnext ih =>
    have hkept : ∀ p ∈ own, p < (xs.setIfInBounds i a).size := by simpa using hown
    obtain ⟨ys, hrun, hsize, hothers⟩ := ih hkept
    have hset : AgreeOn ownᶜ (xs.setIfInBounds i a) xs := agreeOn_set (not_not.2 hi) a xs
    exact ⟨ys, by rw [run, if_pos (hown i hi), hrun], by simpa using hsize, hothers.trans hset⟩

/-- What a unit makes of its own elements depends on nothing else. -/
theorem Within.exists_run_of_agreeOn (h : u.Within own) (hagree : AgreeOn own xs xs')
    (hrun : u.run xs = .ok ys) : ∃ ys', u.run xs' = .ok ys' ∧ AgreeOn own ys ys' := by
  induction h generalizing xs xs' with
  | done =>
    cases hrun
    exact ⟨xs', rfl, hagree⟩
  | @read i next hi hnext ih =>
    have helement : elementAt xs i = elementAt xs' i := by rw [elementAt, elementAt, hagree i hi]
    obtain ⟨a, ha, hrest⟩ := bind_eq_ok.1 hrun
    obtain ⟨ys', hrun', hys⟩ := ih a hagree hrest
    exact ⟨ys', bind_eq_ok.2 ⟨a, helement ▸ ha, hrun'⟩, hys⟩
  | @write i a next hi hnext ih =>
    rw [run] at hrun
    split at hrun
    next hin =>
      have hin' : i < xs'.size := by
        by_contra hout
        have hnone := hagree i hi
        rw [Array.getElem?_eq_getElem hin, Array.getElem?_eq_none (not_lt.1 hout)] at hnone
        cases hnone
      have hset : AgreeOn own (xs.setIfInBounds i a) (xs'.setIfInBounds i a) := by
        intro p hp
        by_cases hpi : i = p
        · subst hpi
          simp [hin, hin']
        · simpa [hpi] using hagree p hp
      obtain ⟨ys', hrun', hys⟩ := ih hset hrun
      exact ⟨ys', by rw [run, if_pos hin', hrun'], hys⟩
    next => cases hrun

/-- A unit that runs to its end gets there one access after the other. -/
theorem Within.exists_step (h : u.Within own) (hrun : u.run xs = .ok ys) : ∃ u' xs',
    u.step xs = .ok (u', xs') ∧ u'.Within own ∧ u'.run xs' = .ok ys ∧ AgreeOn ownᶜ xs' xs := by
  cases h with
  | done => exact ⟨.done, xs, rfl, .done, hrun, AgreeOn.refl _ xs⟩
  | @read i next hi hnext =>
    obtain ⟨a, ha, hrest⟩ := bind_eq_ok.1 hrun
    exact ⟨next a, xs, by rw [step, ha]; rfl, hnext a, hrest, AgreeOn.refl _ xs⟩
  | @write i a next hi hnext =>
    rw [run] at hrun
    split at hrun
    next hin =>
      exact ⟨next, xs.setIfInBounds i a, if_pos hin, hnext, hrun, agreeOn_set (not_not.2 hi) a xs⟩
    next => cases hrun

end WorkUnit

section Orders

variable {ι : Type} {units : ι → WorkUnit α} {own : ι → Set ℕ} {ks ks' : List ι}
  {xs ys ys' : Array α}

/-- Each unit has left on its own elements what it makes of them alone, and nothing else has
changed. -/
structure Merges (units : ι → WorkUnit α) (own : ι → Set ℕ) (ks : List ι) (xs ys : Array α) :
    Prop where
  merged : ∀ k ∈ ks, ∃ zs, (units k).run xs = .ok zs ∧ AgreeOn (own k) ys zs
  untouched : ∀ i, (∀ k ∈ ks, i ∉ own k) → ys[i]? = xs[i]?

/-- Which units have run says everything about the array that they leave. -/
theorem Merges.unique (h : Merges units own ks xs ys) (h' : Merges units own ks' xs ys')
    (hmem : ∀ k, k ∈ ks ↔ k ∈ ks') : ys = ys' := by
  apply Array.ext_getElem?
  intro i
  by_cases howner : ∃ k ∈ ks, i ∈ own k
  · obtain ⟨k, hk, hi⟩ := howner
    obtain ⟨zs, hrun, hzs⟩ := h.merged k hk
    obtain ⟨zs', hrun', hzs'⟩ := h'.merged k ((hmem k).1 hk)
    have heq : zs = zs' := Except.ok.inj (hrun.symm.trans hrun')
    rw [hzs i hi, hzs' i hi, heq]
  · have hfree : ∀ k ∈ ks, i ∉ own k := fun k hk hi => howner ⟨k, hk, hi⟩
    rw [h.untouched i hfree, h'.untouched i fun k hk => hfree k ((hmem k).2 hk)]

/-- A loop over bodies that do what units with elements of their own do. -/
theorem exists_merges {body : Array α → ι → Checked (Array α)}
    (hwithin : ∀ k ∈ ks, (units k).Within (own k))
    (hdisjoint : Pairwise (Function.onFun Disjoint own)) (hks : ks.Nodup)
    (hown : ∀ k ∈ ks, ∀ i ∈ own k, i < xs.size)
    (hbody : ∀ k ∈ ks, ∀ ys : Array α, ys.size = xs.size → (units k).run ys = body ys k) :
    ∃ ys, ks.foldlM body xs = .ok ys ∧ Merges units own ks xs ys := by
  induction ks generalizing xs with
  | nil => exact ⟨xs, rfl, ⟨nofun, fun _ _ => rfl⟩⟩
  | cons k ks ih =>
    obtain ⟨hk, hnodup⟩ := List.nodup_cons.1 hks
    obtain ⟨hfirstWithin, hwithin⟩ := List.forall_mem_cons.1 hwithin
    obtain ⟨hfirstOwn, hown⟩ := List.forall_mem_cons.1 hown
    obtain ⟨hfirstBody, hbody⟩ := List.forall_mem_cons.1 hbody
    have hother (l : ι) (hl : l ∈ ks) : Disjoint (own k) (own l) :=
      hdisjoint fun h => hk (h ▸ hl)
    obtain ⟨zs, hfirst, hsize, hkept⟩ := hfirstWithin.exists_run hfirstOwn
    obtain ⟨ys, hrest, hys⟩ := ih hwithin hnodup (hsize ▸ hown) (hsize ▸ hbody)
    have hloop : (k :: ks).foldlM body xs = .ok ys := by
      rw [List.foldlM_cons, ← hfirstBody xs rfl, hfirst, ok_bind, hrest]
    refine ⟨ys, hloop, ?_⟩
    constructor
    · intro l hl
      rcases List.mem_cons.1 hl with rfl | hl
      · -- the later units have elements of their own
        refine ⟨zs, hfirst, fun i hi => hys.untouched i fun m hm => ?_⟩
        exact Set.disjoint_left.1 (hother m hm) hi
      · obtain ⟨ws, hrun, hws⟩ := hys.merged l hl
        have hagree : AgreeOn (own l) zs xs := hkept.mono (hother l hl).subset_compl_left
        obtain ⟨ws', hrun', hws'⟩ := (hwithin l hl).exists_run_of_agreeOn hagree hrun
        exact ⟨ws', hrun', hws.trans hws'⟩
    · intro i hi
      obtain ⟨hik, hirest⟩ := List.forall_mem_cons.1 hi
      exact (hys.untouched i hirest).trans (hkept i hik)

end Orders

/-- An array and the work units that share it. -/
structure WorkPool (ι α : Type) where
  memory : Array α
  units : ι → WorkUnit α

namespace WorkPool

variable {ι : Type} [DecidableEq ι] {own : ι → Set ℕ} {p p' : WorkPool ι α} {ys : Array α}

/-- The next access of a unit; nothing if it has ended. -/
def step (p : WorkPool ι α) (k : ι) : Checked (WorkPool ι α) := do
  let (u, memory) ← (p.units k).step p.memory
  return ⟨memory, Function.update p.units k u⟩

/-- The accesses of the units in the order of a schedule. -/
def run (p : WorkPool ι α) (schedule : List ι) : Checked (WorkPool ι α) :=
  schedule.foldlM step p

omit [DecidableEq ι] in
/-- Every unit has ended. -/
def Finished (p : WorkPool ι α) : Prop := ∀ k, p.units k = .done

omit [DecidableEq ι] in
/-- The units keep to their own elements, and each will leave on them what is in `ys`. -/
structure OnCourse (own : ι → Set ℕ) (ys : Array α) (p : WorkPool ι α) : Prop where
  within : ∀ k, (p.units k).Within (own k)
  ahead : ∀ k, ∃ zs, (p.units k).run p.memory = .ok zs ∧ AgreeOn (own k) ys zs
  settled : ∀ i, (∀ k, i ∉ own k) → ys[i]? = p.memory[i]?

omit [DecidableEq ι] in
theorem Finished.memory_eq (h : p.Finished) (hp : p.OnCourse own ys) : p.memory = ys := by
  apply Array.ext_getElem?
  intro i
  by_cases howner : ∃ k, i ∈ own k
  · obtain ⟨k, hi⟩ := howner
    obtain ⟨zs, hrun, hzs⟩ := hp.ahead k
    rw [h k] at hrun
    cases hrun
    exact (hzs i hi).symm
  · exact (hp.settled i (not_exists.1 howner)).symm

/-- An access of a unit that leaves the elements of the other units alone. -/
theorem OnCourse.advance (hdisjoint : Pairwise (Function.onFun Disjoint own))
    (hp : p.OnCourse own ys) {k : ι} {memory zs : Array α} {next : WorkUnit α}
    (hkept : AgreeOn (own k)ᶜ memory p.memory) (hnext : next.Within (own k))
    (hrun : next.run memory = .ok zs) (hzs : AgreeOn (own k) ys zs) :
    (WorkPool.mk memory (Function.update p.units k next)).OnCourse own ys := by
  constructor
  · intro l
    by_cases hl : l = k
    · subst hl
      simpa using hnext
    · simpa [hl] using hp.within l
  · intro l
    by_cases hl : l = k
    · subst hl
      exact ⟨zs, by simpa using hrun, hzs⟩
    · have hagree : AgreeOn (own l) p.memory memory :=
        (hkept.mono (hdisjoint (Ne.symm hl)).subset_compl_left).symm
      obtain ⟨ws, hold, hws⟩ := hp.ahead l
      obtain ⟨ws', hnew, hws'⟩ := (hp.within l).exists_run_of_agreeOn hagree hold
      exact ⟨ws', by simpa [hl] using hnew, hws.trans hws'⟩
  · intro i hi
    exact (hp.settled i hi).trans (hkept i (hi k)).symm

/-- Whichever unit goes on, it makes an access and the units stay on course. -/
theorem OnCourse.exists_step (hdisjoint : Pairwise (Function.onFun Disjoint own))
    (hp : p.OnCourse own ys) (k : ι) : ∃ u memory,
      (p.units k).step p.memory = .ok (u, memory) ∧
      p.step k = .ok ⟨memory, Function.update p.units k u⟩ ∧
      (WorkPool.mk memory (Function.update p.units k u)).OnCourse own ys := by
  obtain ⟨zs, hrun, hzs⟩ := hp.ahead k
  obtain ⟨u, memory, hstep, hwithin, hrest, hkept⟩ := (hp.within k).exists_step hrun
  exact ⟨u, memory, hstep, by rw [step, hstep]; rfl, hp.advance hdisjoint hkept hwithin hrest hzs⟩

/-- Whatever the schedule, no access fails and the units stay on course. -/
theorem OnCourse.exists_run (hdisjoint : Pairwise (Function.onFun Disjoint own))
    (hp : p.OnCourse own ys) (schedule : List ι) :
    ∃ p', p.run schedule = .ok p' ∧ p'.OnCourse own ys := by
  apply exists_foldlM_eq_ok (OnCourse own ys) _ hp
  intro p hp k _
  obtain ⟨u, memory, -, hstep, hcourse⟩ := hp.exists_step hdisjoint k
  exact ⟨_, hstep, hcourse⟩

theorem run_cons {k : ι} {schedule : List ι} (h : p.step k = .ok p') :
    p.run (k :: schedule) = p'.run schedule := by
  rw [run, List.foldlM_cons, h, ok_bind, run]

theorem run_append {schedule schedule' : List ι} (h : p.run schedule = .ok p') :
    p.run (schedule ++ schedule') = p'.run schedule' := by
  unfold run at h ⊢
  rw [List.foldlM_append, h, ok_bind]

/-- A unit that goes on by itself comes to its end, and the others wait. -/
theorem OnCourse.exists_run_to_end (hdisjoint : Pairwise (Function.onFun Disjoint own))
    (hp : p.OnCourse own ys) (k : ι) : ∃ schedule p', p.run schedule = .ok p' ∧
      p'.OnCourse own ys ∧ p'.units = Function.update p.units k .done := by
  induction hu : p.units k generalizing p with
  | done => exact ⟨[], p, rfl, hp, by rw [← hu, Function.update_eq_self]⟩
  | read i next ih =>
    obtain ⟨u, memory, haccess, hstep, hcourse⟩ := hp.exists_step hdisjoint k
    rw [hu] at haccess
    obtain ⟨a, -, hnext⟩ := bind_eq_ok.1 haccess
    cases hnext
    obtain ⟨schedule, p', hrun, hp', hunits⟩ := ih a hcourse (Function.update_self ..)
    exact ⟨k :: schedule, p', (run_cons hstep).trans hrun, hp',
      by rw [hunits, Function.update_idem]⟩
  | write i a next ih =>
    obtain ⟨u, memory, haccess, hstep, hcourse⟩ := hp.exists_step hdisjoint k
    rw [hu, WorkUnit.step] at haccess
    split at haccess
    next =>
      cases haccess
      obtain ⟨schedule, p', hrun, hp', hunits⟩ := ih hcourse (Function.update_self ..)
      exact ⟨k :: schedule, p', (run_cons hstep).trans hrun, hp',
        by rw [hunits, Function.update_idem]⟩
    next => cases haccess

/-- Units on course can all be brought to their ends. -/
theorem OnCourse.exists_finished [Fintype ι] (hdisjoint : Pairwise (Function.onFun Disjoint own))
    (hp : p.OnCourse own ys) : ∃ schedule p', p.run schedule = .ok p' ∧ p'.Finished := by
  have hall (ks : List ι) : ∃ schedule p', p.run schedule = .ok p' ∧ p'.OnCourse own ys ∧
      ∀ k ∈ ks, p'.units k = .done := by
    induction ks with
    | nil => exact ⟨[], p, rfl, hp, nofun⟩
    | cons k ks ih =>
      obtain ⟨before, q, hbefore, hq, hdone⟩ := ih
      obtain ⟨after, p', hafter, hp', hunits⟩ := hq.exists_run_to_end hdisjoint k
      refine ⟨before ++ after, p', by rw [run_append hbefore, hafter], hp', ?_⟩
      intro l hl
      by_cases hlk : l = k
      · simp [hunits, hlk]
      · have hmem : l ∈ ks := (List.mem_cons.1 hl).resolve_left hlk
        simp [hunits, hlk, hdone l hmem]
  obtain ⟨schedule, p', hrun, -, hdone⟩ := hall Finset.univ.toList
  exact ⟨schedule, p', hrun, fun k => hdone k (by simp)⟩

end WorkPool

section Chunks

variable {xs out : Array α} {len count : ℕ} {body : ℕ → Array α → Checked (Array α)}
  {unit : ℕ → WorkUnit α}

/-- The number of chunks of `len` elements; the last one may be shorter. -/
def chunkCount (size len : ℕ) : ℕ := (size + len - 1) / len

/-- Work on the chunks of an array, from their offsets, that can be divided in any way. -/
structure Divisible (xs : Array α) (len : ℕ) (body : ℕ → Array α → Checked (Array α))
    (unit : ℕ → WorkUnit α) (out : Array α) : Prop where
  /-- The accesses of a unit, one after the other, are those of the chunk body. -/
  run_eq : ∀ k < chunkCount xs.size len, ∀ ys : Array α, ys.size = xs.size →
    (unit (k * len)).run ys = body (k * len) ys
  within : ∀ k < chunkCount xs.size len,
    (unit (k * len)).Within (Set.Ico (k * len) (k * len + len))
  /-- The bodies run in any order. -/
  any_order : ∀ order : List ℕ, order.Perm (List.range (chunkCount xs.size len)) →
    order.foldlM (fun ys k => body (k * len) ys) xs = .ok out
  /-- The accesses of all bodies run in any interleaving: none fails, the array is `out` when all
  bodies have ended, and they can always be brought to their ends. -/
  any_schedule : ∀ schedule : List (Fin (chunkCount xs.size len)), ∃ p,
    (WorkPool.mk xs fun k : Fin (chunkCount xs.size len) => unit (k * len)).run schedule = .ok p ∧
    (p.Finished → p.memory = out) ∧ ∃ rest q, p.run rest = .ok q ∧ q.Finished

/-- Chunks share no index. -/
theorem pairwise_disjoint_chunks (len : ℕ) :
    Pairwise (Function.onFun Disjoint fun k => Set.Ico (k * len) (k * len + len)) := by
  intro k l hkl
  refine Set.disjoint_left.2 fun i hk hl => hkl ?_
  rw [Set.mem_Ico, ← Nat.succ_mul] at hk hl
  rw [← Nat.div_eq_of_lt_le hk.1 hk.2, ← Nat.div_eq_of_lt_le hl.1 hl.2]

/-- Bodies whose accesses stay inside their chunks, run in any order. -/
theorem exists_merges_of_perm (hsize : xs.size = count * len)
    (hrun : ∀ k < count, ∀ ys : Array α, ys.size = xs.size →
      (unit (k * len)).run ys = body (k * len) ys)
    (hwithin : ∀ k < count, (unit (k * len)).Within (Set.Ico (k * len) (k * len + len)))
    {order : List ℕ} (horder : order.Perm (List.range count)) :
    ∃ ys, order.foldlM (fun ys k => body (k * len) ys) xs = .ok ys ∧
      Merges (fun k => unit (k * len)) (fun k => Set.Ico (k * len) (k * len + len)) order xs
        ys := by
  have hlt (k : ℕ) (hk : k ∈ order) : k < count := List.mem_range.1 (horder.mem_iff.1 hk)
  apply exists_merges _ (pairwise_disjoint_chunks len) (horder.nodup_iff.2 List.nodup_range)
  · intro k hk i hi
    rw [Set.mem_Ico, ← Nat.succ_mul] at hi
    exact hsize ▸ hi.2.trans_le (Nat.mul_le_mul_right len (hlt k hk))
  · exact fun k hk => hrun k (hlt k hk)
  · exact fun k hk => hwithin k (hlt k hk)

theorem exists_divisible (hlen : 0 < len) (hsize : xs.size = count * len)
    (hrun : ∀ k < count, ∀ ys : Array α, ys.size = xs.size →
      (unit (k * len)).run ys = body (k * len) ys)
    (hwithin : ∀ k < count, (unit (k * len)).Within (Set.Ico (k * len) (k * len + len))) :
    ∃ out, Divisible xs len body unit out := by
  have hcount : chunkCount xs.size len = count := by rw [chunkCount, hsize, chunks_of_mul hlen]
  have hdisjoint : Pairwise (Function.onFun Disjoint fun k : Fin count =>
      Set.Ico (k * len) (k * len + len)) :=
    fun k l hkl => pairwise_disjoint_chunks len (Fin.val_ne_of_ne hkl)
  obtain ⟨out, -, hout⟩ := exists_merges_of_perm hsize hrun hwithin (List.Perm.refl _)
  have hcourse : (WorkPool.mk xs fun k : Fin count => unit (k * len)).OnCourse
      (fun k : Fin count => Set.Ico (k * len) (k * len + len)) out := by
    constructor
    · exact fun k => hwithin k k.2
    · exact fun k => hout.merged k (List.mem_range.2 k.2)
    · exact fun i hi => hout.untouched i fun k hk => hi ⟨k, List.mem_range.1 hk⟩
  use out
  constructor <;> rw [hcount]
  · exact hrun
  · exact hwithin
  · intro order horder
    obtain ⟨ys, hys, hmerge⟩ := exists_merges_of_perm hsize hrun hwithin horder
    rw [hys, hmerge.unique hout fun k => horder.mem_iff]
  · intro schedule
    obtain ⟨p, hp, hends⟩ := hcourse.exists_run hdisjoint schedule
    exact ⟨p, hp, fun h => h.memory_eq hends, hends.exists_finished hdisjoint⟩

end Chunks

end QuantumSim
