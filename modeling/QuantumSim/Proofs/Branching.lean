import Mathlib
import QuantumSim.Sampling
import QuantumSim.Proofs.ExactReadout

/-!
Runs that follow every outcome. The program that plays a shot also runs on lists of weighted
branches: a measurement splits a branch by the probabilities of its outcomes. A function on the ends
of a run is averaged over the branches, and an average is computed step by step.
-/
namespace QuantumSim

/-- What a run ends with along each of its branches, with the weight of the branch. -/
def Branching (R α : Type) := Except (SimulationError R) (List (R × α))

namespace Branching

variable {R α β : Type} [Scalar R]

/-- Goes on from every branch. -/
def follow (f : α → Branching R β) : List (R × α) → Branching R β
  | [] => .ok []
  | (w, a) :: rest =>
    match f a, follow f rest with
    | .ok here, .ok others => .ok (here.map (fun e => (w * e.1, e.2)) ++ others)
    | .error e, _ => .error e
    | _, .error e => .error e

instance : Monad (Branching R) where
  pure a := .ok [(Scalar.one, a)]
  bind x f :=
    match x with
    | .ok branches => follow f branches
    | .error e => .error e

/-- The branch of an outcome, unless the outcome is impossible. -/
def outcomeBranch (s : Statevector R) (mask : ℕ) (outcome : Bool) (p : R) :
    List (R × Bool × Statevector R) :=
  if Scalar.le p Scalar.zero then [] else [(p, outcome, s.collapse mask outcome p)]

/-- A measurement goes on with every outcome that has a positive probability. -/
instance : Measuring R (Branching R) where
  lift e := e.map fun a => [(Scalar.one, a)]
  measure s qubit := (s.outcomes qubit).map fun (mask, p0, p1) =>
    outcomeBranch s mask false p0 ++ outcomeBranch s mask true p1

/-- A measurement with a draw goes along the branch of its outcome. -/
theorem measureWith_mem_branches {s t : Statevector R} {qubit mask : ℕ} {p0 p1 draw : R}
    {outcome : Bool} (houtcomes : s.outcomes qubit = .ok (mask, p0, p1))
    (h : s.measureWith qubit draw = .ok (outcome, t)) :
    outcome = Scalar.lt draw p1 ∧ ∃ branches,
      (Measuring.measure s qubit : Branching R _) = .ok branches ∧
        (if outcome then p1 else p0, outcome, t) ∈ branches := by
  unfold Statevector.measureWith at h
  rw [houtcomes] at h
  generalize hp : (if Scalar.lt draw p1 then p1 else p0) = p at h
  by_cases hpossible : Scalar.le p Scalar.zero = true
  · simp [Statevector.project, hp, hpossible] at h
  · simp only [ok_bind, Statevector.project, hp, if_neg hpossible, Except.ok.injEq,
      Prod.mk.injEq] at h
    obtain ⟨rfl, rfl⟩ := h
    refine ⟨rfl, _, congrArg (Except.map _) houtcomes, ?_⟩
    rw [hp]
    cases hdraw : Scalar.lt draw p1 <;> simp [hdraw] at hp <;> subst hp <;>
      simp [outcomeBranch, hpossible]

/-- The weighted sum of a function over branches. -/
noncomputable def average (branches : List (ℝ × α)) (f : α → ℝ) : ℝ :=
  (branches.map fun e => e.1 * f e.2).sum

/-- A run none of whose branches fails, that ends in `P` only and has the given average. -/
def Averages (x : Branching ℝ α) (P : α → Prop) (f : α → ℝ) (r : ℝ) : Prop :=
  ∃ branches, x = .ok branches ∧ (∀ e ∈ branches, P e.2) ∧ average branches f = r

/-- The total weight of the branches that end with a value. -/
noncomputable def weight [DecidableEq α] (branches : List (ℝ × α)) (a : α) : ℝ :=
  ((branches.filter fun e => e.2 = a).map (·.1)).sum

theorem weight_eq_average [DecidableEq α] (branches : List (ℝ × α)) (a : α) :
    weight branches a = average branches fun x => if x = a then 1 else 0 := by
  induction branches with
  | nil => rfl
  | cons e branches ih =>
    simp only [weight, average, List.filter_cons, List.map_cons, List.sum_cons] at ih ⊢
    by_cases h : e.2 = a <;> simp [h, ih]

theorem Averages.mono {x : Branching ℝ α} {P Q : α → Prop} {f g : α → ℝ} {r : ℝ}
    (hx : Averages x P f r) (h : ∀ a, P a → Q a ∧ f a = g a) : Averages x Q g r := by
  obtain ⟨branches, hok, hP, rfl⟩ := hx
  refine ⟨branches, hok, fun e he => (h _ (hP e he)).1, ?_⟩
  exact congrArg List.sum (List.map_congr_left fun e he => by rw [(h _ (hP e he)).2])

theorem average_scaled (w : ℝ) (branches : List (ℝ × α)) (f : α → ℝ) :
    average (branches.map fun e => (w * e.1, e.2)) f = w * average branches f := by
  induction branches with
  | nil => simp [average]
  | cons e branches ih =>
    simp only [average, List.map_cons, List.sum_cons] at ih ⊢
    rw [ih]
    ring

theorem averages_pure {P : α → Prop} {a : α} (ha : P a) (f : α → ℝ) :
    Averages (pure a) P f (f a) :=
  ⟨[(Scalar.one, a)], rfl, by simpa using ha, by simp [average]⟩

theorem averages_lift {P : α → Prop} {e : Except (SimulationError ℝ) α} {a : α} (he : e = .ok a)
    (ha : P a) (f : α → ℝ) : Averages (Measuring.lift e) P f (f a) := by
  subst he
  exact averages_pure ha f

/-- An average over two runs one after the other is the average of the second over the first. -/
theorem Averages.bind {x : Branching ℝ α} {next : α → Branching ℝ β} {P : α → Prop} {Q : β → Prop}
    {f : β → ℝ} {g : α → ℝ} {r : ℝ} (hx : Averages x P g r)
    (hnext : ∀ a, P a → Averages (next a) Q f (g a)) : Averages (x >>= next) Q f r := by
  obtain ⟨branches, rfl, hP, rfl⟩ := hx
  have hfollow : Averages (follow next branches) Q f (average branches g) := by
    induction branches with
    | nil => exact ⟨[], rfl, by simp, rfl⟩
    | cons e branches ih =>
      obtain ⟨hfirst, hrest⟩ := List.forall_mem_cons.1 hP
      obtain ⟨here, hhere, hQhere, hsum⟩ := hnext e.2 hfirst
      obtain ⟨others, hothers, hQothers, hsums⟩ := ih hrest
      refine ⟨here.map (fun b => (e.1 * b.1, b.2)) ++ others, ?_, ?_, ?_⟩
      · unfold follow
        rw [hhere, hothers]
      · intro b hb
        rcases List.mem_append.1 hb with hb | hb
        · obtain ⟨b', hb', rfl⟩ := List.mem_map.1 hb
          exact hQhere b' hb'
        · exact hQothers b hb
      · have hscaled := average_scaled e.1 here f
        simp only [average, List.map_append, List.sum_append, List.map_cons, List.sum_cons] at *
        rw [hscaled, hsum, hsums]
  exact hfollow

/-- A loop averages a function if each of its steps does, whatever is left to do. -/
theorem averages_foldlM {step : β → α → Branching ℝ β} (P : List α → β → Prop) (g : List α → β → ℝ)
    (hstep : ∀ a rest b, P (a :: rest) b → Averages (step b a) (P rest) (g rest) (g (a :: rest) b))
    {l : List α} {b : β} (hb : P l b) : Averages (l.foldlM step b) (P []) (g []) (g l b) := by
  induction l generalizing b with
  | nil => exact averages_pure hb _
  | cons a l ih =>
    rw [List.foldlM_cons]
    exact (hstep a l b hb).bind fun b hb => ih hb

theorem outcomeBranch_spec (s : Statevector ℝ) (mask : ℕ) (outcome : Bool) {p : ℝ} (hp : 0 ≤ p)
    (f : Bool × Statevector ℝ → ℝ) :
    (∀ e ∈ outcomeBranch s mask outcome p, 0 < p ∧ e.2 = (outcome, s.collapse mask outcome p)) ∧
      average (outcomeBranch s mask outcome p) f = p * f (outcome, s.collapse mask outcome p) := by
  unfold outcomeBranch
  rw [Scalar.le_real, Scalar.zero_real]
  rcases hp.eq_or_lt with rfl | hp
  · simp [average]
  · simp [average, hp, not_le.2 hp]

/-- Measuring averages over both outcomes; an impossible one counts for nothing. -/
theorem averages_measure {s : Statevector ℝ} {qubit mask : ℕ} {p0 p1 : ℝ}
    (h : s.outcomes qubit = .ok (mask, p0, p1)) (h0 : 0 ≤ p0) (h1 : 0 ≤ p1)
    {P : Bool × Statevector ℝ → Prop}
    (hfalse : 0 < p0 → P (false, s.collapse mask false p0))
    (htrue : 0 < p1 → P (true, s.collapse mask true p1)) (f : Bool × Statevector ℝ → ℝ) :
    Averages (Measuring.measure s qubit) P f
      (p0 * f (false, s.collapse mask false p0) + p1 * f (true, s.collapse mask true p1)) := by
  obtain ⟨hmem0, hsum0⟩ := outcomeBranch_spec s mask false h0 f
  obtain ⟨hmem1, hsum1⟩ := outcomeBranch_spec s mask true h1 f
  refine ⟨_, congrArg (Except.map _) h, fun e he => ?_, ?_⟩
  · rcases List.mem_append.1 he with he | he
    · exact (hmem0 e he).2 ▸ hfalse (hmem0 e he).1
    · exact (hmem1 e he).2 ▸ htrue (hmem1 e he).1
  · rw [← hsum0, ← hsum1]
    simp [average]

end Branching

end QuantumSim
