import Mathlib
import QuantumSim.Fault

/-!
Computations that may stop. A computation is taken apart at its first step, and a loop is followed
by an invariant.
-/
namespace QuantumSim

section Bind

variable {ε α β : Type}

@[simp] theorem ok_bind (a : α) (f : α → Except ε β) : (Except.ok a >>= f) = f a := rfl

@[simp] theorem error_bind (e : ε) (f : α → Except ε β) : (Except.error e >>= f) = .error e := rfl

theorem pure_eq (a : α) : (pure a : Except ε α) = .ok a := rfl

theorem throw_eq (e : ε) : (throw e : Except ε α) = .error e := rfl

theorem bind_eq_ok {x : Except ε α} {f : α → Except ε β} {b : β} :
    x >>= f = .ok b ↔ ∃ a, x = .ok a ∧ f a = .ok b := by
  cases x with
  | error e => simp
  | ok a => simp

theorem bind_eq_error {x : Except ε α} {f : α → Except ε β} {e : ε} :
    x >>= f = .error e ↔ x = .error e ∨ ∃ a, x = .ok a ∧ f a = .error e := by
  cases x with
  | error e' => simp
  | ok a => simp

theorem exists_eq_ok_of_isOk {x : Except ε α} (h : x.isOk = true) : ∃ a, x = .ok a := by
  cases x with
  | error e => cases h
  | ok a => exact ⟨a, rfl⟩

theorem exists_eq_error_of_isOk {x : Except ε α} (h : x.isOk = false) : ∃ e, x = .error e := by
  cases x with
  | error e => exact ⟨e, rfl⟩
  | ok a => cases h

theorem mapError_eq_ok {ε' : Type} {f : ε → ε'} {x : Except ε α} {a : α} :
    x.mapError f = .ok a ↔ x = .ok a := by
  cases x with
  | error e => simp [Except.mapError]
  | ok b => simp [Except.mapError]

theorem foldlM_congr {f g : β → α → Except ε β} {l : List α} (h : ∀ x ∈ l, ∀ b, f b x = g b x)
    (b : β) :
    l.foldlM f b = l.foldlM g b := by
  induction l generalizing b with
  | nil => rfl
  | cons x l ih =>
    have hrest : (fun b => l.foldlM f b) = fun b => l.foldlM g b :=
      funext fun b => ih (fun y hy => h y (List.mem_cons_of_mem _ hy)) b
    rw [List.foldlM_cons, List.foldlM_cons, h x (by simp), hrest]

/-- A loop none of whose steps fails while an invariant holds, and the value it computes. -/
theorem foldlM_eq_ok {f : β → α → Except ε β} {g : β → α → β} (P : β → Prop) {l : List α}
    (hstep : ∀ b, P b → ∀ a ∈ l, f b a = .ok (g b a) ∧ P (g b a)) {b : β} (hb : P b) :
    l.foldlM f b = .ok (l.foldl g b) ∧ P (l.foldl g b) := by
  induction l generalizing b with
  | nil => exact ⟨rfl, hb⟩
  | cons a l ih =>
    obtain ⟨hfirst, hkeep⟩ := hstep b hb a (by simp)
    rw [List.foldlM_cons, hfirst, ok_bind, List.foldl_cons]
    exact ih (fun b hb x hx => hstep b hb x (List.mem_cons_of_mem _ hx)) hkeep

/-- A loop none of whose steps fails on any state. -/
theorem foldlM_eq_foldl {f : β → α → Except ε β} {g : β → α → β} {l : List α}
    (hstep : ∀ b, ∀ a ∈ l, f b a = .ok (g b a)) (b : β) :
    l.foldlM f b = .ok (l.foldl g b) :=
  (foldlM_eq_ok (fun _ => True) (fun b _ a ha => ⟨hstep b a ha, trivial⟩) trivial).1

theorem exists_foldlM_eq_ok {f : β → α → Except ε β} (P : β → Prop) {l : List α}
    (hstep : ∀ b, P b → ∀ a ∈ l, ∃ b', f b a = .ok b' ∧ P b') {b : β} (hb : P b) :
    ∃ b', l.foldlM f b = .ok b' ∧ P b' := by
  induction l generalizing b with
  | nil => exact ⟨b, rfl, hb⟩
  | cons a l ih =>
    obtain ⟨b', hfirst, hb'⟩ := hstep b hb a (by simp)
    rw [List.foldlM_cons, hfirst, ok_bind]
    exact ih (fun b hb x hx => hstep b hb x (List.mem_cons_of_mem _ hx)) hb'

/-- A loop fails where one of its steps does. -/
theorem exists_eq_error_of_foldlM {f : β → α → Except ε β} {l : List α} {b : β} {e : ε}
    (h : l.foldlM f b = .error e) : ∃ b', ∃ a ∈ l, f b' a = .error e := by
  induction l generalizing b with
  | nil => cases h
  | cons a l ih =>
    rw [List.foldlM_cons] at h
    rcases bind_eq_error.1 h with hfirst | ⟨b', -, h⟩
    · exact ⟨b, a, by simp, hfirst⟩
    · obtain ⟨b', x, hx, hfail⟩ := ih h
      exact ⟨b', x, List.mem_cons_of_mem _ hx, hfail⟩

/-- A loop of which a step fails or not whatever came before. -/
theorem exists_foldlM_eq_ok_iff {f : β → α → Except ε β} {P : α → Prop} {l : List α}
    (hstep : ∀ b, ∀ a ∈ l, (∃ b', f b a = .ok b') ↔ P a) (b : β) :
    (∃ b', l.foldlM f b = .ok b') ↔ ∀ a ∈ l, P a := by
  induction l generalizing b with
  | nil => simp [pure, Except.pure]
  | cons a l ih =>
    have hrest (b : β) := ih (fun b x hx => hstep b x (List.mem_cons_of_mem _ hx)) b
    rw [List.foldlM_cons, List.forall_mem_cons, ← hstep b a (by simp)]
    constructor
    · rintro ⟨c, h⟩
      obtain ⟨b', hfirst, h⟩ := bind_eq_ok.1 h
      exact ⟨⟨b', hfirst⟩, (hrest b').1 ⟨c, h⟩⟩
    · rintro ⟨⟨b', hfirst⟩, h⟩
      obtain ⟨c, hc⟩ := (hrest b').2 h
      exact ⟨c, bind_eq_ok.2 ⟨b', hfirst, hc⟩⟩

theorem exists_mapM_eq_ok {f : α → Except ε β} {l : List α} (h : ∀ a ∈ l, ∃ b, f a = .ok b) :
    ∃ bs, l.mapM f = .ok bs := by
  induction l with
  | nil => exact ⟨[], rfl⟩
  | cons a l ih =>
    obtain ⟨b, hb⟩ := h a (by simp)
    obtain ⟨bs, hbs⟩ := ih fun x hx => h x (List.mem_cons_of_mem _ hx)
    exact ⟨b :: bs, by rw [List.mapM_cons, hb, ok_bind, hbs]; rfl⟩

/-- A pass over a list none of whose members fails. -/
theorem mapM_eq_ok_map {f : α → Except ε β} {g : α → β} {l : List α}
    (h : ∀ a ∈ l, f a = .ok (g a)) : l.mapM f = .ok (l.map g) := by
  induction l with
  | nil => rfl
  | cons a l ih =>
    obtain ⟨hfirst, hrest⟩ := List.forall_mem_cons.1 h
    rw [List.mapM_cons, hfirst, ok_bind, ih hrest]
    rfl

/-- A pass over a list that succeeds gives each member its own value. -/
theorem forall₂_of_mapM {f : α → Except ε β} {l : List α} {bs : List β} (h : l.mapM f = .ok bs) :
    List.Forall₂ (fun a b => f a = .ok b) l bs := by
  induction l generalizing bs with
  | nil =>
    cases h
    exact .nil
  | cons a l ih =>
    rw [List.mapM_cons] at h
    obtain ⟨b, hfirst, h⟩ := bind_eq_ok.1 h
    obtain ⟨bs, hrest, h⟩ := bind_eq_ok.1 h
    cases h
    exact .cons hfirst (ih hrest)

theorem getElem?_of_mapM {f : α → Except ε β} {l : List α} {bs : List β} (h : l.mapM f = .ok bs)
    {i : ℕ} {a : α} (ha : l[i]? = some a) : ∃ b, bs[i]? = some b ∧ f a = .ok b := by
  have hpairs := forall₂_of_mapM h
  obtain ⟨hi, rfl⟩ := List.getElem?_eq_some_iff.1 ha
  have hi' : i < bs.length := hpairs.length_eq ▸ hi
  exact ⟨bs[i], List.getElem?_eq_getElem hi', hpairs.get hi hi'⟩

/-- A pass over a list with its places succeeds, or there is a first member that fails. -/
theorem mapM_zipIdx_eq_ok_or_exists_first (f : α × ℕ → Except ε β) (l : List α) (n : ℕ) :
    (∃ bs, (l.zipIdx n).mapM f = .ok bs) ∨ ∃ before a after e, l = before ++ a :: after ∧
      (∀ x ∈ before.zipIdx n, ∃ b, f x = .ok b) ∧ f (a, n + before.length) = .error e := by
  induction l generalizing n with
  | nil => exact .inl ⟨[], rfl⟩
  | cons a l ih =>
    cases hfirst : f (a, n) with
    | error e => exact .inr ⟨[], a, l, e, rfl, nofun, hfirst⟩
    | ok b =>
      obtain ⟨bs, hrest⟩ | ⟨before, x, after, e, rfl, hbefore, hfail⟩ := ih (n + 1)
      · exact .inl ⟨b :: bs, by rw [List.zipIdx_cons, List.mapM_cons, hfirst, ok_bind, hrest]; rfl⟩
      · have hplace : n + 1 + before.length = n + (a :: before).length := by
          rw [List.length_cons]
          omega
        refine .inr ⟨a :: before, x, after, e, rfl, ?_, hplace ▸ hfail⟩
        rw [List.zipIdx_cons]
        exact List.forall_mem_cons.2 ⟨⟨b, hfirst⟩, hbefore⟩

/-- A pass over a list fails where one of its members does. -/
theorem exists_eq_error_of_mapM {f : α → Except ε β} {l : List α} {e : ε}
    (h : l.mapM f = .error e) : ∃ a ∈ l, f a = .error e := by
  induction l with
  | nil => cases h
  | cons a l ih =>
    rw [List.mapM_cons] at h
    rcases bind_eq_error.1 h with hfirst | ⟨b, -, h⟩
    · exact ⟨a, by simp, hfirst⟩
    · rcases bind_eq_error.1 h with hrest | ⟨bs, -, h⟩
      · obtain ⟨x, hx, hfail⟩ := ih hrest
        exact ⟨x, List.mem_cons_of_mem _ hx, hfail⟩
      · cases h

end Bind

section Words

theorem bitMask_eq {k : ℕ} (h : k < 64) : bitMask k = .ok (2 ^ k) := by
  unfold bitMask
  rw [if_pos h, Nat.one_shiftLeft]

theorem shiftUp_eq {x k : ℕ} (h : k < 64) : shiftUp x k = .ok (2 ^ k * x) := by
  unfold shiftUp
  rw [if_pos h, Nat.shiftLeft_eq, Nat.mul_comm]

theorem bitAt_eq {i k : ℕ} (h : k < 64) : bitAt i k = .ok (i.testBit k).toNat := by
  unfold bitAt
  rw [if_pos h, Nat.testBit_eq_decide_div_mod_eq, Nat.shiftRight_eq_div_pow]
  rcases Nat.mod_two_eq_zero_or_one (i / 2 ^ k) with hb | hb <;> simp [hb]

theorem elementAt_eq {α : Type} {xs : Array α} {i : ℕ} (h : i < xs.size) :
    elementAt xs i = .ok xs[i] := by
  unfold elementAt
  rw [Array.getElem?_eq_getElem h]

theorem elementAt_eq_error {α : Type} {xs : Array α} {i : ℕ} (h : xs.size ≤ i) :
    elementAt xs i = .error .index := by
  unfold elementAt
  rw [Array.getElem?_eq_none h]

/-- A range that is a multiple of a length has that many chunks of it. -/
theorem chunks_of_mul {len : ℕ} (hlen : 0 < len) (count : ℕ) :
    (count * len + len - 1) / len = count := by
  rw [Nat.add_sub_assoc hlen, Nat.add_comm, Nat.add_mul_div_right _ _ hlen,
    Nat.div_eq_of_lt (by omega), Nat.zero_add]

theorem changeAt_eq {α : Type} {xs : Array α} {i : ℕ} (f : α → α) (h : i < xs.size) :
    changeAt xs i f = .ok (xs.modify i f) := if_pos h

end Words

end QuantumSim
