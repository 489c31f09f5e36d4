import Mathlib
import QuantumSim.Circuit.Builder
import QuantumSim.Proofs.Binding

/-!
Building circuits call by call. A call works on the circuit in place: most check what they are about
to append and then append it, some grow a register, and measuring everything does both. What was
written before a refusal stays. Nevertheless, whatever the calls, every instruction of the circuit
fits it, and a refused call has changed nothing.
-/
namespace QuantumSim

theorem word_toNat_max (a b : UInt32) : (max a b).toNat = max a.toNat b.toNat := by
  show (if a ≤ b then b else a).toNat = _
  split
  next hle => exact (max_eq_right (UInt32.le_iff_toNat_le.1 hle)).symm
  next hle =>
    exact (max_eq_left (UInt32.le_iff_toNat_le.1 (UInt32.le_of_lt (UInt32.not_le.1 hle)))).symm

theorem nextWord_eq_ok {n n' : UInt32} (h : nextWord n = .ok n') : n'.toNat = n.toNat + 1 := by
  unfold nextWord at h
  split at h
  next hlt =>
    cases h
    rw [UInt32.toNat_add, UInt32.toNat_one]
    exact Nat.mod_eq_of_lt hlt
  next => cases h

theorem Clbit.index_lt_of_mem_range {n : UInt32} {b : Clbit} (h : b ∈ range n) :
    b.index < n.toNat := by
  obtain ⟨k, hk, rfl⟩ := List.mem_map.1 h
  exact Qubit.index_lt_of_mem_range (List.mem_map.2 ⟨k, hk, rfl⟩)

namespace Builder

variable {R α β : Type}

section Runs

theorem run_lift (x : Except (CircuitError R) β) (c : Circuit R) : (lift x).run.run c = (x, c) :=
  rfl

theorem run_get (c : Circuit R) : (get : Builder R (Circuit R)).run.run c = (.ok c, c) := rfl

theorem run_bind (p : Builder R α) (f : α → Builder R β) (c : Circuit R) :
    (p >>= f).run.run c =
      match p.run.run c with
      | (.ok a, c') => (f a).run.run c'
      | (.error e, c') => (.error e, c') := by
  rw [ExceptT.run_bind, StateT.run_bind]
  rcases p.run.run c with ⟨_ | _, c'⟩ <;> rfl

theorem run_bind_of_ok {p : Builder R α} {f : α → Builder R β} {c c' : Circuit R} {a : α}
    (h : p.run.run c = (.ok a, c')) : (p >>= f).run.run c = (f a).run.run c' := by
  rw [run_bind, h]

theorem run_append (inst : Instruction R) (c : Circuit R) : (append inst).run.run c =
    match c.check inst with
    | .ok _ => (.ok (), { c with instructions := c.instructions ++ [inst] })
    | .error e => (.error e, c) := by
  unfold append
  rw [run_bind_of_ok (run_get c), run_bind, run_lift]
  cases c.check inst with
  | ok _ => rfl
  | error e => rfl

theorem run_compose (c other : Circuit R) : (compose other).run.run c =
    if c.numQubits < other.numQubits ∨ c.numClbits < other.numClbits then
      (.error (.incompatible other.size c.size), c)
    else (.ok (), { c with instructions := c.instructions ++ other.instructions }) := by
  unfold compose
  rw [run_bind_of_ok (run_get c)]
  split <;> rfl

theorem run_addQubit (c : Circuit R) : addQubit.run.run c =
    match nextWord c.numQubits with
    | .ok n => (.ok ⟨c.numQubits⟩, { c with numQubits := n })
    | .error fault => (.error (.fault fault), c) := by
  unfold addQubit
  rw [run_bind_of_ok (run_get c), run_bind, run_lift]
  cases nextWord c.numQubits with
  | ok n => rfl
  | error fault => rfl

theorem run_addClbit (c : Circuit R) : addClbit.run.run c =
    match nextWord c.numClbits with
    | .ok n => (.ok ⟨c.numClbits⟩, { c with numClbits := n })
    | .error fault => (.error (.fault fault), c) := by
  unfold addClbit
  rw [run_bind_of_ok (run_get c), run_bind, run_lift]
  cases nextWord c.numClbits with
  | ok n => rfl
  | error fault => rfl

end Runs

/-- A program that leaves a valid circuit valid, whether it is refused or not. -/
def Sound (p : Builder R β) : Prop :=
  ∀ c : Circuit R, c.validate = .ok () → (p.run.run c).2.validate = .ok ()

/-- A program that leaves the circuit as it was when it is refused. -/
def Atomic (p : Builder R β) : Prop :=
  ∀ (c : Circuit R) (e : CircuitError R), (p.run.run c).1 = .error e → (p.run.run c).2 = c

theorem sound_lift (x : Except (CircuitError R) β) : Sound (lift x) := fun _ hvalid => hvalid

theorem Sound.bind {p : Builder R α} {f : α → Builder R β} (hp : Sound p) (hf : ∀ a, Sound (f a)) :
    Sound (p >>= f) := by
  intro c hvalid
  have hfirst := hp c hvalid
  rw [run_bind]
  generalize p.run.run c = first at hfirst ⊢
  obtain ⟨e | a, c'⟩ := first
  · exact hfirst
  · exact hf a c' hfirst

/-- What fails before anything is written leaves the circuit alone. -/
theorem Atomic.lift_bind {x : Except (CircuitError R) α} {f : α → Builder R β}
    (hf : ∀ a, Atomic (f a)) : Atomic (lift x >>= f) := by
  intro c e h
  rw [run_bind, run_lift] at h ⊢
  cases x with
  | ok a => exact hf a c e h
  | error e' => rfl

/-- Nothing is written after the last step that can be refused. -/
theorem Atomic.bind_pure {p : Builder R α} (hp : Atomic p) (f : α → β) :
    Atomic (p >>= fun a => pure (f a)) := by
  intro c e h
  have hfirst := hp c
  rw [run_bind] at h ⊢
  generalize p.run.run c = first at hfirst h ⊢
  obtain ⟨e' | a, c'⟩ := first
  · exact hfirst e' rfl
  · cases h

end Builder

namespace Circuit

variable {R : Type}

/-- A call of the builder. A circuit that is added to another one has passed its own check. -/
inductive Call (R : Type) where
  | addQubit
  | addClbit
  | append (inst : Instruction R)
  | h (q : Qubit)
  | x (q : Qubit)
  | y (q : Qubit)
  | z (q : Qubit)
  | s (q : Qubit)
  | sdg (q : Qubit)
  | t (q : Qubit)
  | tdg (q : Qubit)
  | sx (q : Qubit)
  | rx (theta : Parameter R) (q : Qubit)
  | ry (theta : Parameter R) (q : Qubit)
  | rz (theta : Parameter R) (q : Qubit)
  | p (lambda : Parameter R) (q : Qubit)
  | u (theta phi lambda : Parameter R) (q : Qubit)
  | cx (control target : Qubit)
  | cy (control target : Qubit)
  | cz (control target : Qubit)
  | ch (control target : Qubit)
  | swap (a b : Qubit)
  | iswap (a b : Qubit)
  | cry (theta : Parameter R) (control target : Qubit)
  | crz (theta : Parameter R) (control target : Qubit)
  | cp (lambda : Parameter R) (control target : Qubit)
  | rzz (theta : Parameter R) (a b : Qubit)
  | ccx (a b target : Qubit)
  | cswap (control a b : Qubit)
  | controlled (g : StandardGate (Parameter R)) (controls : List Control) (targets : List Qubit)
  | mcx (controls : List Control) (target : Qubit)
  | mcz (controls : List Control) (target : Qubit)
  | unitary (g : MatrixGate R) (qubits : List Qubit)
  | applyNamed (name : String) (angles : List (Parameter R)) (targets : List Qubit)
      (controls : List Control)
  | measure (q : Qubit) (b : Clbit)
  | measureAll
  | reset (q : Qubit)
  | barrier (qubits : List Qubit)
  | bindParameters (bindings : Bindings R)
  | compose (other : Circuit R) (hvalid : other.validate = .ok ())

/-- What a call does to the circuit. -/
def Call.program [Scalar R] : Call R → Builder R Unit
  | .addQubit => do let _ ← Builder.addQubit
  | .addClbit => do let _ ← Builder.addClbit
  | .append inst => .append inst
  | .h q => .h q
  | .x q => .x q
  | .y q => .y q
  | .z q => .z q
  | .s q => .s q
  | .sdg q => .sdg q
  | .t q => .t q
  | .tdg q => .tdg q
  | .sx q => .sx q
  | .rx theta q => .rx theta q
  | .ry theta q => .ry theta q
  | .rz theta q => .rz theta q
  | .p lambda q => .p lambda q
  | .u theta phi lambda q => .u theta phi lambda q
  | .cx control target => .cx control target
  | .cy control target => .cy control target
  | .cz control target => .cz control target
  | .ch control target => .ch control target
  | .swap a b => .swap a b
  | .iswap a b => .iswap a b
  | .cry theta control target => .cry theta control target
  | .crz theta control target => .crz theta control target
  | .cp lambda control target => .cp lambda control target
  | .rzz theta a b => .rzz theta a b
  | .ccx a b target => .ccx a b target
  | .cswap control a b => .cswap control a b
  | .controlled g controls targets => .controlled g controls targets
  | .mcx controls target => .mcx controls target
  | .mcz controls target => .mcz controls target
  | .unitary g qubits => .unitary g qubits
  | .applyNamed name angles targets controls => .applyNamed name angles targets controls
  | .measure q b => .measure q b
  | .measureAll => .measureAll
  | .reset q => .reset q
  | .barrier qubits => .barrier qubits
  | .bindParameters bindings => modify fun c => c.bindParameters bindings
  | .compose other _ => .compose other

/-- The circuit that a call leaves behind, and its answer. -/
def perform [Scalar R] (c : Circuit R) (call : Call R) : Circuit R × Except (CircuitError R) Unit :=
  (call.program.run.run c).swap

def performAll [Scalar R] (c : Circuit R) (calls : List (Call R)) : Circuit R :=
  calls.foldl (fun c call => (c.perform call).1) c

/-- The circuit with a classical bit for every qubit. -/
def widened (c : Circuit R) : Circuit R := { c with numClbits := max c.numClbits c.numQubits }

section Build

variable {β γ : Type}

theorem build_eq_ok {c c' : Circuit R} {p : Builder R β} :
    c.build p = .ok c' ↔ ∃ b, p.run.run c = (.ok b, c') := by
  unfold build
  generalize p.run.run c = last
  obtain ⟨e | b, c''⟩ := last
  · constructor
    · exact nofun
    · rintro ⟨_, h⟩
      cases congrArg Prod.fst h
  · constructor
    · rintro ⟨⟩
      exact ⟨b, rfl⟩
    · rintro ⟨_, ⟨⟩⟩
      rfl

/-- A program goes on with the circuit that its first part has made. -/
theorem build_seq (c : Circuit R) (p : Builder R β) (q : Builder R γ) :
    c.build (p >>= fun _ => q) = c.build p >>= fun c' => c'.build q := by
  unfold build
  rw [Builder.run_bind]
  rcases p.run.run c with ⟨_ | _, _⟩ <;> rfl

theorem build_lift_bind (c : Circuit R) (x : Except (CircuitError R) β) (f : β → Builder R γ) :
    c.build (Builder.lift x >>= f) = x >>= fun b => c.build (f b) := by
  unfold build
  rw [Builder.run_bind, Builder.run_lift]
  cases x <;> rfl

end Build

section Append

/-- Appending succeeds exactly for an instruction that fits. -/
theorem append_eq_ok {c c' : Circuit R} {inst : Instruction R} :
    c.append inst = .ok c' ↔
      c.Fits inst ∧ c' = { c with instructions := c.instructions ++ [inst] } := by
  rw [← check_eq_ok, append, build, Builder.run_append]
  cases c.check inst with
  | ok _ => simp [eq_comm]
  | error e => simp

/-- What fits a circuit fits every circuit with registers at least as large. -/
theorem Fits.mono {c c' : Circuit R} {inst : Instruction R} (h : c.Fits inst)
    (hqubits : c.numQubits ≤ c'.numQubits) (hclbits : c.numClbits ≤ c'.numClbits) :
    c'.Fits inst where
  gate := h.gate
  measure := h.measure
  nodup := h.nodup
  qubits q hq := (h.qubits q hq).trans_le (UInt32.le_iff_toNat_le.1 hqubits)
  clbits b hb := (h.clbits b hb).trans_le (UInt32.le_iff_toNat_le.1 hclbits)

theorem validate_append {c c' : Circuit R} (hvalid : c.validate = .ok ()) {inst : Instruction R}
    (h : c.append inst = .ok c') : c'.validate = .ok () := by
  obtain ⟨hfits, rfl⟩ := append_eq_ok.1 h
  rw [validate_eq_ok] at hvalid ⊢
  intro inst' hinst'
  have hmono (hold : c.Fits inst') :
      Fits { c with instructions := c.instructions ++ [inst] } inst' :=
    hold.mono UInt32.le_rfl UInt32.le_rfl
  rcases List.mem_append.1 hinst' with hinst' | hinst'
  · exact hmono (hvalid inst' hinst')
  · exact hmono (List.mem_singleton.1 hinst' ▸ hfits)

end Append

theorem validate_of_le {c c' : Circuit R} (hvalid : c.validate = .ok ())
    (hqubits : c.numQubits ≤ c'.numQubits) (hclbits : c.numClbits ≤ c'.numClbits)
    (hsame : c'.instructions = c.instructions) : c'.validate = .ok () := by
  rw [validate_eq_ok] at hvalid ⊢
  intro inst hinst
  exact (hvalid inst (hsame ▸ hinst)).mono hqubits hclbits

/-- A measurement of every qubit fits once there are classical bits for it. -/
theorem fits_measureAll (c : Circuit R) :
    c.widened.Fits (.measure (Qubit.range c.numQubits) (Clbit.range c.numQubits)) where
  gate g h := by cases h
  measure _ := by simp [Instruction.measure, Qubit.range, Clbit.range]
  nodup := by simpa [Instruction.allQubits, Instruction.measure, Instruction.controls] using
    Qubit.nodup_range c.numQubits
  qubits q hq := by
    have hmem : q ∈ Qubit.range c.numQubits := by
      simpa [Instruction.allQubits, Instruction.measure, Instruction.controls] using hq
    exact Qubit.index_lt_of_mem_range hmem
  clbits b hb := by
    refine (Clbit.index_lt_of_mem_range hb).trans_le ?_
    show _ ≤ (max c.numClbits c.numQubits).toNat
    rw [word_toNat_max]
    exact le_max_right _ _

/-- A circuit is added exactly if its registers are no larger, and its instructions follow. -/
theorem compose_eq_ok {c c' other : Circuit R} : c.compose other = .ok c' ↔
    (other.numQubits ≤ c.numQubits ∧ other.numClbits ≤ c.numClbits) ∧
      c' = { c with instructions := c.instructions ++ other.instructions } := by
  rw [compose, build, Builder.run_compose, ← UInt32.not_lt, ← UInt32.not_lt, ← not_or]
  by_cases hlarge : c.numQubits < other.numQubits ∨ c.numClbits < other.numClbits
  · simp [hlarge]
  · simp [hlarge, eq_comm]

theorem validate_compose {c c' other : Circuit R} (hvalid : c.validate = .ok ())
    (hother : other.validate = .ok ()) (h : c.compose other = .ok c') : c'.validate = .ok () := by
  obtain ⟨⟨hqubits, hclbits⟩, rfl⟩ := compose_eq_ok.1 h
  rw [validate_eq_ok] at hvalid hother ⊢
  intro inst hinst
  rcases List.mem_append.1 hinst with hinst | hinst
  · exact (hvalid inst hinst).mono UInt32.le_rfl UInt32.le_rfl
  · exact (hother inst hinst).mono hqubits hclbits

end Circuit

namespace Builder

variable {R : Type}

theorem sound_append (inst : Instruction R) : Sound (append inst) := by
  intro c hvalid
  rw [run_append]
  cases hcheck : c.check inst with
  | ok _ =>
    have happend := Circuit.append_eq_ok.2 ⟨(Circuit.check_eq_ok _ _).1 hcheck, rfl⟩
    exact Circuit.validate_append hvalid happend
  | error e => exact hvalid

theorem atomic_append (inst : Instruction R) : Atomic (append inst) := by
  intro c e h
  rw [run_append] at h ⊢
  cases hcheck : c.check inst with
  | ok _ => simp [hcheck] at h
  | error e => rfl

theorem sound_addQubit : Sound (addQubit : Builder R Qubit) := by
  intro c hvalid
  rw [run_addQubit]
  cases hnext : nextWord c.numQubits with
  | ok n =>
    have hn := nextWord_eq_ok hnext
    have hmore : c.numQubits ≤ n := UInt32.le_iff_toNat_le.2 (by omega)
    exact Circuit.validate_of_le hvalid hmore UInt32.le_rfl rfl
  | error fault => exact hvalid

theorem atomic_addQubit : Atomic (addQubit : Builder R Qubit) := by
  intro c e h
  rw [run_addQubit] at h ⊢
  cases hnext : nextWord c.numQubits with
  | ok n => simp [hnext] at h
  | error fault => rfl

theorem sound_addClbit : Sound (addClbit : Builder R Clbit) := by
  intro c hvalid
  rw [run_addClbit]
  cases hnext : nextWord c.numClbits with
  | ok n =>
    have hn := nextWord_eq_ok hnext
    have hmore : c.numClbits ≤ n := UInt32.le_iff_toNat_le.2 (by omega)
    exact Circuit.validate_of_le hvalid UInt32.le_rfl hmore rfl
  | error fault => exact hvalid

theorem atomic_addClbit : Atomic (addClbit : Builder R Clbit) := by
  intro c e h
  rw [run_addClbit] at h ⊢
  cases hnext : nextWord c.numClbits with
  | ok n => simp [hnext] at h
  | error fault => rfl

theorem sound_addClbits (n : ℕ) : Sound (addClbits n : Builder R Unit) := by
  induction n with
  | zero => exact fun c hvalid => hvalid
  | succ n ih => exact sound_addClbit.bind fun _ => ih

theorem sound_measureAll : Sound (measureAll : Builder R Unit) := by
  intro c hvalid
  unfold measureAll
  rw [run_bind_of_ok (run_get c)]
  exact (sound_addClbits _).bind (fun _ => sound_append _) c hvalid

theorem sound_compose {other : Circuit R} (hother : other.validate = .ok ()) :
    Sound (compose other) := by
  intro c hvalid
  rw [run_compose]
  split
  · exact hvalid
  next hfits =>
    rw [not_or, UInt32.not_lt, UInt32.not_lt] at hfits
    exact Circuit.validate_compose hvalid hother (Circuit.compose_eq_ok.2 ⟨hfits, rfl⟩)

theorem atomic_compose (other : Circuit R) : Atomic (compose other) := by
  intro c e h
  rw [run_compose] at h ⊢
  split
  · rfl
  next hfits => simp [hfits] at h

/-- Classical bits can be added one by one up to any width that is a word. -/
theorem run_addClbits {n : ℕ} {c : Circuit R} {width : UInt32}
    (h : width.toNat = c.numClbits.toNat + n) :
    (addClbits n).run.run c = (.ok (), { c with numClbits := width }) := by
  induction n generalizing c with
  | zero =>
    have hsame : width = c.numClbits := UInt32.toNat_inj.1 h
    subst hsame
    rfl
  | succ n ih =>
    have hlt : c.numClbits.toNat + 1 < UInt32.size := by
      have hword : width.toNat < UInt32.size := width.toNat_lt
      omega
    have hnext : nextWord c.numClbits = .ok (c.numClbits + 1) := if_pos hlt
    have hword := nextWord_eq_ok hnext
    have hadd : addClbit.run.run c =
        (.ok ⟨c.numClbits⟩, { c with numClbits := c.numClbits + 1 }) := by
      rw [run_addClbit, hnext]
    unfold addClbits
    rw [run_bind_of_ok hadd, ih (c := { c with numClbits := c.numClbits + 1 })]
    dsimp only
    omega

/-- The classical bits that are missing can all be added. -/
theorem run_addClbits_missing (c : Circuit R) :
    (addClbits (c.numQubits.toNat - c.numClbits.toNat)).run.run c = (.ok (), c.widened) := by
  apply run_addClbits
  rw [word_toNat_max]
  omega

/-- Measuring everything succeeds on every circuit. -/
theorem run_measureAll (c : Circuit R) : measureAll.run.run c =
    (.ok (), { c.widened with
      instructions := c.instructions ++
        [.measure (Qubit.range c.numQubits) (Clbit.range c.numQubits)] }) := by
  unfold measureAll
  rw [run_bind_of_ok (run_get c), run_bind_of_ok (run_addClbits_missing c), run_append,
    (Circuit.check_eq_ok _ _).2 c.fits_measureAll]
  rfl

theorem atomic_measureAll : Atomic (measureAll : Builder R Unit) := by
  intro c e h
  rw [run_measureAll] at h
  cases h

end Builder

namespace Circuit

variable {R : Type} [Scalar R]

theorem Call.sound_program (call : Call R) : call.program.Sound := by
  cases call with
  | addQubit => exact Builder.sound_addQubit.bind fun _ _ hvalid => hvalid
  | addClbit => exact Builder.sound_addClbit.bind fun _ _ hvalid => hvalid
  | applyNamed name angles targets controls =>
    exact (Builder.sound_lift _).bind fun _ => Builder.sound_append _
  | measureAll => exact Builder.sound_measureAll
  | bindParameters bindings => exact fun c hvalid => validate_bindParameters hvalid bindings
  | compose other hother => exact Builder.sound_compose hother
  | _ => exact Builder.sound_append _

theorem Call.atomic_program (call : Call R) : call.program.Atomic := by
  cases call with
  | addQubit => exact Builder.atomic_addQubit.bind_pure _
  | addClbit => exact Builder.atomic_addClbit.bind_pure _
  | applyNamed name angles targets controls =>
    exact .lift_bind fun _ => Builder.atomic_append _
  | measureAll => exact Builder.atomic_measureAll
  | bindParameters bindings => exact nofun
  | compose other _ => exact Builder.atomic_compose other
  | _ => exact Builder.atomic_append _

/-- No call makes a valid circuit invalid. -/
theorem validate_perform {c : Circuit R} (hvalid : c.validate = .ok ()) (call : Call R) :
    (c.perform call).1.validate = .ok () :=
  call.sound_program c hvalid

theorem validate_performAll {c : Circuit R} (hvalid : c.validate = .ok ()) (calls : List (Call R)) :
    (c.performAll calls).validate = .ok () := by
  induction calls generalizing c with
  | nil => exact hvalid
  | cons call calls ih => exact ih (validate_perform hvalid call)

/-- Building a circuit call by call. Appending succeeds exactly for an instruction that fits, and
adds it at the end. Whatever the calls, the circuit they leave behind is valid. A refused call
leaves the circuit as it was. Measuring everything can add all classical bits it needs and is never
refused. -/
theorem building_sound (R : Type) [Scalar R] :
    (∀ (c c' : Circuit R) (inst : Instruction R), c.append inst = .ok c' ↔
      c.Fits inst ∧ c' = { c with instructions := c.instructions ++ [inst] }) ∧
    (∀ (name : String) (numQubits numClbits : UInt32) (calls : List (Call R)),
      ((withSize name numQubits numClbits).performAll calls).validate = .ok ()) ∧
    (∀ (c : Circuit R) (call : Call R) (e : CircuitError R),
      (c.perform call).2 = .error e → (c.perform call).1 = c) ∧
    ∀ c : Circuit R,
      c.build (.addClbits (c.numQubits.toNat - c.numClbits.toNat)) = .ok c.widened ∧
        (c.perform .measureAll).2 = .ok () := by
  refine ⟨fun _ _ _ => append_eq_ok, fun name numQubits numClbits calls => ?_,
    fun c call => call.atomic_program c, fun c => ⟨?_, ?_⟩⟩
  · exact validate_performAll (c := withSize name numQubits numClbits) rfl calls
  · exact build_eq_ok.2 ⟨(), Builder.run_addClbits_missing c⟩
  · exact congrArg Prod.fst (Builder.run_measureAll c)

/-- An operand outside the register is refused before the qubit is added and not after it, and
measuring everything adds two classical bits. -/
theorem building_sound_grown :
    let calls : List (Call Float) := [.h ⟨0⟩, .cx ⟨0⟩ ⟨2⟩, .addQubit, .cx ⟨0⟩ ⟨2⟩, .measureAll]
    let c := (withSize "grown" 2 1).performAll calls
    c.validate = .ok () ∧ c.numQubits = 3 ∧ c.numClbits = 3 ∧ c.instructions.length = 3 ∧
      ∃ e, (c.perform (.ccx ⟨0⟩ ⟨1⟩ ⟨0⟩)).2 = .error e ∧ (c.perform (.ccx ⟨0⟩ ⟨1⟩ ⟨0⟩)).1 = c := by
  intro calls c
  obtain ⟨-, hvalid, hrefused, -⟩ := building_sound Float
  have hduplicate : (c.perform (.ccx ⟨0⟩ ⟨1⟩ ⟨0⟩)).2 = .error (.duplicateQubit ⟨0⟩ (some "ccx")) :=
    rfl
  exact ⟨hvalid "grown" 2 1 calls, rfl, rfl, rfl, _, hduplicate, hrefused c _ _ hduplicate⟩

end Circuit

end QuantumSim
