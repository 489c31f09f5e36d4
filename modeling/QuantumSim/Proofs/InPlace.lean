import Mathlib
import QuantumSim.Proofs.Application
import QuantumSim.Proofs.Exact
import QuantumSim.Proofs.SampledReadout

/-!
Gates that overwrite their state. A program in place reads and writes single amplitudes, each one
inside the chunk that the program was handed, and what it has written stays where it fails later.
On a register an instruction of any kind either runs to its end or is refused before the first
write.
-/
namespace QuantumSim

/-- A program that works on a state in place; a failure leaves what was written so far. -/
abbrev InPlace (R : Type) := ExceptT (SimulationError R) (StateM (Statevector R))

/-- A run of consecutive amplitudes. -/
structure Chunk where
  offset : ℕ
  length : ℕ

/-- Whether an instruction was refused for what it asks: an operator that cannot be formed, an
operand outside the register, or the wrong number of operands. -/
def SimulationError.IsRefusal {R : Type} : SimulationError R → Prop
  | nonUnitary _ => True
  | circuit (.parameter _) => True
  | circuit (.qubitNotFound ..) => True
  | circuit (.operandCount ..) => True
  | _ => False

namespace InPlace

variable {R : Type}

section Accesses

/-- A step that writes nothing. -/
def lift {α : Type} (e : Except (SimulationError R) α) : InPlace R α := ExceptT.mk (pure e)

/-- The amplitude at a place of a chunk. -/
def read (c : Chunk) (j : ℕ) : InPlace R (Amplitude R) := do
  let s ← get
  if j < c.length then lift (SimulationError.ofChecked (elementAt s.amplitudes (c.offset + j)))
  else throw (.fault .index)

/-- Overwrites the amplitude at a place of a chunk. -/
def write (c : Chunk) (j : ℕ) (a : Amplitude R) : InPlace R Unit := do
  let s ← get
  if j < c.length ∧ c.offset + j < s.size then
    set { s with amplitudes := s.amplitudes.setIfInBounds (c.offset + j) a }
  else throw (.fault .index)

/-- Runs `body` on every chunk of `len` amplitudes in turn. The last one may be shorter. -/
def overChunks (len : ℕ) (body : Chunk → InPlace R Unit) : InPlace R Unit := do
  let size := (← get).size
  (List.range ((size + len - 1) / len)).forM fun k => body ⟨k * len, min len (size - k * len)⟩

/-- The position of an operand qubit, which has to be in the register. -/
def position (gate : String) (q : Qubit) : InPlace R ℕ := do lift ((← get).position gate q)

end Accesses

section Programs

variable [Scalar R]

/-- One row of a matrix times a column of two amplitudes. -/
def rowTimes (row : Vector (Amplitude R) 2) (a b : Amplitude R) : Amplitude R :=
  row.get ⟨0, Nat.zero_lt_two⟩ * a + row.get ⟨1, Nat.one_lt_two⟩ * b

/-- Overwrites a pair by its image under `m`. -/
def updatePair (m : GateMatrix R 2) (c : Chunk) (i j : ℕ) : InPlace R Unit := do
  let a ← read c i
  let b ← read c j
  (List.finRange 2).forM fun row => write c (![i, j] row) (rowTimes (m.get row) a b)

def pairChunk (m : GateMatrix R 2) (stride : ℕ) (ctrl : ControlMask) (c : Chunk) :
    InPlace R Unit :=
  (List.range stride).forM fun j =>
    if ctrl.fires (c.offset + j) then updatePair m c j (j + stride) else pure ()

def applySingle (m : GateMatrix R 2) (target : ℕ) (ctrl : ControlMask) : InPlace R Unit := do
  let stride ← lift (SimulationError.ofChecked (bitMask target))
  overChunks (2 * stride) (pairChunk m stride ctrl)

/-- Multiplies the amplitude at `i` by the factor for the value of the target bit. -/
def phaseAt (zero one : Amplitude R) (mask : ℕ) (ctrl : ControlMask) (c : Chunk) (i : ℕ) :
    InPlace R Unit :=
  if ctrl.fires i then do
    let a ← read c i
    write c i (a * (if i &&& mask = 0 then zero else one))
  else pure ()

def applyDiagonal (zero one : Amplitude R) (target : ℕ) (ctrl : ControlMask) : InPlace R Unit := do
  let mask ← lift (SimulationError.ofChecked (bitMask target))
  let size := (← get).size
  (List.range size).forM (phaseAt zero one mask ctrl ⟨0, size⟩)

/-- Overwrites four amplitudes, not always different ones, by their images under `m`. -/
def updateQuad (m : GateMatrix R 4) (ch : Chunk) (i j k l : ℕ) : InPlace R Unit := do
  let a ← read ch i
  let b ← read ch j
  let c ← read ch k
  let d ← read ch l
  (List.finRange 4).forM fun row =>
    write ch (![i, j, k, l] row) (Kernel.rowTimes (m.get row) a b c d)

def quadChunk (m : GateMatrix R 4) (m0 m1 : ℕ) (ctrl : ControlMask) (c : Chunk) :
    InPlace R Unit :=
  ((List.range (max m0 m1)).filter fun j => j &&& min m0 m1 == 0).forM fun j =>
    if ctrl.fires (c.offset + j) then updateQuad m c j (j ||| m0) (j ||| m1) (j ||| m0 ||| m1)
    else pure ()

def applyDouble (m : GateMatrix R 4) (first second : ℕ) (ctrl : ControlMask) :
    InPlace R Unit := do
  let m0 ← lift (SimulationError.ofChecked (bitMask first))
  let m1 ← lift (SimulationError.ofChecked (bitMask second))
  overChunks (2 * max m0 m1) (quadChunk m m0 m1 ctrl)

def applyLowered (lowered : LoweredGate R) (gate : Gate R) (operands : List Qubit) :
    InPlace R Unit := do
  let s ← get
  let ctrl ← lift (s.controlMask gate.name (operands.take lowered.controls) gate.controls)
  match lowered.operator, operands.drop lowered.controls with
  | .diagonal zero one, [t] =>
    let t ← position gate.name t
    applyDiagonal zero one t ctrl
  | .single m, [t] =>
    let t ← position gate.name t
    applySingle m t ctrl
  | .double m, [first, second] =>
    let first ← position gate.name first
    let second ← position gate.name second
    applyDouble m first second ctrl
  | _, _ => throw (.circuit (.operandCount gate.name gate.numQubits operands.length.toUInt32))

/-- Applies a gate instruction in place; every other instruction leaves the state alone. -/
def apply (inst : Instruction R) : InPlace R Unit :=
  match inst.operation with
  | .gate g => do
    let lowered ← lift g.kind.lower
    applyLowered lowered g inst.qubits
  | _ => pure ()

end Programs

/-- A program that never fails on states of the given size and leaves the amplitudes that a kernel
computes. -/
def Performs (size : ℕ) (x : InPlace R Unit)
    (f : Array (Amplitude R) → Checked (Array (Amplitude R))) : Prop :=
  ∀ s : Statevector R, s.size = size → ∃ amps, f s.amplitudes = .ok amps ∧ amps.size = size ∧
    x.run s = (.ok (), { s with amplitudes := amps })

section Loops

variable {size : ℕ} {c : Chunk} {x : InPlace R Unit}
  {f : Array (Amplitude R) → Checked (Array (Amplitude R))}

theorem performs_skip : Performs size (pure () : InPlace R Unit) .ok :=
  fun s hs => ⟨s.amplitudes, rfl, hs, rfl⟩

theorem Performs.ite {p : Prop} [Decidable p] (h : Performs size x f) :
    Performs size (if p then x else pure ()) fun amps => if p then f amps else .ok amps := by
  split
  · exact h
  · exact performs_skip

/-- A loop of programs performs the loop of their kernels. -/
theorem Performs.forM {κ : Type} {x : κ → InPlace R Unit}
    {f : Array (Amplitude R) → κ → Checked (Array (Amplitude R))} {ks : List κ}
    (h : ∀ k ∈ ks, Performs size (x k) (f · k)) :
    Performs size (ks.forM x) fun amps => ks.foldlM f amps := by
  induction ks with
  | nil => exact performs_skip
  | cons k ks ih =>
    intro s hs
    obtain ⟨first, hfirst, hsize, hrun⟩ := h k (by simp) s hs
    obtain ⟨amps, hrest, hlast, hruns⟩ :=
      ih (fun l hl => h l (List.mem_cons_of_mem _ hl)) { s with amplitudes := first } hsize
    exact ⟨amps, List.foldlM_cons.trans (bind_eq_ok.2 ⟨first, hfirst, hrest⟩), hlast,
      (run_bind_of_ok hrun).trans hruns⟩

/-- A loop over chunks of a length that divides the size sees full chunks of the array only. -/
theorem performs_overChunks {len : ℕ} {body : Chunk → InPlace R Unit}
    {kernel : ℕ → Array (Amplitude R) → Checked (Array (Amplitude R))} (hlen : len ∣ size)
    (hpos : 0 < len)
    (hbody : ∀ offset, offset + len ≤ size → Performs size (body ⟨offset, len⟩) (kernel offset)) :
    Performs size (overChunks len body) (Kernel.overChunks len kernel) := by
  intro s hs
  obtain ⟨count, hcount⟩ := hlen
  have hchunks : (size + len - 1) / len = count := by
    rw [hcount, Nat.mul_comm, chunks_of_mul hpos]
  have hloop : Performs size
      ((List.range count).forM fun k => body ⟨k * len, min len (size - k * len)⟩)
      fun amps => (List.range count).foldlM (fun amps k => kernel (k * len) amps) amps := by
    apply Performs.forM
    intro k hk
    have hlast : (k + 1) * len ≤ size := by
      rw [hcount, Nat.mul_comm len]
      exact Nat.mul_le_mul_right len (List.mem_range.1 hk)
    rw [Nat.succ_mul] at hlast
    -- the length divides the size, so that the last chunk is a full one too
    have hfull : min len (size - k * len) = len := by omega
    rw [hfull]
    exact hbody (k * len) hlast
  have hkernel : Kernel.overChunks len kernel s.amplitudes =
      (List.range count).foldlM (fun amps k => kernel (k * len) amps) s.amplitudes := by
    unfold Kernel.overChunks
    rw [show s.amplitudes.size = size from hs, hchunks]
  have hprogram : (overChunks len body).run s =
      ((List.range count).forM fun k => body ⟨k * len, min len (size - k * len)⟩).run s := by
    rw [← hchunks, ← hs]
    rfl
  rw [hkernel, hprogram]
  exact hloop s hs

end Loops

section Kernels

variable {size : ℕ} {c : Chunk}

theorem run_write {s : Statevector R} {j : ℕ} (a : Amplitude R) (hj : j < c.length)
    (hc : c.offset + c.length ≤ s.size) :
    (write c j a).run s =
      (.ok (), { s with amplitudes := s.amplitudes.setIfInBounds (c.offset + j) a }) := by
  have hin : j < c.length ∧ c.offset + j < s.size := by omega
  show (if j < c.length ∧ c.offset + j < s.size then set _ else throw _ : InPlace R Unit).run s = _
  rw [if_pos hin]
  rfl

/-- A loop of writes to one chunk. -/
theorem run_writes {κ : Type} {rows : List κ} {place : κ → ℕ} (value : κ → Amplitude R)
    (hplace : ∀ row ∈ rows, place row < c.length) {s : Statevector R}
    (hc : c.offset + c.length ≤ s.size) :
    (rows.forM fun row => write c (place row) (value row)).run s =
      (.ok (), { s with amplitudes := rows.foldl (fun amps row =>
        amps.setIfInBounds (c.offset + place row) (value row)) s.amplitudes }) := by
  induction rows generalizing s with
  | nil => rfl
  | cons row rows ih =>
    obtain ⟨hfirst, hrest⟩ := List.forall_mem_cons.1 hplace
    refine (run_bind_of_ok (run_write (value row) hfirst hc)).trans (ih hrest ?_)
    simpa [Statevector.size] using hc

variable [Scalar R]

theorem run_read {s : Statevector R} {j : ℕ} (hj : j < c.length)
    (hc : c.offset + c.length ≤ s.size) :
    (read c j).run s = (.ok (Kernel.valueAt s.amplitudes (c.offset + j)), s) := by
  have hin : c.offset + j < s.amplitudes.size := (Nat.add_lt_add_left hj _).trans_le hc
  show (if j < c.length then lift (SimulationError.ofChecked _) else throw _ :
    InPlace R (Amplitude R)).run s = _
  rw [if_pos hj, Kernel.elementAt_eq hin]
  rfl

theorem performs_updatePair (m : GateMatrix R 2) {i j : ℕ} (hi : i < c.length) (hj : j < c.length)
    (hc : c.offset + c.length ≤ size) :
    Performs size (updatePair m c i j) (Kernel.updatePair m (c.offset + i) (c.offset + j)) := by
  rintro s rfl
  have hin {p : ℕ} (hp : p < c.length) : c.offset + p < s.amplitudes.size :=
    (Nat.add_lt_add_left hp _).trans_le hc
  have hplace : ∀ row ∈ List.finRange 2, ![i, j] row < c.length := by
    simp [Fin.forall_fin_two, hi, hj]
  apply Exists.intro
  refine ⟨?kernel, ?size, ?run⟩
  case kernel =>
    unfold Kernel.updatePair
    rw [Kernel.elementAt_eq (hin hi), Kernel.elementAt_eq (hin hj)]
    rfl
  case size => simp [Statevector.size]
  case run =>
    refine (run_bind_of_ok (run_read hi hc)).trans ((run_bind_of_ok (run_read hj hc)).trans ?_)
    exact run_writes _ hplace hc

theorem performs_updateQuad (m : GateMatrix R 4) {i j k l : ℕ} (hi : i < c.length)
    (hj : j < c.length) (hk : k < c.length) (hl : l < c.length)
    (hc : c.offset + c.length ≤ size) :
    Performs size (updateQuad m c i j k l)
      (Kernel.updateQuad m (c.offset + i) (c.offset + j) (c.offset + k) (c.offset + l)) := by
  rintro s rfl
  have hin {p : ℕ} (hp : p < c.length) : c.offset + p < s.amplitudes.size :=
    (Nat.add_lt_add_left hp _).trans_le hc
  have hplace : ∀ row ∈ List.finRange 4, ![i, j, k, l] row < c.length := by
    simp [Fin.forall_fin_succ, hi, hj, hk, hl]
  apply Exists.intro
  refine ⟨?kernel, ?size, ?run⟩
  case kernel =>
    unfold Kernel.updateQuad
    rw [Kernel.elementAt_eq (hin hi), Kernel.elementAt_eq (hin hj), Kernel.elementAt_eq (hin hk),
      Kernel.elementAt_eq (hin hl)]
    rfl
  case size => simp [Statevector.size]
  case run =>
    refine (run_bind_of_ok (run_read hi hc)).trans ((run_bind_of_ok (run_read hj hc)).trans ?_)
    refine (run_bind_of_ok (run_read hk hc)).trans ((run_bind_of_ok (run_read hl hc)).trans ?_)
    exact run_writes _ hplace hc

theorem performs_phaseAt (zero one : Amplitude R) (mask : ℕ) (ctrl : ControlMask) {i : ℕ}
    (hi : i < size) :
    Performs size (phaseAt zero one mask ctrl ⟨0, size⟩ i)
      fun amps => .ok (Kernel.phaseAt zero one mask ctrl amps i) := by
  rintro s rfl
  have hc : 0 + s.size ≤ s.size := (Nat.zero_add _).le
  unfold phaseAt Kernel.phaseAt
  split
  · have hmodify (u : Amplitude R) : s.amplitudes.modify i (· * u) =
        s.amplitudes.setIfInBounds (0 + i) (Kernel.valueAt s.amplitudes (0 + i) * u) := by
      rw [Nat.zero_add, Kernel.modify_eq_setIfInBounds hi]
    refine ⟨_, rfl, by simp [Statevector.size], ?_⟩
    rw [hmodify]
    exact (run_bind_of_ok (run_read hi hc)).trans (run_write _ hi hc)
  · exact ⟨s.amplitudes, rfl, rfl, rfl⟩

variable {n : ℕ}

theorem performs_pairChunk (m : GateMatrix R 2) {stride offset : ℕ} (ctrl : ControlMask)
    (hoffset : offset + 2 * stride ≤ size) :
    Performs size (pairChunk m stride ctrl ⟨offset, 2 * stride⟩)
      (Kernel.pairChunk m stride ctrl offset) := by
  apply Performs.forM
  intro j hj
  have hj := List.mem_range.1 hj
  have hlow : j < 2 * stride := by omega
  have hhigh : j + stride < 2 * stride := by omega
  have hpair := performs_updatePair m (c := ⟨offset, 2 * stride⟩) hlow hhigh hoffset
  rw [← Nat.add_assoc] at hpair
  exact hpair.ite

theorem performs_applySingle (m : GateMatrix R 2) {t : ℕ} (ht : t < n) (hn : n < 64)
    (ctrl : ControlMask) :
    Performs (2 ^ n) (applySingle m t ctrl) (Kernel.applySingle m t ctrl) := by
  intro s hs
  have hdvd : 2 * 2 ^ t ∣ 2 ^ n := pow_succ' 2 t ▸ pow_dvd_pow 2 ht
  unfold applySingle Kernel.applySingle
  rw [bitMask_eq (ht.trans hn)]
  exact performs_overChunks hdvd (by positivity)
    (fun offset hoffset => performs_pairChunk m ctrl hoffset) s hs

theorem performs_applyDiagonal (zero one : Amplitude R) {t : ℕ} (ht : t < 64) (ctrl : ControlMask) :
    Performs size (applyDiagonal zero one t ctrl) (Kernel.applyDiagonal zero one t ctrl) := by
  intro s hs
  have hloop : Performs size
      ((List.range size).forM (phaseAt zero one (2 ^ t) ctrl ⟨0, size⟩)) fun amps =>
      (List.range size).foldlM
        (fun amps i => .ok (Kernel.phaseAt zero one (2 ^ t) ctrl amps i)) amps :=
    Performs.forM fun i hi => performs_phaseAt zero one (2 ^ t) ctrl (List.mem_range.1 hi)
  obtain ⟨amps, hkernel, hsize, hrun⟩ := hloop s hs
  refine ⟨amps, ?_, hsize, ?_⟩
  · unfold Kernel.applyDiagonal
    rw [bitMask_eq ht, ok_bind, show s.amplitudes.size = size from hs, ← hkernel]
    exact List.foldlM_pure.symm
  · unfold applyDiagonal
    rw [bitMask_eq ht, ← hrun, ← hs]
    rfl

/-- The four places lie in the chunk whether the target bits differ or not. -/
theorem performs_quadChunk (m : GateMatrix R 4) (t0 t1 : ℕ) (ctrl : ControlMask) {offset : ℕ}
    (hoffset : offset + 2 ^ (max t0 t1 + 1) ≤ size) :
    Performs size (quadChunk m (2 ^ t0) (2 ^ t1) ctrl ⟨offset, 2 ^ (max t0 t1 + 1)⟩)
      (Kernel.quadChunk m (2 ^ t0) (2 ^ t1) ctrl offset) := by
  have hbit {t : ℕ} (ht : t ≤ max t0 t1) : 2 ^ t < 2 ^ (max t0 t1 + 1) :=
    Nat.pow_lt_pow_right (by decide) (by omega)
  apply Performs.forM
  intro j hj
  have hj := List.mem_range.1 (List.mem_filter.1 hj).1
  rw [Kernel.two_pow_max] at hj
  have hbase := hj.trans (hbit le_rfl)
  have hfirst := Nat.or_lt_two_pow hbase (hbit (le_max_left t0 t1))
  have hsecond := Nat.or_lt_two_pow hbase (hbit (le_max_right t0 t1))
  have hboth := Nat.or_lt_two_pow hfirst (hbit (le_max_right t0 t1))
  exact (performs_updateQuad m (c := ⟨offset, 2 ^ (max t0 t1 + 1)⟩) hbase hfirst hsecond hboth
    hoffset).ite

/-- The targets need not be different qubits. -/
theorem performs_applyDouble (m : GateMatrix R 4) {t0 t1 : ℕ} (h0 : t0 < n) (h1 : t1 < n)
    (hn : n < 64) (ctrl : ControlMask) :
    Performs (2 ^ n) (applyDouble m t0 t1 ctrl) (Kernel.applyDouble m t0 t1 ctrl) := by
  intro s hs
  have hlen : 2 * max (2 ^ t0) (2 ^ t1) = 2 ^ (max t0 t1 + 1) := by
    rw [Kernel.two_pow_max, pow_succ']
  have hdvd : 2 ^ (max t0 t1 + 1) ∣ 2 ^ n := pow_dvd_pow 2 (max_lt h0 h1)
  have hloop := performs_overChunks hdvd (by positivity)
    (fun offset hoffset => performs_quadChunk m t0 t1 ctrl hoffset) s hs
  rw [← hlen] at hloop
  unfold applyDouble Kernel.applyDouble
  rw [bitMask_eq (h0.trans hn), bitMask_eq (h1.trans hn)]
  exact hloop

end Kernels

section Instructions

/-- A program that does in place to a state what a function does, or refuses and leaves the state as
it is. -/
def Atomic (s : Statevector R) (x : InPlace R Unit)
    (result : Except (SimulationError R) (Statevector R)) : Prop :=
  (∃ t, result = .ok t ∧ x.run s = (.ok (), t) ∧ t.numQubits = s.numQubits ∧ t.size = s.size) ∨
    ∃ e, result = .error e ∧ x.run s = (.error e, s) ∧ e.IsRefusal

variable {s : Statevector R}

theorem atomic_error {e : SimulationError R} (he : e.IsRefusal) :
    Atomic s (throw e) (.error e) :=
  .inr ⟨e, rfl, rfl, he⟩

/-- A check before the rest of a program. -/
theorem Atomic.check {α : Type} {a : Except (SimulationError R) α} {x : α → InPlace R Unit}
    {result : α → Except (SimulationError R) (Statevector R)}
    (ha : ∀ e, a = .error e → e.IsRefusal) (h : ∀ v, a = .ok v → Atomic s (x v) (result v)) :
    Atomic s (lift a >>= x) (a >>= result) := by
  cases a with
  | error e => exact atomic_error (ha e rfl)
  | ok v => exact h v rfl

/-- A kernel that performs never refuses. -/
theorem Performs.atomic {x : InPlace R Unit}
    {f : Array (Amplitude R) → Checked (Array (Amplitude R))} (h : Performs s.size x f) :
    Atomic s x (do
      let amps ← SimulationError.ofChecked (f s.amplitudes)
      return { s with amplitudes := amps }) := by
  obtain ⟨amps, hf, hsize, hrun⟩ := h s rfl
  rw [hf]
  exact .inl ⟨{ s with amplitudes := amps }, rfl, hrun, rfl, hsize⟩

theorem isRefusal_of_position {gate : String} {q : Qubit} {e : SimulationError R}
    (h : s.position gate q = .error e) : e.IsRefusal := by
  unfold Statevector.position at h
  split at h
  · cases h
  · cases h
    trivial

theorem lt_of_position_eq_ok {gate : String} {q : Qubit} {t : ℕ}
    (h : s.position gate q = .ok t) : t < s.numQubits := by
  unfold Statevector.position at h
  split at h
  next hq =>
    cases h
    exact hq
  next => cases h

theorem Atomic.position {gate : String} {q : Qubit} {x : ℕ → InPlace R Unit}
    {result : ℕ → Except (SimulationError R) (Statevector R)}
    (h : ∀ t < s.numQubits, Atomic s (x t) (result t)) :
    Atomic s (position gate q >>= x) (s.position gate q >>= result) :=
  Atomic.check (fun _ he => isRefusal_of_position he) fun t ht => h t (lt_of_position_eq_ok ht)

/-- Controls are refused for their range only. Whether they repeat or are targets is not looked
at. -/
theorem isRefusal_of_controlMask (hs : s.IsRegister) {gate : String} {leading : List Qubit}
    {controls : List Control} {e : SimulationError R}
    (h : s.controlMask gate leading controls = .error e) : e.IsRefusal := by
  have hone (mask : ControlMask) (q : Qubit) (onOne : Bool)
      (h : (do SimulationError.ofChecked (mask.add (← s.position gate q) onOne) :
        Except (SimulationError R) ControlMask) = .error e) : e.IsRefusal := by
    rcases bind_eq_error.1 h with h | ⟨t, ht, h⟩
    · exact isRefusal_of_position h
    · unfold ControlMask.add at h
      rw [bitMask_eq ((lt_of_position_eq_ok ht).trans hs.width)] at h
      cases h
  rcases bind_eq_error.1 h with h | ⟨mask, -, h⟩
  · obtain ⟨mask, q, -, h⟩ := exists_eq_error_of_foldlM h
    exact hone mask q true h
  · obtain ⟨mask, c, -, h⟩ := exists_eq_error_of_foldlM h
    exact hone mask c.qubit _ h

variable [Scalar R]

theorem isRefusal_of_lower {kind : GateKind R} {e : SimulationError R}
    (h : kind.lower = .error e) : e.IsRefusal := by
  cases kind with
  | standard g =>
    simp only [GateKind.lower] at h
    split at h
    · cases h
    · cases h
      trivial
  | matrix g =>
    simp only [GateKind.lower] at h
    cases hg : g.lower with
    | error cause =>
      rw [hg] at h
      cases h
      trivial
    | ok lowered =>
      rw [hg] at h
      cases h

theorem atomic_applyLowered (hs : s.IsRegister) (lowered : LoweredGate R) (gate : Gate R)
    (operands : List Qubit) :
    Atomic s (applyLowered lowered gate operands) (s.applyLowered lowered gate operands) := by
  have hsize : s.size = 2 ^ s.numQubits := hs.size
  -- every check comes before the kernel, and the kernels do not fail on positions in the register
  refine Atomic.check (fun e he => isRefusal_of_controlMask hs he) fun ctrl _ => ?_
  generalize operands.drop lowered.controls = targets
  generalize lowered.operator = operator
  match operator, targets with
  | .diagonal zero one, [t] =>
    refine Atomic.position fun t ht => ?_
    exact (performs_applyDiagonal zero one (ht.trans hs.width) ctrl).atomic
  | .single m, [t] =>
    refine Atomic.position fun t ht => ?_
    exact Performs.atomic (hsize ▸ performs_applySingle m ht hs.width ctrl)
  | .double m, [t0, t1] =>
    refine Atomic.position fun t0 h0 => Atomic.position fun t1 h1 => ?_
    exact Performs.atomic (hsize ▸ performs_applyDouble m h0 h1 hs.width ctrl)
  | .diagonal _ _, [] | .diagonal _ _, _ :: _ :: _ => exact atomic_error trivial
  | .single _, [] | .single _, _ :: _ :: _ => exact atomic_error trivial
  | .double _, [] | .double _, [_] | .double _, _ :: _ :: _ :: _ => exact atomic_error trivial

/-- Whatever an instruction asks for, applying it to a register in place either runs to its end with
the state that `Statevector.apply` gives, which has as many amplitudes, or refuses the instruction
with every amplitude as it was. No access leaves its chunk and no shift its word. -/
theorem atomic_apply (hs : s.IsRegister) (inst : Instruction R) :
    Atomic s (apply inst) (s.apply inst) := by
  obtain ⟨operation, qubits, clbits⟩ := inst
  cases operation with
  | gate g =>
    exact Atomic.check (fun e he => isRefusal_of_lower he) fun lowered _ =>
      atomic_applyLowered hs lowered g qubits
  | measure => exact .inl ⟨s, rfl, rfl, rfl, rfl⟩
  | reset => exact .inl ⟨s, rfl, rfl, rfl, rfl⟩
  | barrier => exact .inl ⟨s, rfl, rfl, rfl, rfl⟩

/-- A controlled sign whose two operands and extra control are one qubit runs; a control far outside
the register is refused. -/
theorem atomic_apply_unchecked :
    let s : Statevector ℝ := ⟨2, Array.replicate 4 .one, {}⟩
    let repeated : Instruction ℝ :=
      .ofGate ⟨.standard (.plain .cz), [⟨⟨1⟩, .negative⟩], none⟩ [⟨1⟩, ⟨1⟩]
    let outside : Instruction ℝ :=
      .ofGate ⟨.standard (.plain .x), [⟨⟨4294967295⟩, .positive⟩], none⟩ [⟨0⟩]
    s.IsRegister ∧ (∃ t, (apply repeated).run s = (.ok (), t) ∧ t.size = 4) ∧
      ∃ e, (apply outside).run s = (.error e, s) ∧ e.kind = "QubitNotFound" := by
  intro s repeated outside
  have hs : s.IsRegister := ⟨by decide, by simp [s]⟩
  have hlowered (symbol : GateSymbol) (h : symbol.arity = 0) (controls : List Control)
      (qubits : List Qubit) :
      s.apply (.ofGate ⟨.standard (.plain symbol h), controls, none⟩ qubits) =
        s.applyLowered (StandardGate.plain symbol h).lower
          ⟨.standard (.plain symbol h), controls, none⟩ qubits :=
    congrArg (fun lowered => lowered >>= fun l => s.applyLowered l _ qubits)
      (GateKind.lower_plain symbol h)
  refine ⟨hs, ?_, ?_⟩
  · obtain ⟨t, -, hrun, -, hsize⟩ | ⟨e, he, -⟩ := atomic_apply hs repeated
    · exact ⟨t, hrun, hsize.trans (by simp [s, Statevector.size])⟩
    · cases (hlowered .cz rfl _ _).symm.trans he
  · obtain ⟨t, ht, -⟩ | ⟨e, he, hrun, -⟩ := atomic_apply hs outside
    · cases (hlowered .x rfl _ _).symm.trans ht
    · refine ⟨e, hrun, ?_⟩
      cases (hlowered .x rfl _ _).symm.trans he
      rfl

end Instructions

end InPlace

end QuantumSim
