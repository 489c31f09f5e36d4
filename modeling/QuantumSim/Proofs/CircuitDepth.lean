import Mathlib
import QuantumSim.Circuit.Analysis
import QuantumSim.Proofs.Validation

/-!
The depth of a circuit. One pass gives every wire a level, and the greatest level is the length of
the longest chain of instructions in which neighbours share a wire. The invariant of the pass ties
the level of a wire to the longest chain, of the instructions so far, that ends on it.
-/
namespace QuantumSim

/-- A wire of a circuit. -/
inductive Wire where
  | qubit (q : Qubit)
  | clbit (b : Clbit)
  deriving DecidableEq

theorem Clbit.index_injective : Function.Injective Clbit.index := by
  rintro ⟨a⟩ ⟨b⟩ h
  exact congrArg Clbit.mk (UInt32.toNat_inj.1 h)

namespace Instruction

variable {R : Type}

/-- The operands of an instruction, its extra controls and its classical bits. -/
def wires (inst : Instruction R) : List Wire :=
  inst.allQubits.map .qubit ++ inst.clbits.map .clbit

/-- Instructions with a wire in common. -/
def SharesWire (a b : Instruction R) : Prop := ∃ w ∈ a.wires, w ∈ b.wires

end Instruction

section Tables

theorem size_foldl_setIfInBounds {α ι : Type} (place : ι → ℕ) (value : α) (l : List ι)
    (xs : Array α) :
    (l.foldl (fun xs i => xs.setIfInBounds (place i) value) xs).size = xs.size := by
  induction l generalizing xs with
  | nil => rfl
  | cons i l ih =>
    rw [List.foldl_cons, ih]
    exact Array.size_setIfInBounds

/-- Writing one value at several places of a table. -/
theorem getD_foldl_setIfInBounds {α ι : Type} [DecidableEq ι] {place : ι → ℕ}
    (hplace : place.Injective) {l : List ι} {xs : Array α} (hrange : ∀ i ∈ l, place i < xs.size)
    (value default : α) (j : ι) :
    (l.foldl (fun xs i => xs.setIfInBounds (place i) value) xs)[place j]?.getD default =
      if j ∈ l then value else xs[place j]?.getD default := by
  induction l generalizing xs with
  | nil => simp
  | cons i l ih =>
    obtain ⟨hfirst, hrest⟩ := List.forall_mem_cons.1 hrange
    rw [List.foldl_cons, ih (by simpa using hrest), Array.getElem?_setIfInBounds]
    by_cases hl : j ∈ l
    · simp [hl]
    · by_cases hj : j = i
      · simp [hj, hfirst]
      · simp [hl, hj, hplace.ne (Ne.symm hj)]

/-- The maximum that a pass computes is its start or a member, and the greatest of them. -/
theorem isGreatest_foldl_max (start : ℕ) (l : List ℕ) :
    IsGreatest {m | m = start ∨ m ∈ l} (l.foldl max start) := by
  induction l generalizing start with
  | nil =>
    constructor
    · exact .inl rfl
    · rintro m (rfl | hm)
      · exact le_rfl
      · exact absurd hm List.not_mem_nil
  | cons a l ih =>
    obtain ⟨hmem, hupper⟩ := ih (max start a)
    constructor
    · rcases hmem with heq | hmem
      · rcases max_choice start a with hmax | hmax
        · exact .inl (heq.trans hmax)
        · exact .inr (List.mem_cons.2 (.inl (heq.trans hmax)))
      · exact .inr (List.mem_cons_of_mem _ hmem)
    · have hstart : max start a ≤ l.foldl max (max start a) := hupper (.inl rfl)
      rintro m (rfl | hm)
      · exact (le_max_left _ _).trans hstart
      · rcases List.mem_cons.1 hm with rfl | hm
        · exact (le_max_right _ _).trans hstart
        · exact hupper (.inr hm)

end Tables

namespace Circuit

variable {R : Type}

namespace Levels

/-- Levels for every wire of registers of the given sizes. -/
structure Cover (l : Levels) (n m : ℕ) : Prop where
  qubits : l.qubits.size = n
  clbits : l.clbits.size = m

/-- The level of a wire; one outside the registers stays at zero. -/
def level (l : Levels) : Wire → ℕ
  | .qubit q => l.qubits[q.index]?.getD 0
  | .clbit b => l.clbits[b.index]?.getD 0

theorem Cover.raise {l : Levels} {n m : ℕ} (hl : l.Cover n m) (inst : Instruction R) (value : ℕ) :
    (l.raise inst value).Cover n m :=
  ⟨(size_foldl_setIfInBounds Qubit.index value _ _).trans hl.qubits,
    (size_foldl_setIfInBounds Clbit.index value _ _).trans hl.clbits⟩

variable {c : Circuit R} {l : Levels} {inst : Instruction R}

theorem Cover.highest_eq (hl : l.Cover c.numQubits.toNat c.numClbits.toNat) (hfits : c.Fits inst) :
    l.highest inst = .ok ((inst.wires.map l.level).foldl max 0) := by
  have hqs : inst.allQubits.mapM (fun q => elementAt l.qubits q.index) =
      .ok (inst.allQubits.map fun q => l.level (.qubit q)) := by
    apply mapM_eq_ok_map
    intro q hq
    have hlt : q.index < l.qubits.size := hl.qubits.symm ▸ hfits.qubits q hq
    rw [elementAt_eq hlt, level, Array.getElem?_eq_getElem hlt, Option.getD_some]
  have hbs : inst.clbits.mapM (fun b => elementAt l.clbits b.index) =
      .ok (inst.clbits.map fun b => l.level (.clbit b)) := by
    apply mapM_eq_ok_map
    intro b hb
    have hlt : b.index < l.clbits.size := hl.clbits.symm ▸ hfits.clbits b hb
    rw [elementAt_eq hlt, level, Array.getElem?_eq_getElem hlt, Option.getD_some]
  unfold highest
  rw [hqs, ok_bind, hbs, ok_bind]
  simp only [Instruction.wires, List.map_append, List.map_map, Function.comp_def]
  rfl

/-- An instruction raises its own wires and no other. -/
theorem Cover.level_raise (hl : l.Cover c.numQubits.toNat c.numClbits.toNat) (hfits : c.Fits inst)
    (value : ℕ) (w : Wire) :
    (l.raise inst value).level w = if w ∈ inst.wires then value else l.level w := by
  cases w with
  | qubit q =>
    have hmem : Wire.qubit q ∈ inst.wires ↔ q ∈ inst.allQubits := by simp [Instruction.wires]
    simp only [hmem]
    exact getD_foldl_setIfInBounds Qubit.index_injective
      (fun q hq => hl.qubits.symm ▸ hfits.qubits q hq) value 0 q
  | clbit b =>
    have hmem : Wire.clbit b ∈ inst.wires ↔ b ∈ inst.clbits := by simp [Instruction.wires]
    simp only [hmem]
    exact getD_foldl_setIfInBounds Clbit.index_injective
      (fun b hb => hl.clbits.symm ▸ hfits.clbits b hb) value 0 b

end Levels

section Chains

/-- Instructions taken from a list in its order, no barriers, of which neighbours share a wire. -/
structure Chain (insts chain : List (Instruction R)) : Prop where
  sublist : chain.Sublist insts
  acts : ∀ inst ∈ chain, inst.isBarrier = false
  linked : chain.IsChain Instruction.SharesWire

/-- A chain whose last instruction, if there is one, touches a wire. -/
def EndsOn (w : Wire) (chain : List (Instruction R)) : Prop :=
  ∀ inst ∈ chain.getLast?, w ∈ inst.wires

def chainLengths (insts : List (Instruction R)) : Set ℕ :=
  {m | ∃ chain, Chain insts chain ∧ chain.length = m}

def chainLengthsOn (w : Wire) (insts : List (Instruction R)) : Set ℕ :=
  {m | ∃ chain, Chain insts chain ∧ EndsOn w chain ∧ chain.length = m}

variable {insts chain : List (Instruction R)} {inst : Instruction R}

/-- The chains after one more instruction: those before it, and those that it extends. -/
theorem chain_concat : Chain (insts ++ [inst]) chain ↔ Chain insts chain ∨
    ∃ front, chain = front ++ [inst] ∧ Chain insts front ∧ inst.isBarrier = false ∧
      ∀ last ∈ front.getLast?, last.SharesWire inst := by
  constructor
  · rintro ⟨hsub, hacts, hlinked⟩
    obtain ⟨front, back, rfl, hfront, hback⟩ := List.sublist_append_iff.1 hsub
    rcases List.sublist_singleton.1 hback with rfl | rfl
    · rw [List.append_nil] at hacts hlinked ⊢
      exact .inl ⟨hfront, hacts, hlinked⟩
    · obtain ⟨hlinked, -, hlast⟩ := List.isChain_append.1 hlinked
      refine .inr ⟨front, rfl, ⟨hfront, fun i hi => hacts i (by simp [hi]), hlinked⟩,
        hacts inst (by simp), fun last h => hlast last h inst rfl⟩
  · rintro (⟨hsub, hacts, hlinked⟩ | ⟨front, rfl, ⟨hsub, hacts, hlinked⟩, hact, hlast⟩)
    · exact ⟨hsub.trans (List.sublist_append_left _ _), hacts, hlinked⟩
    · refine ⟨hsub.append (List.Sublist.refl _), ?_, ?_⟩
      · rw [List.forall_mem_append, List.forall_mem_singleton]
        exact ⟨hacts, hact⟩
      · rw [List.isChain_append]
        refine ⟨hlinked, List.isChain_singleton inst, fun last h next hnext => ?_⟩
        cases hnext
        exact hlast last h

theorem chain_nil (insts : List (Instruction R)) : Chain insts [] :=
  ⟨List.nil_sublist _, nofun, List.isChain_nil⟩

theorem endsOn_nil (w : Wire) : EndsOn w ([] : List (Instruction R)) := nofun

@[simp] theorem endsOn_concat {w : Wire} : EndsOn w (chain ++ [inst]) ↔ w ∈ inst.wires := by
  simp [EndsOn]

/-- Levels and greatest level that measure the chains of a list of instructions. -/
structure Levels.Measure (l : Levels) (depth : ℕ) (insts : List (Instruction R)) : Prop where
  wire : ∀ w, IsGreatest (chainLengthsOn w insts) (l.level w)
  depth : IsGreatest (chainLengths insts) depth

theorem Levels.measure_zero {l : Levels} (h : ∀ w, l.level w = 0) :
    l.Measure 0 ([] : List (Instruction R)) := by
  have hnone {chain : List (Instruction R)} (hchain : Chain [] chain) : chain.length = 0 := by
    rw [List.sublist_nil.1 hchain.sublist, List.length_nil]
  constructor
  · intro w
    rw [h]
    constructor
    · exact ⟨[], chain_nil _, endsOn_nil w, rfl⟩
    · rintro m ⟨chain, hchain, -, rfl⟩
      exact (hnone hchain).le
  · constructor
    · exact ⟨[], chain_nil _, rfl⟩
    · rintro m ⟨chain, hchain, rfl⟩
      exact (hnone hchain).le

/-- A barrier is in no chain. -/
theorem Levels.Measure.barrier {l : Levels} {depth : ℕ} (h : l.Measure depth insts)
    (hbarrier : inst.isBarrier = true) : l.Measure depth (insts ++ [inst]) := by
  have hsame (chain : List (Instruction R)) :
      Chain (insts ++ [inst]) chain ↔ Chain insts chain := by
    rw [chain_concat]
    simp [hbarrier]
  constructor
  · simpa only [chainLengthsOn, hsame] using h.wire
  · simpa only [chainLengths, hsame] using h.depth

/-- Chains that an instruction can extend. -/
def extensibleLengths (insts : List (Instruction R)) (inst : Instruction R) : Set ℕ :=
  {m | ∃ front, Chain insts front ∧ (∀ last ∈ front.getLast?, last.SharesWire inst) ∧
    front.length = m}

/-- The longest chain that an instruction can extend ends on the highest of its wires. -/
theorem Levels.Measure.isGreatest_extensible {l : Levels} {depth : ℕ} (h : l.Measure depth insts)
    (inst : Instruction R) :
    IsGreatest (extensibleLengths insts inst) ((inst.wires.map l.level).foldl max 0) := by
  obtain ⟨hmem, hupper⟩ := isGreatest_foldl_max 0 (inst.wires.map l.level)
  constructor
  · rcases hmem with hzero | hmem
    · exact ⟨[], chain_nil insts, nofun, hzero.symm⟩
    · obtain ⟨w, hw, hlevel⟩ := List.mem_map.1 hmem
      obtain ⟨front, hfront, hends, hlength⟩ := (h.wire w).1
      exact ⟨front, hfront, fun last hlast => ⟨w, hends last hlast, hw⟩, hlength.trans hlevel⟩
  · rintro m ⟨front, hfront, hlast, rfl⟩
    rcases List.eq_nil_or_concat front with rfl | ⟨init, last, rfl⟩
    · exact Nat.zero_le _
    · obtain ⟨w, hwlast, hw⟩ := hlast last (by simp)
      have hlevel : (init.concat last).length ≤ l.level w :=
        (h.wire w).2 ⟨_, hfront, by simpa using hwlast, rfl⟩
      exact hlevel.trans (hupper (.inr (List.mem_map_of_mem hw)))

/-- An instruction that acts puts its wires one above the longest chain it extends. -/
theorem Levels.Measure.raise {l : Levels} {depth : ℕ} (h : l.Measure depth insts)
    {c : Circuit R} (hl : l.Cover c.numQubits.toNat c.numClbits.toNat) (hfits : c.Fits inst)
    (hact : inst.isBarrier = false) {value : ℕ}
    (hvalue : IsGreatest (extensibleLengths insts inst) value) :
    (l.raise inst (value + 1)).Measure (max depth (value + 1)) (insts ++ [inst]) := by
  obtain ⟨⟨longest, hlongest, hshares, hlength⟩, hupper⟩ := hvalue
  have hextended : Chain (insts ++ [inst]) (longest ++ [inst]) :=
    chain_concat.2 (.inr ⟨longest, rfl, hlongest, hact, hshares⟩)
  have hnew : (longest ++ [inst]).length = value + 1 := by simp [hlength]
  constructor
  · intro w
    rw [hl.level_raise hfits]
    split
    next hw =>
      constructor
      · exact ⟨_, hextended, endsOn_concat.2 hw, hnew⟩
      · rintro m ⟨chain, hchain, hends, rfl⟩
        rcases chain_concat.1 hchain with hold | ⟨front, rfl, hfront, -, hlast⟩
        · have hle : chain.length ≤ value :=
            hupper ⟨chain, hold, fun last hlast => ⟨w, hends last hlast, hw⟩, rfl⟩
          exact hle.trans (Nat.le_succ _)
        · have hle : front.length ≤ value := hupper ⟨front, hfront, hlast, rfl⟩
          simpa using hle
    next hw =>
      obtain ⟨⟨chain, hchain, hends, hlevel⟩, hwire⟩ := h.wire w
      constructor
      · exact ⟨chain, chain_concat.2 (.inl hchain), hends, hlevel⟩
      · rintro m ⟨chain, hchain, hends, rfl⟩
        rcases chain_concat.1 hchain with hold | ⟨front, rfl, -⟩
        · exact hwire ⟨chain, hold, hends, rfl⟩
        · exact absurd (endsOn_concat.1 hends) hw
  · obtain ⟨⟨chain, hchain, hdepth⟩, hdeepest⟩ := h.depth
    constructor
    · rcases max_choice depth (value + 1) with hmax | hmax
      · exact ⟨chain, chain_concat.2 (.inl hchain), hdepth.trans hmax.symm⟩
      · exact ⟨_, hextended, hnew.trans hmax.symm⟩
    · rintro m ⟨chain, hchain, rfl⟩
      rcases chain_concat.1 hchain with hold | ⟨front, rfl, hfront, -, hlast⟩
      · exact (hdeepest ⟨chain, hold, rfl⟩).trans (le_max_left _ _)
      · have hle : front.length ≤ value := hupper ⟨front, hfront, hlast, rfl⟩
        exact le_max_of_le_right (by simpa using hle)

end Chains

variable {c : Circuit R} {l : Levels}

/-- The pass keeps levels that measure the chains of what it has read. -/
theorem Levels.Measure.exists_depthFrom_eq_ok {done rest : List (Instruction R)} {depth : ℕ}
    (h : l.Measure depth done) (hl : l.Cover c.numQubits.toNat c.numClbits.toNat)
    (hfits : ∀ inst ∈ rest, c.Fits inst) :
    ∃ d, depthFrom l depth rest = .ok d ∧ IsGreatest (chainLengths (done ++ rest)) d := by
  induction rest generalizing l depth done with
  | nil =>
    rw [List.append_nil]
    exact ⟨depth, rfl, h.depth⟩
  | cons inst rest ih =>
    obtain ⟨hinst, hrest⟩ := List.forall_mem_cons.1 hfits
    rw [List.append_cons]
    unfold depthFrom
    split
    next hbarrier => exact ih (h.barrier hbarrier) hl hrest
    next hact =>
      rw [hl.highest_eq hinst, ok_bind]
      exact ih (h.raise hl hinst (Bool.eq_false_iff.2 hact) (h.isGreatest_extensible inst))
        (hl.raise inst _) hrest

theorem exists_depth_eq_ok_isGreatest (hvalid : c.validate = .ok ()) :
    ∃ d, c.depth = .ok d ∧ IsGreatest (chainLengths c.instructions) d := by
  have hzero : Levels.Measure ⟨Array.replicate c.numQubits.toNat 0,
      Array.replicate c.numClbits.toNat 0⟩ 0 ([] : List (Instruction R)) := by
    apply Levels.measure_zero
    rintro (q | b) <;> simp only [Levels.level, Array.getElem?_replicate] <;> split <;> rfl
  exact hzero.exists_depthFrom_eq_ok ⟨by simp, by simp⟩ ((validate_eq_ok c).1 hvalid)

theorem exists_depth_eq_ok (hvalid : c.validate = .ok ()) : ∃ d, c.depth = .ok d := by
  obtain ⟨d, hd, -⟩ := exists_depth_eq_ok_isGreatest hvalid
  exact ⟨d, hd⟩

/-- Positions of a circuit in ascending order, none of a barrier, of which each two consecutive ones
hold instructions that share a wire. -/
structure IsChain (c : Circuit R) {m : ℕ} (position : Fin m → Fin c.instructions.length) :
    Prop where
  ascending : StrictMono position
  acts : ∀ k, c.instructions[position k].isBarrier = false
  linked : ∀ k l : Fin m, k.val + 1 = l.val →
    c.instructions[position k].SharesWire c.instructions[position l]

theorem IsChain.chain {m : ℕ} {position : Fin m → Fin c.instructions.length}
    (h : c.IsChain position) :
    Chain c.instructions (List.ofFn fun k => c.instructions[position k]) := by
  constructor
  · rw [List.sublist_iff_exists_fin_orderEmbedding_get_eq]
    have hlength : (List.ofFn fun k => c.instructions[position k]).length = m := List.length_ofFn
    have hmono : StrictMono fun k : Fin (List.ofFn fun k => c.instructions[position k]).length =>
      position (k.cast hlength) := fun a b hab => h.ascending hab
    exact ⟨OrderEmbedding.ofStrictMono _ hmono, fun k => List.getElem_ofFn k.isLt⟩
  · intro inst hinst
    obtain ⟨k, rfl⟩ := (List.mem_ofFn' _ _).1 hinst
    exact h.acts k
  · rw [List.isChain_ofFn]
    intro k hk
    exact h.linked ⟨k, by omega⟩ ⟨k + 1, hk⟩ rfl

theorem Chain.exists_isChain {chain : List (Instruction R)} (h : Chain c.instructions chain) :
    ∃ position : Fin chain.length → Fin c.instructions.length, c.IsChain position := by
  obtain ⟨position, hposition⟩ := List.sublist_iff_exists_fin_orderEmbedding_get_eq.1 h.sublist
  have hget (k : Fin chain.length) : c.instructions[position k] = chain[k] := (hposition k).symm
  refine ⟨position, position.strictMono, fun k => ?_, fun k l hkl => ?_⟩
  · rw [hget]
    exact h.acts _ (List.getElem_mem k.isLt)
  · rw [hget, hget]
    have := List.isChain_iff_getElem.1 h.linked k (by omega)
    simpa [hkl] using this

theorem chainLengths_eq (c : Circuit R) : chainLengths c.instructions =
    {m | ∃ position : Fin m → Fin c.instructions.length, c.IsChain position} := by
  ext m
  constructor
  · rintro ⟨chain, hchain, rfl⟩
    exact hchain.exists_isChain
  · rintro ⟨position, hposition⟩
    exact ⟨_, hposition.chain, List.length_ofFn⟩

/-- The depth of a valid circuit is the length of its longest chain, and zero exactly without
instructions other than barriers: one that touches no wire is a chain by itself. -/
theorem depth_eq_longest_chain (hvalid : c.validate = .ok ()) :
    ∃ d, c.depth = .ok d ∧
      IsGreatest {m | ∃ position : Fin m → Fin c.instructions.length, c.IsChain position} d ∧
      (d = 0 ↔ ∀ inst ∈ c.instructions, inst.isBarrier = true) := by
  obtain ⟨d, hd, hgreatest⟩ := exists_depth_eq_ok_isGreatest hvalid
  have hpositions := hgreatest
  rw [chainLengths_eq] at hpositions
  refine ⟨d, hd, hpositions, ?_⟩
  obtain ⟨⟨chain, hchain, rfl⟩, hupper⟩ := hgreatest
  constructor
  · intro hzero inst hinst
    by_contra hact
    have hsingle : Chain c.instructions [inst] := by
      constructor
      · exact List.singleton_sublist.2 hinst
      · simpa using hact
      · exact List.isChain_singleton inst
    have hle : 1 ≤ chain.length := hupper ⟨[inst], hsingle, rfl⟩
    omega
  · intro hbarriers
    cases chain with
    | nil => rfl
    | cons inst chain =>
      have hmem : inst ∈ c.instructions := hchain.sublist.subset List.mem_cons_self
      have hact := hchain.acts inst List.mem_cons_self
      rw [hbarriers inst hmem] at hact
      cases hact

/-- An extra control and a shared classical bit link instructions; the barrier and the measurement
of nothing do not. -/
theorem depth_eq_longest_chain_controlled :
    let flip : Gate ℝ := { Gate.ofStandard (.plain .x) with controls := [⟨⟨0⟩, .negative⟩] }
    let c : Circuit ℝ := ⟨"mixed", 3, 1, [.standard (.plain .h) [⟨0⟩], .barrier [⟨0⟩, ⟨1⟩, ⟨2⟩],
      .ofGate flip [⟨1⟩], .measure [⟨1⟩] [⟨0⟩], .measure [] [], .measure [⟨2⟩] [⟨0⟩]]⟩
    c.validate = .ok () ∧ c.depth = .ok 4 ∧
      IsGreatest {m | ∃ position : Fin m → Fin c.instructions.length, c.IsChain position} 4 := by
  intro flip c
  have hvalid : c.validate = .ok () := rfl
  have hdepth : c.depth = .ok 4 := by cbv
  obtain ⟨d, hd, hgreatest, -⟩ := depth_eq_longest_chain hvalid
  obtain rfl : d = 4 := Except.ok.inj (hd.symm.trans hdepth)
  exact ⟨hvalid, hdepth, hgreatest⟩

end Circuit

end QuantumSim
