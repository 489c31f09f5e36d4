import Mathlib
import QuantumSim.Proofs.Binding

/-!
Laws of binding. The names of a circuit are those of its symbols, in order and without repetition.
Binding takes the bound names away and touches nothing but angles, binding twice is binding once to
both maps, and an angle that is bound before it is resolved has the value, or lacks it, as one
resolved at once. The laws hold for any scalar, so they do not depend on how it rounds.
-/
namespace QuantumSim

section Names

/-- Lists in strictly ascending order with the same members are equal. -/
theorem eq_of_ascending {l l' : List String} (h : l.Pairwise (· < ·)) (h' : l'.Pairwise (· < ·))
    (hmem : ∀ name, name ∈ l ↔ name ∈ l') : l = l' := by
  have hnodup {l : List String} (h : l.Pairwise (· < ·)) : l.Nodup := h.imp String.ne_of_lt
  have hperm : l.Perm l' := (List.perm_ext_iff_of_nodup (hnodup h) (hnodup h')).2 hmem
  exact hperm.eq_of_pairwise (fun a b _ _ hab hba => absurd hba (String.lt_asymm hab)) h h'

/-- Sorted names of which repetitions are dropped ascend strictly. -/
theorem ascending_eraseReps_mergeSort (names : List String) :
    (names.mergeSort fun a b => decide (a ≤ b)).eraseReps.Pairwise (· < ·) := by
  have hsorted : (names.mergeSort fun a b => decide (a ≤ b)).Pairwise (· ≤ ·) := by
    have hbool : (names.mergeSort fun a b => decide (a ≤ b)).Pairwise
        fun a b => decide (a ≤ b) = true := by
      apply List.pairwise_mergeSort
      · intro a b c hab hbc
        simp only [decide_eq_true_eq] at *
        exact String.le_trans hab hbc
      · intro a b
        simpa using String.le_total a b
    exact hbool.imp of_decide_eq_true
  have hnodup := nodup_eraseReps (fun a b hab hba => String.le_antisymm hab hba) hsorted
  apply ((hsorted.sublist (eraseReps_sublist _)).and hnodup).imp
  rintro a b ⟨hle, hne⟩
  exact Decidable.byContradiction fun hlt => hne (String.le_antisymm hle (String.not_lt.1 hlt))

end Names

namespace Parameter

variable {R : Type}

theorem isSymbolic_iff {p : Parameter R} :
    p.isSymbolic = true ↔ ∃ name, p.symbolName? = some name := by
  cases p with
  | value v => simp [isSymbolic, symbolName?]
  | symbol name scale shift => simp [isSymbolic, symbolName?]

variable [Scalar R]

/-- A bound angle keeps its symbol if the symbol has no value. -/
theorem symbolName?_bind (bindings : Bindings R) (p : Parameter R) :
    (p.bind bindings).symbolName? = p.symbolName?.filter fun name => !bindings.contains name := by
  cases p with
  | value v => rfl
  | symbol name scale shift =>
    simp only [bind, symbolName?, Dict.contains_eq_isSome]
    cases hname : bindings.get? name with
    | none => simp [Option.filter, hname]
    | some bound => simp [Option.filter, hname]

theorem bind_bind (b b' : Bindings R) (p : Parameter R) :
    (p.bind b).bind b' = p.bind (b.union b') := by
  cases p with
  | value v => rfl
  | symbol name scale shift =>
    simp only [bind, Dict.get?_union]
    cases hname : b.get? name with
    | none => rfl
    | some bound => rfl

/-- Two answers with one value, or two failures of one kind. -/
def SameAnswer (x y : Except (ParameterError R) R) : Prop :=
  match x, y with
  | .ok v, .ok w => v = w
  | .error e, .error e' =>
    (CircuitError.parameter e : CircuitError R).kind = (CircuitError.parameter e').kind
  | _, _ => False

/-- Binding an angle before it is resolved makes no difference. An angle without a finite value is
refused either way, the bound one under its own text. -/
theorem sameAnswer_resolve_bind (bindings : Bindings R) (p : Parameter R) :
    SameAnswer ((p.bind bindings).resolve .empty) (p.resolve bindings) := by
  cases p with
  | value v =>
    simp only [bind, resolve]
    cases Scalar.isFinite v <;> rfl
  | symbol name scale shift =>
    simp only [bind, resolve]
    cases hname : bindings.get? name with
    | none => rfl
    | some bound =>
      simp only
      cases Scalar.isFinite (scale * bound + shift) <;> rfl

end Parameter

section Structure

variable {R : Type}

/-- Gates of one symbol, or the same user matrix. -/
def GateKind.SameButAngles : GateKind R → GateKind R → Prop
  | .standard g, .standard g' => g'.symbol = g.symbol
  | .matrix m, .matrix m' => m' = m
  | _, _ => False

/-- Gates that differ in their angles only. -/
structure Gate.SameButAngles (g g' : Gate R) : Prop where
  kind : g.kind.SameButAngles g'.kind
  name : g'.name = g.name
  controls : g'.controls = g.controls
  label : g'.label = g.label

def Operation.SameButAngles : Operation R → Operation R → Prop
  | .gate g, .gate g' => g.SameButAngles g'
  | .measure, .measure => True
  | .reset, .reset => True
  | .barrier, .barrier => True
  | _, _ => False

/-- Instructions that differ in the angles of their gate only. -/
structure Instruction.SameButAngles (inst inst' : Instruction R) : Prop where
  operation : inst.operation.SameButAngles inst'.operation
  qubits : inst'.qubits = inst.qubits
  clbits : inst'.clbits = inst.clbits

/-- Circuits with the same instructions in the same order, angles aside. -/
structure Circuit.SameButAngles (c c' : Circuit R) : Prop where
  size : c'.size = c.size
  instructions : List.Forall₂ Instruction.SameButAngles c.instructions c'.instructions

variable [Scalar R]

theorem Gate.sameButAngles_bind (bindings : Bindings R) (g : Gate R) :
    g.SameButAngles (g.bind bindings) := by
  rcases g with ⟨kind, controls, label⟩
  cases kind with
  | standard s => exact ⟨rfl, rfl, rfl, rfl⟩
  | matrix m => exact ⟨rfl, rfl, rfl, rfl⟩

theorem Instruction.sameButAngles_bind (bindings : Bindings R) (inst : Instruction R) :
    inst.SameButAngles (inst.bind bindings) := by
  rcases inst with ⟨operation, qubits, clbits⟩
  cases operation with
  | gate g => exact ⟨g.sameButAngles_bind bindings, rfl, rfl⟩
  | measure | reset | barrier => exact ⟨trivial, rfl, rfl⟩

theorem Circuit.sameButAngles_bindParameters (c : Circuit R) (bindings : Bindings R) :
    c.SameButAngles (c.bindParameters bindings) := by
  constructor
  · rfl
  · show List.Forall₂ _ c.instructions (c.instructions.map _)
    rw [List.forall₂_map_right_iff]
    exact List.forall₂_same.2 fun inst _ => inst.sameButAngles_bind bindings

theorem Gate.bind_bind (b b' : Bindings R) (g : Gate R) :
    (g.bind b).bind b' = g.bind (b.union b') := by
  rcases g with ⟨kind, controls, label⟩
  cases kind with
  | standard s =>
    have hangles : (s.map (Parameter.bind b)).map (Parameter.bind b') =
        s.map (Parameter.bind (b.union b')) := by
      simp only [StandardGate.map, Vector.map_map]
      congr 1
      exact congrArg (s.angles.map ·) (funext fun p => p.bind_bind b b')
    simp only [bind, hangles]
  | matrix m => rfl

theorem Instruction.bind_bind (b b' : Bindings R) (inst : Instruction R) :
    (inst.bind b).bind b' = inst.bind (b.union b') := by
  rcases inst with ⟨operation, qubits, clbits⟩
  cases operation with
  | gate g => simp only [bind, g.bind_bind]
  | measure | reset | barrier => rfl

end Structure

namespace Circuit

variable {R : Type}

/-- The symbols of a circuit. -/
theorem mem_parameterNames_iff {c : Circuit R} {name : String} : name ∈ c.parameterNames ↔
    ∃ g ∈ c.gates, ∃ p ∈ g.parameters, p.symbolName? = some name := by
  unfold parameterNames
  rw [mem_eraseReps, List.mem_mergeSort, List.mem_filterMap]
  constructor
  · rintro ⟨p, hp, hname⟩
    obtain ⟨g, hg, hp⟩ := List.mem_flatMap.1 hp
    exact ⟨g, hg, p, hp, hname⟩
  · rintro ⟨g, hg, p, hp, hname⟩
    exact ⟨p, List.mem_flatMap.2 ⟨g, hg, hp⟩, hname⟩

theorem parameterNames_ascending (c : Circuit R) : c.parameterNames.Pairwise (· < ·) :=
  ascending_eraseReps_mergeSort _

/-- A circuit has symbolic angles exactly if it has names to bind. -/
theorem isParameterized_iff (c : Circuit R) :
    c.isParameterized = true ↔ c.parameterNames ≠ [] := by
  simp only [isParameterized, Gate.isParameterized, List.any_eq_true, Parameter.isSymbolic_iff]
  constructor
  · rintro ⟨g, hg, p, hp, name, hname⟩
    exact List.ne_nil_of_mem (mem_parameterNames_iff.2 ⟨g, hg, p, hp, hname⟩)
  · intro hnames
    obtain ⟨name, hname⟩ := List.exists_mem_of_ne_nil _ hnames
    obtain ⟨g, hg, p, hp, hname⟩ := mem_parameterNames_iff.1 hname
    exact ⟨g, hg, p, hp, name, hname⟩

variable [Scalar R]

/-- A name is left exactly if it was there and has no value. -/
theorem mem_parameterNames_bindParameters {c : Circuit R} {bindings : Bindings R} {name : String} :
    name ∈ (c.bindParameters bindings).parameterNames ↔
      name ∈ c.parameterNames ∧ bindings.contains name = false := by
  have hleft (p : Parameter R) : (p.bind bindings).symbolName? = some name ↔
      p.symbolName? = some name ∧ bindings.contains name = false := by
    rw [Parameter.symbolName?_bind, Option.filter_eq_some_iff, Bool.not_eq_true']
  rw [mem_parameterNames_iff, mem_parameterNames_iff, gates_bindParameters]
  constructor
  · rintro ⟨bound, hbound, angle, hangle, hname⟩
    obtain ⟨g, hg, rfl⟩ := List.mem_map.1 hbound
    rw [Gate.bind_parameters] at hangle
    obtain ⟨p, hp, rfl⟩ := List.mem_map.1 hangle
    obtain ⟨hname, hfree⟩ := (hleft p).1 hname
    exact ⟨⟨g, hg, p, hp, hname⟩, hfree⟩
  · rintro ⟨⟨g, hg, p, hp, hname⟩, hfree⟩
    have hangle : p.bind bindings ∈ (g.bind bindings).parameters := by
      rw [Gate.bind_parameters]
      exact List.mem_map_of_mem hp
    exact ⟨_, List.mem_map_of_mem hg, _, hangle, (hleft p).2 ⟨hname, hfree⟩⟩

theorem parameterNames_bindParameters (c : Circuit R) (bindings : Bindings R) :
    (c.bindParameters bindings).parameterNames =
      c.parameterNames.filter fun name => !bindings.contains name := by
  apply eq_of_ascending (parameterNames_ascending _) ((parameterNames_ascending c).filter _)
  intro name
  rw [mem_parameterNames_bindParameters, List.mem_filter, Bool.not_eq_true']

theorem bindParameters_bindParameters (c : Circuit R) (b b' : Bindings R) :
    (c.bindParameters b).bindParameters b' = c.bindParameters (b.union b') := by
  simp only [bindParameters, List.map_map]
  congr 1
  exact List.map_congr_left fun inst _ => inst.bind_bind b b'

/-- The laws of binding. A circuit has symbolic angles exactly if it has names to bind. The names
left after binding are those without a value, still strictly ascending; the circuit is otherwise the
same, and each angle of each gate is bound in its place. Binding to one map and then to another is
binding to both, of which the first wins. An angle resolves after binding as it does under the
bindings. -/
theorem binding_laws (R : Type) [Scalar R] :
    (∀ c : Circuit R, c.isParameterized = true ↔ c.parameterNames ≠ []) ∧
    (∀ (c : Circuit R) (b : Bindings R),
      (c.bindParameters b).parameterNames =
          c.parameterNames.filter (fun name => !b.contains name) ∧
        (c.bindParameters b).parameterNames.Pairwise (· < ·) ∧
        c.SameButAngles (c.bindParameters b) ∧
        (c.bindParameters b).gates.map (·.parameters) =
          c.gates.map fun g => g.parameters.map (Parameter.bind b)) ∧
    (∀ (c : Circuit R) (b b' : Bindings R),
      (c.bindParameters b).bindParameters b' = c.bindParameters (b.union b')) ∧
    (∀ (b b' : Bindings R) (key : String),
      (b.union b').get? key = (b.get? key).or (b'.get? key)) ∧
    ∀ (p : Parameter R) (b : Bindings R),
      Parameter.SameAnswer ((p.bind b).resolve .empty) (p.resolve b) := by
  refine ⟨isParameterized_iff, fun c b => ⟨parameterNames_bindParameters c b,
    parameterNames_ascending _, sameButAngles_bindParameters c b, ?_⟩,
    bindParameters_bindParameters, Dict.get?_union, fun p b => p.sameAnswer_resolve_bind b⟩
  rw [gates_bindParameters, List.map_map]
  exact List.map_congr_left fun g _ => g.bind_parameters b

end Circuit

end QuantumSim
