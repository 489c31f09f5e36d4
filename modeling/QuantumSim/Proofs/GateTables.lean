import Mathlib
import QuantumSim.Proofs.GateNames

/-!
The gate set spelled out: a constructor for each gate with its angles, a table for each thing that
can be read off a gate, and two tables by which a gate is built from a name with a list of angles.
The tables agree with each other, and with the gates that keep their angles in a vector.
-/
namespace QuantumSim

/-- A gate of the fixed set, spelled out. -/
inductive BasisGate (α : Type) where
  | i | x | y | z | h | s | sdg | t | tdg | sx | sxdg
  | rx (θ : α) | ry (θ : α) | rz (θ : α) | p (l : α)
  | u (θ φ l : α) | u1 (l : α) | u2 (φ l : α) | u3 (θ φ l : α) | r (θ φ : α)
  | cx | cy | cz | ch | swap | iswap
  | crx (θ : α) | cry (θ : α) | crz (θ : α) | cp (l : α) | rxx (θ : α) | ryy (θ : α) | rzz (θ : α)
  | ccx | cswap

namespace BasisGate

section Tables

variable {α : Type}

def name : BasisGate α → String
  | i => "id" | x => "x" | y => "y" | z => "z" | h => "h" | s => "s" | sdg => "sdg"
  | t => "t" | tdg => "tdg" | sx => "sx" | sxdg => "sxdg"
  | rx _ => "rx" | ry _ => "ry" | rz _ => "rz" | p _ => "p" | u .. => "u" | u1 _ => "u1"
  | u2 .. => "u2" | u3 .. => "u3" | r .. => "r"
  | cx => "cx" | cy => "cy" | cz => "cz" | ch => "ch" | swap => "swap" | iswap => "iswap"
  | crx _ => "crx" | cry _ => "cry" | crz _ => "crz" | cp _ => "cp"
  | rxx _ => "rxx" | ryy _ => "ryy" | rzz _ => "rzz" | ccx => "ccx" | cswap => "cswap"

def names : List String :=
  ["id", "x", "y", "z", "h", "s", "sdg", "t", "tdg", "sx", "sxdg", "rx", "ry", "rz", "p", "u",
    "u1", "u2", "u3", "r", "cx", "cy", "cz", "ch", "swap", "iswap", "crx", "cry", "crz", "cp",
    "rxx", "ryy", "rzz", "ccx", "cswap"]

def parameters : BasisGate α → List α
  | rx a | ry a | rz a | p a | u1 a | crx a | cry a | crz a | cp a | rxx a | ryy a | rzz a => [a]
  | u2 a b | r a b => [a, b]
  | u a b c | u3 a b c => [a, b, c]
  | _ => []

def map (f : α → α) : BasisGate α → BasisGate α
  | rx a => rx (f a) | ry a => ry (f a) | rz a => rz (f a) | p a => p (f a) | u1 a => u1 (f a)
  | crx a => crx (f a) | cry a => cry (f a) | crz a => crz (f a) | cp a => cp (f a)
  | rxx a => rxx (f a) | ryy a => ryy (f a) | rzz a => rzz (f a)
  | u2 a b => u2 (f a) (f b) | r a b => r (f a) (f b)
  | u a b c => u (f a) (f b) (f c) | u3 a b c => u3 (f a) (f b) (f c)
  | other => other

/-- How many angles a name asks for, if it is the name of a gate. -/
def expected? (name : String) : Option Nat :=
  match name with
  | "rx" | "ry" | "rz" | "p" | "u1" | "crx" | "cry" | "crz" | "cp" | "rxx" | "ryy" | "rzz" => some 1
  | "u2" | "r" => some 2
  | "u" | "u3" => some 3
  | _ => if name ∈ names then some 0 else none

variable {R : Type} [Scalar R]

/-- Takes the next angle from a list; zero when there are no more. -/
def next : StateM (List (Parameter R)) (Parameter R) :=
  modifyGet fun
    | [] => (.value Scalar.zero, [])
    | angle :: rest => (angle, rest)

/-- Builds the gate of a name from the angles that it takes. -/
def build (name : String) : StateM (List (Parameter R)) (BasisGate (Parameter R)) :=
  match name with
  | "id" => return i
  | "x" => return x
  | "y" => return y
  | "z" => return z
  | "h" => return h
  | "s" => return s
  | "sdg" => return sdg
  | "t" => return t
  | "tdg" => return tdg
  | "sx" => return sx
  | "sxdg" => return sxdg
  | "rx" => return rx (← next)
  | "ry" => return ry (← next)
  | "rz" => return rz (← next)
  | "p" => return p (← next)
  | "u" => return u (← next) (← next) (← next)
  | "u1" => return u1 (← next)
  | "u2" => return u2 (← next) (← next)
  | "u3" => return u3 (← next) (← next) (← next)
  | "r" => return r (← next) (← next)
  | "cx" => return cx
  | "cy" => return cy
  | "cz" => return cz
  | "ch" => return ch
  | "swap" => return swap
  | "iswap" => return iswap
  | "crx" => return crx (← next)
  | "cry" => return cry (← next)
  | "crz" => return crz (← next)
  | "cp" => return cp (← next)
  | "rxx" => return rxx (← next)
  | "ryy" => return ryy (← next)
  | "rzz" => return rzz (← next)
  | "ccx" => return ccx
  | _ => return cswap

/-- The gate of that name with those angles. -/
def ofName (name : String) (angles : List (Parameter R)) :
    Except (CircuitError R) (BasisGate (Parameter R)) :=
  match expected? name with
  | none => .error (.unknownGate name)
  | some expected =>
    if angles.length ≠ expected then .error (.parameterCount name expected angles.length)
    else .ok ((build name).run angles).1

end Tables

section Stored

variable {α : Type}

def symbol : BasisGate α → GateSymbol
  | i => .i | x => .x | y => .y | z => .z | h => .h | s => .s | sdg => .sdg | t => .t
  | tdg => .tdg | sx => .sx | sxdg => .sxdg
  | rx _ => .rx | ry _ => .ry | rz _ => .rz | p _ => .p | u .. => .u | u1 _ => .u1
  | u2 .. => .u2 | u3 .. => .u3 | r .. => .r
  | cx => .cx | cy => .cy | cz => .cz | ch => .ch | swap => .swap | iswap => .iswap
  | crx _ => .crx | cry _ => .cry | crz _ => .crz | cp _ => .cp
  | rxx _ => .rxx | ryy _ => .ryy | rzz _ => .rzz | ccx => .ccx | cswap => .cswap

theorem length_parameters (g : BasisGate α) : g.parameters.length = g.symbol.arity := by
  cases g <;> rfl

/-- The same gate with its angles in a vector. -/
def stored (g : BasisGate α) : StandardGate α :=
  ⟨g.symbol, ⟨g.parameters.toArray, g.length_parameters⟩⟩

@[simp] theorem name_stored (g : BasisGate α) : g.stored.name = g.name := by
  cases g <;> rfl

@[simp] theorem parameters_stored (g : BasisGate α) : g.stored.parameters = g.parameters := rfl

@[simp] theorem name_map (f : α → α) (g : BasisGate α) : (g.map f).name = g.name := by
  cases g <;> rfl

@[simp] theorem parameters_map (f : α → α) (g : BasisGate α) :
    (g.map f).parameters = g.parameters.map f := by
  cases g <;> rfl

theorem stored_map (f : α → α) (g : BasisGate α) : (g.map f).stored = g.stored.map f := by
  refine StandardGate.eq_of_parameters ?_ ?_
  · calc (g.map f).stored.name = g.name := by simp
      _ = (g.stored.map f).name := g.name_stored.symm
  · simp [StandardGate.parameters_map]

theorem names_eq : names = GateSymbol.names := rfl

variable {R : Type} [Scalar R] {name : String} {angles : List (Parameter R)}

/-- Every gate is built from its name and its angles. -/
theorem build_parameters (g : BasisGate (Parameter R)) :
    ((build g.name).run g.parameters).1 = g := by
  cases g <;> rfl

theorem stored_build (g : StandardGate (Parameter R)) :
    ((build g.name).run g.parameters).1.stored = g := by
  obtain ⟨symbol, ⟨⟨list⟩, hlength⟩⟩ := g
  cases symbol
  -- The tables compute once the list is known to be as long as the gate has angles.
  all_goals first
    | obtain rfl := List.length_eq_zero_iff.1 hlength; rfl
    | obtain ⟨a, rfl⟩ := List.length_eq_one_iff.1 hlength; rfl
    | obtain ⟨a, b, rfl⟩ := List.length_eq_two.1 hlength; rfl
    | obtain ⟨a, b, c, rfl⟩ := List.length_eq_three.1 hlength; rfl

theorem injective_name_parameters :
    Function.Injective fun g : BasisGate (Parameter R) => (g.name, g.parameters) := by
  intro g g' heq
  obtain ⟨hname, hangles⟩ := Prod.mk.inj heq
  rw [← g.build_parameters, hname, hangles, g'.build_parameters]

theorem stored_inj {g g' : BasisGate (Parameter R)} : g.stored = g'.stored ↔ g = g' := by
  refine ⟨fun heq => injective_name_parameters ?_, congrArg stored⟩
  simpa using congrArg (fun k : StandardGate (Parameter R) => (k.name, k.parameters)) heq

theorem expected?_name (symbol : GateSymbol) : expected? symbol.name = some symbol.arity := by
  cases symbol <;> rfl

theorem expected?_eq_none (h : name ∉ names) : expected? name = none := by
  unfold expected?
  split
  all_goals first
    | exact absurd (by decide) h
    | exact if_neg h

/-- Building a gate by the tables is building it as it is stored. -/
theorem stored_ofName (name : String) (angles : List (Parameter R)) :
    (ofName name angles).map stored = StandardGate.ofName name angles := by
  obtain hunknown | ⟨symbol, rfl, hlength⟩ | ⟨g, rfl, rfl⟩ :=
    StandardGate.known_or_mismatch_or_exists name angles
  · rw [StandardGate.ofName_unknown hunknown, ofName, expected?_eq_none hunknown]
    rfl
  · rw [StandardGate.ofName_mismatch hlength, ofName, expected?_name]
    exact congrArg (Except.map stored) (if_pos hlength)
  · have hbuilt : ofName g.name g.parameters = .ok ((build g.name).run g.parameters).1 := by
      rw [ofName, StandardGate.name, expected?_name]
      exact if_neg (not_not.2 g.length_parameters)
    rw [hbuilt, g.ofName_parameters]
    exact congrArg Except.ok (stored_build g)

theorem exists_name (symbol : GateSymbol) :
    ∃ g : BasisGate (Parameter R), g.name = symbol.name :=
  ⟨((build symbol.name).run []).1, by cases symbol <;> rfl⟩

theorem mem_names : name ∈ names ↔ ∃ g : BasisGate (Parameter R), g.name = name := by
  rw [names_eq, GateSymbol.mem_names]
  constructor
  · rintro ⟨symbol, rfl⟩
    exact exists_name symbol
  · rintro ⟨g, rfl⟩
    exact ⟨g.symbol, g.name_stored⟩

theorem ofName_eq_ok_iff {g : BasisGate (Parameter R)} :
    ofName name angles = .ok g ↔ g.name = name ∧ g.parameters = angles := by
  rw [← name_stored, ← parameters_stored, ← StandardGate.ofName_eq_ok_iff, ← stored_ofName]
  cases ofName name angles <;> simp [Except.map, stored_inj]

/-- The number of angles that an error names is the one that every gate of that name has. -/
theorem ofName_eq_error_iff {e : CircuitError R} :
    ofName name angles = .error e ↔
      name ∉ names ∧ e = .unknownGate name ∨
        ∃ g : BasisGate (Parameter R), g.name = name ∧ angles.length ≠ g.parameters.length ∧
          e = .parameterCount name g.parameters.length angles.length := by
  have hstored : ofName name angles = .error e ↔ StandardGate.ofName name angles = .error e := by
    rw [← stored_ofName]
    cases ofName name angles <;> simp [Except.map]
  rw [hstored, StandardGate.ofName_eq_error_iff, names_eq]
  refine or_congr_right ⟨?_, ?_⟩
  · rintro ⟨symbol, rfl, hmismatch, rfl⟩
    obtain ⟨g, hname⟩ := exists_name (R := R) symbol
    have hlength : g.parameters.length = symbol.arity :=
      StandardGate.length_parameters_of_name (g.name_stored.trans hname)
    rw [← hlength] at hmismatch ⊢
    exact ⟨g, hname, hmismatch, rfl⟩
  · rintro ⟨g, rfl, hmismatch, rfl⟩
    rw [g.length_parameters] at hmismatch ⊢
    exact ⟨g.symbol, g.name_stored, hmismatch, rfl⟩

/-- A name with a list of angles gives a gate exactly if the gate has that name and those angles in
their order, and no two gates have both in common. Otherwise no gate has that name, or the gates
that have it have another number of angles. So a gate is found again by its own name and angles,
and with changed angles it is the gate that the name gives for them. Gates with their angles in a
vector are built and changed in the same way. -/
theorem ofName_characterized (name : String) (angles : List (Parameter R)) :
    (∀ g, ofName name angles = .ok g ↔ g.name = name ∧ g.parameters = angles) ∧
      (Function.Injective fun g : BasisGate (Parameter R) => (g.name, g.parameters)) ∧
      (name ∈ names ↔ ∃ g : BasisGate (Parameter R), g.name = name) ∧
      (ofName name angles = .error (.unknownGate name) ↔ name ∉ names) ∧
      (∀ e, ofName name angles = .error e ↔
        name ∉ names ∧ e = .unknownGate name ∨
          ∃ g : BasisGate (Parameter R), g.name = name ∧ angles.length ≠ g.parameters.length ∧
            e = .parameterCount name g.parameters.length angles.length) ∧
      (∀ g : BasisGate (Parameter R), ofName g.name g.parameters = .ok g ∧
        ∀ f : Parameter R → Parameter R, ofName g.name (g.parameters.map f) = .ok (g.map f) ∧
          (g.map f).stored = g.stored.map f) ∧
      StandardGate.ofName name angles = (ofName name angles).map stored := by
  refine ⟨fun g => ofName_eq_ok_iff, injective_name_parameters, mem_names, ?_,
    fun e => ofName_eq_error_iff, fun g => ⟨?_, fun f => ⟨?_, g.stored_map f⟩⟩,
    (stored_ofName name angles).symm⟩
  · rw [ofName_eq_error_iff]
    simp
  · exact ofName_eq_ok_iff.2 ⟨rfl, rfl⟩
  · exact ofName_eq_ok_iff.2 ⟨g.name_map f, g.parameters_map f⟩

end Stored

end BasisGate

end QuantumSim
