import Mathlib
import QuantumSim.Circuit.Builder

/-!
Gates by name. The names of the fixed set are pairwise different, so a name with a list of angles
stands for at most one gate, and it stands for one exactly if the list has as many angles as the
gates of that name.
-/
namespace QuantumSim

namespace GateSymbol

theorem mem_all (symbol : GateSymbol) : symbol ∈ all := by
  cases symbol <;> decide

/-- No symbol further ahead in the table has the name of a later one. -/
theorem ofName?_name (symbol : GateSymbol) : ofName? symbol.name = some symbol := by
  cases symbol <;> rfl

theorem name_injective : Function.Injective name := by
  intro a b h
  have ha := ofName?_name a
  rw [h, ofName?_name] at ha
  exact (Option.some.inj ha).symm

theorem mem_names {text : String} : text ∈ names ↔ ∃ symbol : GateSymbol, symbol.name = text := by
  simp [names, mem_all]

theorem ofName?_eq_none {text : String} (h : text ∉ names) : ofName? text = none := by
  refine List.find?_eq_none.2 fun symbol _ hname => h (mem_names.2 ⟨symbol, ?_⟩)
  exact beq_iff_eq.1 hname

end GateSymbol

namespace StandardGate

variable {α β : Type}

theorem ofSymbol?_parameters (g : StandardGate α) : ofSymbol? g.symbol g.parameters = some g := by
  obtain ⟨symbol, ⟨angles, hangles⟩⟩ := g
  simp [ofSymbol?, parameters, hangles]

theorem eq_of_parameters {g g' : StandardGate α} (hname : g.name = g'.name)
    (hangles : g.parameters = g'.parameters) : g = g' := by
  have hfound := g.ofSymbol?_parameters
  rw [GateSymbol.name_injective hname, hangles, g'.ofSymbol?_parameters] at hfound
  exact (Option.some.inj hfound).symm

theorem length_parameters (g : StandardGate α) : g.parameters.length = g.symbol.arity := by
  simp [parameters]

theorem parameters_map (f : α → β) (g : StandardGate α) :
    (g.map f).parameters = g.parameters.map f := by
  simp only [map, parameters]
  exact Vector.toList_map

variable {R : Type} {name : String} {angles : List (Parameter R)}

/-- The gates of one name have the same number of angles. -/
theorem length_parameters_of_name {g : StandardGate (Parameter R)} {symbol : GateSymbol}
    (h : g.name = symbol.name) : g.parameters.length = symbol.arity := by
  rw [g.length_parameters, GateSymbol.name_injective h]

theorem ofName_unknown (h : name ∉ GateSymbol.names) :
    ofName name angles = .error (.unknownGate name) := by
  rw [ofName, GateSymbol.ofName?_eq_none h]

theorem ofName_mismatch {symbol : GateSymbol} (h : angles.length ≠ symbol.arity) :
    ofName symbol.name angles =
      .error (.parameterCount symbol.name symbol.arity angles.length) := by
  rw [ofName, symbol.ofName?_name]
  simp [ofSymbol?, h]

theorem ofName_parameters (g : StandardGate (Parameter R)) :
    ofName g.name g.parameters = .ok g := by
  rw [ofName, StandardGate.name, g.symbol.ofName?_name]
  simp [ofSymbol?_parameters]

/-- A name with a list of angles is unknown, has the wrong number of angles, or names a gate. -/
theorem known_or_mismatch_or_exists (name : String) (angles : List (Parameter R)) :
    name ∉ GateSymbol.names ∨
      (∃ symbol : GateSymbol, symbol.name = name ∧ angles.length ≠ symbol.arity) ∨
      ∃ g : StandardGate (Parameter R), g.name = name ∧ g.parameters = angles := by
  by_cases hknown : name ∈ GateSymbol.names
  · obtain ⟨symbol, rfl⟩ := GateSymbol.mem_names.1 hknown
    by_cases hlength : angles.length = symbol.arity
    · exact .inr (.inr ⟨⟨symbol, ⟨angles.toArray, hlength⟩⟩, rfl, rfl⟩)
    · exact .inr (.inl ⟨symbol, rfl, hlength⟩)
  · exact .inl hknown

theorem ofName_eq_ok_iff {g : StandardGate (Parameter R)} :
    ofName name angles = .ok g ↔ g.name = name ∧ g.parameters = angles := by
  constructor
  · intro h
    obtain hunknown | ⟨symbol, rfl, hlength⟩ | ⟨g', rfl, rfl⟩ :=
      known_or_mismatch_or_exists name angles
    · cases (ofName_unknown hunknown).symm.trans h
    · cases (ofName_mismatch hlength).symm.trans h
    · cases g'.ofName_parameters.symm.trans h
      exact ⟨rfl, rfl⟩
  · rintro ⟨rfl, rfl⟩
    exact g.ofName_parameters

/-- The two ways in which a name with a list of angles is no gate. -/
theorem ofName_eq_error_iff {e : CircuitError R} :
    ofName name angles = .error e ↔
      name ∉ GateSymbol.names ∧ e = .unknownGate name ∨
        ∃ symbol : GateSymbol, symbol.name = name ∧ angles.length ≠ symbol.arity ∧
          e = .parameterCount name symbol.arity angles.length := by
  constructor
  · intro h
    obtain hunknown | ⟨symbol, rfl, hlength⟩ | ⟨g', rfl, rfl⟩ :=
      known_or_mismatch_or_exists name angles
    · cases (ofName_unknown hunknown).symm.trans h
      exact .inl ⟨hunknown, rfl⟩
    · cases (ofName_mismatch hlength).symm.trans h
      exact .inr ⟨symbol, rfl, hlength, rfl⟩
    · cases g'.ofName_parameters.symm.trans h
  · rintro (⟨hunknown, rfl⟩ | ⟨symbol, rfl, hlength, rfl⟩)
    · exact ofName_unknown hunknown
    · exact ofName_mismatch hlength

end StandardGate

end QuantumSim
