import Mathlib
import QuantumSim.Codec.Result
import QuantumSim.Proofs.Dict
import QuantumSim.Proofs.Documents

/-!
Documents of requests and of results. Fields that are left out stand for what reading puts in their
place, so nothing is lost on the way through a document.
-/
namespace QuantumSim

variable (source : Json.Source)

section Tags

theorem Pauli.ofJson?_toJson (p : Pauli) : ofJson? source p.toJson = some p := by
  cases p <;> rfl

theorem ExecutionMode.ofJson?_toJson (m : ExecutionMode) : ofJson? source m.toJson = some m := by
  cases m <;> rfl

end Tags

namespace Json

/-- An optional word reads back, also where it is left out. -/
theorem elim_uint64? (word : Option UInt64) :
    word.elim (some none) (optional? uint64? ∘ ofUInt64) = some word :=
  elim_optional? ofUInt64 uint64?_ofUInt64 nofun word

/-- A member that is left out of an empty table is an optional field. -/
theorem unless_eq_optionalField (empty : Bool) (key : String) (j : Json) :
    (if empty then [] else [(key, j)]) = optionalField key (if empty then none else some j) := by
  cases empty <;> rfl

end Json

section Tables

variable {α : Type} {write : α → Json} {read : Json → Option α} {finite : α → Bool}

/-- A table reads back if its values do. -/
theorem Dict.readsBack (h : ReadsBack write read finite) :
    ReadsBack (fun d : Dict α => d.entries.map fun e => (e.1, write e.2))
      (fun fields => ((Json.members source fields).mapM fun e =>
        (read e.2).map fun a => (e.1, a)).bind fun entries => some (ofList entries))
      (fun d => d.entries.all fun e => finite e.2) := by
  intro d
  have hkeys : ((d.entries.map fun e => (e.1, write e.2)).map Prod.fst).Nodup := by
    rw [List.map_map]
    exact d.nodup_keys
  have hentry : ReadsBack (fun e : String × α => (e.1, write e.2))
      (fun e => (read e.2).map fun a => (e.1, a)) (fun e => finite e.2) := by
    intro e
    dsimp only
    rw [h]
    split <;> rfl
  dsimp only
  rw [Json.members_of_nodup source hkeys, hentry.list, bind_ite_some, d.ofList_entries]

end Tables

namespace Bindings

def isFinite (b : Bindings Float) : Bool := b.entries.all fun e => e.2.isFinite

def toJson (b : Bindings Float) : Json := .obj (b.entries.map fun e => (e.1, .ofFloat e.2))

/-- Bindings read back, also where they are left out. -/
theorem elim_bindingsOfJson? (b : Bindings Float) :
    (if b.isEmpty then none else some (toJson b)).elim (some .empty) (bindingsOfJson? source) =
      if b.isFinite then some b else none := by
  obtain ⟨entries, hascending⟩ := b
  cases entries with
  | nil => rfl
  | cons e entries => exact Dict.readsBack source Json.float?_ofFloat ⟨e :: entries, hascending⟩

end Bindings

namespace PauliString

theorem opOfJson?_opToJson (op : Qubit × Pauli) : opOfJson? source (opToJson op) = some op := by
  simp [opOfJson?, opToJson, Pauli.ofJson?_toJson]

theorem ofJson?_toJson (s : PauliString) : ofJson? source s.toJson = some s := by
  have hops := Json.list?_arr (.of_forall (opOfJson?_opToJson source)) s.ops
  simp [ofJson?, toJson, hops]

end PauliString

namespace ObservableTerm

def isFinite (t : ObservableTerm Float) : Bool := t.coeff.isFinite

theorem readsBack : ReadsBack toJson (ofJson? source) isFinite := by
  intro t
  have hcoeff := Json.float?_ofFloat t.coeff
  cases h : t.coeff.isFinite <;>
    simp [toJson, ofJson?, hcoeff, PauliString.ofJson?_toJson, isFinite, h]

end ObservableTerm

namespace Observable

def isFinite (o : Observable Float) : Bool := o.terms.all ObservableTerm.isFinite

theorem readsBack : ReadsBack toJson (ofJson? source) isFinite := by
  intro o
  have hterms := Json.list?_arr (ObservableTerm.readsBack source) o.terms
  change _ = if o.isFinite then _ else _ at hterms
  cases h : o.isFinite <;> simp [toJson, ofJson?, hterms, h]

end Observable

namespace RunOptions

def isFinite (o : RunOptions Float) : Bool :=
  Bindings.isFinite o.parameters && o.observables.all Observable.isFinite

/-- The members of the document of the options. -/
def members (o : RunOptions Float) : List (String × Json) :=
  [("mode", o.mode.toJson), ("shots", .ofUInt32 o.shots)] ++
    Json.optionalField "seed_simulator" (o.seedSimulator.map .ofUInt64) ++
    Json.optionalField "seed_transpiler" (o.seedTranspiler.map .ofUInt64) ++
    Json.optionalField "parameters"
      (if o.parameters.isEmpty then none else some (Bindings.toJson o.parameters)) ++
    Json.listField "observables" (o.observables.map Observable.toJson)

theorem toJson_eq (o : RunOptions Float) : o.toJson = .obj o.members := by
  rw [members, ← Json.unless_eq_optionalField]
  rfl

theorem nodup_members (o : RunOptions Float) : (o.members.map Prod.fst).Nodup := by
  simp [members, List.nodup_append, or_imp, forall_and]

theorem readsBack : ReadsBack toJson (ofJson? source) isFinite := by
  intro o
  have hparameters := Bindings.elim_bindingsOfJson? source o.parameters
  have hobservables := Json.elim_list? (Observable.readsBack source) o.observables
  have hsimulator := Json.elim_uint64? o.seedSimulator
  have htranspiler := Json.elim_uint64? o.seedTranspiler
  rw [toJson_eq, ofJson?, Json.record?_obj _ _ _ o.nodup_members, some_bind]
  cases hp : Bindings.isFinite o.parameters <;>
    cases ho : o.observables.all Observable.isFinite <;>
      simp [-List.all_eq_true, members, ExecutionMode.ofJson?_toJson, hsimulator, htranspiler,
        hobservables, hparameters, isFinite, hp, ho]

theorem field?_eq_none_iff (o : RunOptions Float) :
    (o.toJson.field? "seed_simulator" = none ↔ o.seedSimulator = none) ∧
      (o.toJson.field? "seed_transpiler" = none ↔ o.seedTranspiler = none) ∧
      (o.toJson.field? "parameters" = none ↔ o.parameters.isEmpty = true) ∧
      (o.toJson.field? "observables" = none ↔ o.observables = []) := by
  simp [toJson_eq, members]

end RunOptions

namespace ExecutionRequest

def isFinite (r : ExecutionRequest Float) : Bool := r.circuit.isFinite && r.options.isFinite

theorem readsBack : ReadsBack toJson (ofJson? source) isFinite := by
  intro r
  have hcircuit := Circuit.readsBack source r.circuit
  have hoptions := RunOptions.readsBack source r.options
  cases hc : r.circuit.isFinite <;> cases ho : r.options.isFinite <;>
    simp [toJson, ofJson?, hcircuit, hoptions, isFinite, hc, ho]

end ExecutionRequest

theorem Counts.ofJson?_toJson (c : Counts) : ofJson? source c.toJson = some c := by
  have htable : tableOfJson? source (.obj (c.table.entries.map fun e => (e.1, .ofUInt64 e.2))) =
      some c.table :=
    (Dict.readsBack source (.of_forall Json.uint64?_ofUInt64) c.table).trans (by simp)
  simp [toJson, ofJson?, toList, htable]

namespace StateData

def isFinite (d : StateData Float) : Bool := d.amplitudes.toList.all Amplitude.isFinite

theorem readsBack : ReadsBack toJson (ofJson? source) isFinite := by
  intro d
  have hamplitudes := Json.list?_arr Amplitude.readsBack d.amplitudes.toList
  change _ = if d.isFinite then _ else _ at hamplitudes
  cases h : d.isFinite <;> simp [toJson, ofJson?, hamplitudes, h]

end StateData

namespace ResultData

def isFinite : ResultData Float → Bool
  | counts _ => true
  | state d => d.isFinite

theorem readsBack : ReadsBack toJson (ofJson? source) isFinite := by
  intro data
  cases data with
  | counts c => simp [toJson, ofJson?, Json.isUnit, Counts.ofJson?_toJson, isFinite]
  | state d =>
    have hd := StateData.readsBack source d
    cases h : d.isFinite <;> simp [toJson, ofJson?, Json.isUnit, hd, isFinite, h]

end ResultData

namespace ExecutionResult

def isFinite (r : ExecutionResult Float) : Bool :=
  r.data.isFinite && r.expectationValues.all Float.isFinite

/-- The members of the document of a result. -/
def members (r : ExecutionResult Float) : List (String × Json) :=
  [("circuit_name", .str r.circuitName), ("index", .ofUInt64 r.index),
      ("mode", r.mode.toJson), ("data", r.data.toJson), ("shots", .ofUInt32 r.shots)] ++
    Json.optionalField "seed_simulator" (r.seedSimulator.map .ofUInt64) ++
    Json.optionalField "seed_transpiler" (r.seedTranspiler.map .ofUInt64) ++
    Json.listField "expectation_values" (r.expectationValues.map .ofFloat) ++
    Json.optionalField "execution_time_ms" (r.executionTimeMs.map .ofUInt64) ++
    [("metadata", r.metadata)]

theorem toJson_eq (r : ExecutionResult Float) : r.toJson = .obj r.members := rfl

theorem nodup_members (r : ExecutionResult Float) : (r.members.map Prod.fst).Nodup := by
  simp [members, List.nodup_append, or_imp, forall_and]

theorem readsBack : ReadsBack toJson (ofJson? source) isFinite := by
  intro r
  have hname : Json.lookup r.members "circuit_name" >>= Json.str? = some r.circuitName := by
    simp [members]
  have hindex : Json.lookup r.members "index" >>= Json.uint64? = some r.index := by
    simp [members]
  have hmode : Json.lookup r.members "mode" >>= ExecutionMode.ofJson? source = some r.mode := by
    simp [members, ExecutionMode.ofJson?_toJson]
  have hdata := ResultData.readsBack source r.data
  have hvalues := Json.elim_list? Json.float?_ofFloat r.expectationValues
  have hsimulator := Json.elim_uint64? r.seedSimulator
  have htranspiler := Json.elim_uint64? r.seedTranspiler
  have htime := Json.elim_uint64? r.executionTimeMs
  -- the first members are read one by one: a nest of ten reads is too deep to simplify at once
  rw [toJson_eq, ofJson?, Json.record?_obj _ _ _ r.nodup_members, some_bind, bind_read hname,
    bind_read hindex, bind_read hmode]
  cases hd : r.data.isFinite <;> cases hv : r.expectationValues.all Float.isFinite <;>
    simp [-List.all_eq_true, members, hdata, hvalues, hsimulator, htranspiler, htime, isFinite, hd,
      hv]

theorem field?_eq_none_iff (r : ExecutionResult Float) :
    (r.toJson.field? "seed_simulator" = none ↔ r.seedSimulator = none) ∧
      (r.toJson.field? "seed_transpiler" = none ↔ r.seedTranspiler = none) ∧
      (r.toJson.field? "expectation_values" = none ↔ r.expectationValues = []) ∧
      (r.toJson.field? "execution_time_ms" = none ↔ r.executionTimeMs = none) := by
  simp [toJson_eq, members]

end ExecutionResult

namespace JobResult

def isFinite (r : JobResult Float) : Bool := r.results.all ExecutionResult.isFinite

theorem readsBack : ReadsBack toJson (ofJson? source) isFinite := by
  intro r
  have hresults := Json.list?_arr (ExecutionResult.readsBack source) r.results
  change _ = if r.isFinite then _ else _ at hresults
  cases h : r.isFinite <;> simp [toJson, ofJson?, hresults, h]

end JobResult

/-- Circuits, requests and results are read back from their documents as they were if their numbers
are finite, and are refused otherwise, from a text as from a value. Members of a document are left
out where a list is empty or a value is absent, and nowhere else. -/
theorem documents_readBack :
    (∀ c : Circuit Float, Circuit.ofJson? source c.toJson = if c.isFinite then some c else none) ∧
    (∀ r : ExecutionRequest Float,
      ExecutionRequest.ofJson? source r.toJson = if r.isFinite then some r else none) ∧
    (∀ r : JobResult Float,
      JobResult.ofJson? source r.toJson = if r.isFinite then some r else none) ∧
    (∀ g : Gate Float, (g.toJson.field? "controls" = none ↔ g.controls = []) ∧
      (g.toJson.field? "label" = none ↔ g.label = none)) ∧
    (∀ inst : Instruction Float, inst.toJson.field? "clbits" = none ↔ inst.clbits = []) ∧
    (∀ o : RunOptions Float, (o.toJson.field? "seed_simulator" = none ↔ o.seedSimulator = none) ∧
      (o.toJson.field? "seed_transpiler" = none ↔ o.seedTranspiler = none) ∧
      (o.toJson.field? "parameters" = none ↔ o.parameters.isEmpty = true) ∧
      (o.toJson.field? "observables" = none ↔ o.observables = [])) ∧
    ∀ r : ExecutionResult Float,
      (r.toJson.field? "seed_simulator" = none ↔ r.seedSimulator = none) ∧
      (r.toJson.field? "seed_transpiler" = none ↔ r.seedTranspiler = none) ∧
      (r.toJson.field? "expectation_values" = none ↔ r.expectationValues = []) ∧
      (r.toJson.field? "execution_time_ms" = none ↔ r.executionTimeMs = none) :=
  ⟨Circuit.readsBack source, ExecutionRequest.readsBack source, JobResult.readsBack source,
    Gate.field?_eq_none_iff, Instruction.field?_clbits_eq_none, RunOptions.field?_eq_none_iff,
    ExecutionResult.field?_eq_none_iff⟩

end QuantumSim
