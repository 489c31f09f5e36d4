import Mathlib
import QuantumSim.Codec.Circuit
import QuantumSim.Proofs.GateNames

/-!
What a document says of the circuit it was written from. A value whose numbers are all finite is
read back as it was; a number that is not finite has no JSON form, and a document that lacks it is
refused.
-/
namespace QuantumSim

/-- `read` takes back what `write` makes of a value whose numbers are finite, and refuses what it
makes of any other. -/
def ReadsBack {α β : Type} (write : α → β) (read : β → Option α) (finite : α → Bool) : Prop :=
  ∀ a, read (write a) = if finite a then some a else none

section Reads

variable {α β γ : Type}

theorem bind_ite_some (b : Bool) (a : α) (f : α → Option β) :
    (if b then some a else none).bind f = if b then f a else none := by
  cases b <;> rfl

theorem some_bind (a : α) (f : α → Option β) : (some a >>= f) = f a := rfl

/-- A member that is read hands its value to what follows. -/
theorem bind_read {x : Option β} {read : β → Option α} {a : α} (h : x >>= read = some a)
    (f : α → Option γ) : (x >>= fun j => read j >>= f) = f a := by
  rw [← bind_assoc, h, some_bind]

end Reads

namespace ReadsBack

variable {α β : Type} {write : α → β} {read : β → Option α} {finite : α → Bool}

theorem of_forall (h : ∀ a, read (write a) = some a) : ReadsBack write read fun _ => true := h

/-- A list is read back if its items are. -/
theorem list (h : ReadsBack write read finite) :
    ReadsBack (List.map write) (List.mapM read) (List.all · finite) := by
  intro l
  induction l with
  | nil => rfl
  | cons a l ih =>
    rw [List.map_cons, List.mapM_cons, h, ih]
    cases ha : finite a <;> cases hl : l.all finite <;> simp [ha, hl]

end ReadsBack

namespace Json

section Numbers

theorem float?_ofFloat : ReadsBack ofFloat float? Float.isFinite := by
  intro x
  unfold ofFloat
  split <;> rfl

@[simp] theorem uint32?_ofUInt32 (n : UInt32) : (ofUInt32 n).uint32? = some n := by
  have hn : n.toNat < UInt32.size := n.toNat_lt
  show (if n.toNat < UInt32.size then some n.toNat.toUInt32 else none) = some n
  rw [if_pos hn]
  simp

@[simp] theorem uint64?_ofUInt64 (n : UInt64) : (ofUInt64 n).uint64? = some n := by
  have hn : n.toNat < UInt64.size := n.toNat_lt
  show (if n.toNat < UInt64.size then some n.toNat.toUInt64 else none) = some n
  rw [if_pos hn]
  simp

end Numbers

section Members

@[simp] theorem lookup_nil (name : String) : lookup [] name = none := rfl

@[simp] theorem lookup_append (first last : List (String × Json)) (name : String) :
    lookup (first ++ last) name = (lookup last name).or (lookup first name) := by
  simp [lookup, Option.map_or]

@[simp] theorem lookup_cons (key : String) (j : Json) (fields : List (String × Json))
    (name : String) : lookup ((key, j) :: fields) name =
      (lookup fields name).or (if key = name then some j else none) := by
  rw [← List.singleton_append, lookup_append]
  by_cases h : key = name <;> simp [lookup, h]

@[simp] theorem lookup_optionalField (key : String) (value : Option Json) (name : String) :
    lookup (optionalField key value) name = if key = name then value else none := by
  cases value <;> simp [optionalField]

@[simp] theorem lookup_listField (key : String) (items : List Json) (name : String) :
    lookup (listField key items) name =
      if key = name then if items = [] then none else some (.arr items) else none := by
  cases items <;> simp [listField]

/-- A value has all members of an object that has no name twice. -/
theorem members_of_nodup (source : Source) {fields : List (String × Json)}
    (h : (fields.map Prod.fst).Nodup) : members source fields = fields := by
  cases source with
  | text => rfl
  | value =>
    induction fields with
    | nil => rfl
    | cons e fields ih =>
      obtain ⟨hfresh, hrest⟩ := List.nodup_cons.1 h
      have hany : fields.any (·.1 == e.1) = false := by
        rw [List.any_eq_false]
        intro later hlater heq
        exact hfresh (List.mem_map.2 ⟨later, hlater, beq_iff_eq.1 heq⟩)
      show (if (members .value fields).any (·.1 == e.1) then members .value fields
        else e :: members .value fields) = _
      rw [ih hrest, hany]
      rfl

theorem isRepeated_of_nodup (names : List String) {fields : List (String × Json)}
    (h : (fields.map Prod.fst).Nodup) : isRepeated names fields = false := by
  rw [isRepeated, List.any_eq_false]
  intro name _
  have hcount := List.nodup_iff_count_le_one.1 h name
  rw [List.count, List.countP_map] at hcount
  exact fun hmany => absurd (of_decide_eq_true hmany) (Nat.not_lt.2 hcount)

@[simp] theorem record?_obj (source : Source) (names : List String) (least : Nat)
    {fields : List (String × Json)} (h : (fields.map Prod.fst).Nodup) :
    record? source names least (.obj fields) = some (lookup fields) := by
  show (if isRepeated names (members source fields) then none
    else some (lookup (members source fields))) = _
  rw [members_of_nodup source h, isRepeated_of_nodup names h]
  rfl

@[simp] theorem variantRecord?_obj (source : Source) (names : List String)
    {fields : List (String × Json)} (h : (fields.map Prod.fst).Nodup) :
    variantRecord? source names (.obj fields) = some (lookup fields) := by
  cases source <;> exact record?_obj _ names names.length h

@[simp] theorem mem_optionalField {e : String × Json} {key : String} {value : Option Json} :
    e ∈ optionalField key value ↔ e.1 = key ∧ value = some e.2 := by
  cases value <;> simp [optionalField, Prod.ext_iff, eq_comm]

@[simp] theorem mem_listField {e : String × Json} {key : String} {items : List Json} :
    e ∈ listField key items ↔ e.1 = key ∧ items ≠ [] ∧ e.2 = arr items := by
  cases items <;> simp [listField, Prod.ext_iff]

@[simp] theorem nodup_optionalField (key : String) (value : Option Json) :
    ((optionalField key value).map Prod.fst).Nodup := by
  cases value <;> simp [optionalField]

@[simp] theorem nodup_listField (key : String) (items : List Json) :
    ((listField key items).map Prod.fst).Nodup := by
  cases items <;> simp [listField]

@[simp] theorem str?_str (s : String) : (str s).str? = some s := rfl

@[simp] theorem variant?_str (source : Source) (tag : String) :
    (str tag).variant? source = some (tag, none) := rfl

@[simp] theorem variant?_obj (source : Source) (tag : String) (payload : Json) :
    (obj [(tag, payload)]).variant? source = some (tag, some payload) := by
  cases source <;> rfl

@[simp] theorem field?_obj (fields : List (String × Json)) (name : String) :
    (obj fields).field? name = lookup fields name := rfl

end Members

section Fields

variable {α : Type} {write : α → Json} {read : Json → Option α} {finite : α → Bool}

theorem list?_arr (h : ReadsBack write read finite) (l : List α) :
    (arr (l.map write)).list? read = if l.all finite then some l else none := h.list l

/-- A list field reads back, also where it is left out. -/
theorem elim_list? (h : ReadsBack write read finite) (l : List α) :
    (if l = [] then none else some (arr (l.map write))).elim (some []) (list? read) =
      if l.all finite then some l else none := by
  cases l with
  | nil => rfl
  | cons a l => exact list?_arr h (a :: l)

/-- An optional field reads back, also where it is left out, unless its value is written as null. -/
theorem elim_optional? (write : α → Json) (h : ∀ a, read (write a) = some a)
    (hnull : ∀ a, write a ≠ null) (value : Option α) :
    value.elim (some none) (optional? read ∘ write) = some value := by
  cases value with
  | none => rfl
  | some a =>
    show optional? read (write a) = _
    unfold optional?
    split
    next heq => exact absurd heq (hnull a)
    · rw [h]
      rfl

end Fields

end Json

variable (source : Json.Source)

section Tags

theorem GateSymbol.ofTag?_tag (g : GateSymbol) : ofTag? g.tag = some g := by
  cases g <;> rfl

theorem Polarity.ofJson?_toJson (p : Polarity) : ofJson? source p.toJson = some p := by
  cases p <;> rfl

end Tags

@[simp] theorem Qubit.ofJson?_toJson (q : Qubit) : ofJson? q.toJson = some q := by
  simp [ofJson?, toJson]

@[simp] theorem Clbit.ofJson?_toJson (c : Clbit) : ofJson? c.toJson = some c := by
  simp [ofJson?, toJson]

theorem Control.ofJson?_toJson (c : Control) : ofJson? source c.toJson = some c := by
  simp [ofJson?, toJson, Polarity.ofJson?_toJson]

theorem Amplitude.readsBack : ReadsBack toJson ofJson? (isFinite (R := Float)) := by
  intro z
  have hre := Json.float?_ofFloat z.re
  have him := Json.float?_ofFloat z.im
  simp only [toJson, ofJson?, hre, him, Option.bind_eq_bind, bind_ite_some]
  cases h : z.re.isFinite <;> simp [isFinite, Scalar.isFinite, h]

namespace Parameter

def isFinite : Parameter Float → Bool
  | value v => v.isFinite
  | symbol _ scale shift => scale.isFinite && shift.isFinite

theorem readsBack : ReadsBack toJson (ofJson? source) isFinite := by
  intro p
  cases p with
  | value v =>
    have hv := Json.float?_ofFloat v
    simp only [toJson, ofJson?, Json.variant?_obj, Option.bind_eq_bind, Option.bind_some, hv,
      bind_ite_some, Option.pure_def]
    rfl
  | symbol name scale shift =>
    have hscale := Json.float?_ofFloat scale
    have hshift := Json.float?_ofFloat shift
    simp [toJson, ofJson?, hscale, hshift, bind_ite_some, isFinite, ite_and]

end Parameter

namespace StandardGate

def isFinite (g : StandardGate (Parameter Float)) : Bool := g.parameters.all Parameter.isFinite

theorem readsBack : ReadsBack toJson (ofJson? source) isFinite := by
  intro g
  have hback := g.ofSymbol?_parameters
  have harity := g.length_parameters.symm
  unfold isFinite
  match hps : g.parameters with
  | [] =>
    rw [hps] at hback harity
    simp [toJson, ofJson?, hps, GateSymbol.ofTag?_tag, harity, Json.isUnit, hback]
  | [p] =>
    rw [hps] at hback harity
    have hp := Parameter.readsBack source p
    simp [toJson, ofJson?, hps, GateSymbol.ofTag?_tag, harity, hp, bind_ite_some, hback]
  | p :: p' :: ps =>
    rw [hps] at hback harity
    have hlist := Json.list?_arr (Parameter.readsBack source) (p :: p' :: ps)
    simp only [toJson, ofJson?, hps, Json.variant?_obj, Option.bind_eq_bind, Option.bind_some,
      GateSymbol.ofTag?_tag, harity, List.length_cons, hlist, bind_ite_some, hback]

end StandardGate

namespace MatrixGate

def isFinite (g : MatrixGate Float) : Bool := g.entries.toList.all Amplitude.isFinite

theorem readsBack : ReadsBack toJson (ofJson? source) isFinite := by
  intro g
  have hentries := Json.list?_arr Amplitude.readsBack g.entries.toList
  change _ = if g.isFinite then _ else _ at hentries
  cases h : g.isFinite <;> simp [toJson, ofJson?, hentries, h]

end MatrixGate

namespace GateKind

def isFinite : GateKind Float → Bool
  | standard g => g.isFinite
  | matrix g => g.isFinite

theorem readsBack : ReadsBack toJson (ofJson? source) isFinite := by
  intro kind
  cases kind with
  | standard g =>
    have hg := StandardGate.readsBack source g
    cases h : g.isFinite <;> simp [toJson, ofJson?, hg, isFinite, h]
  | matrix g =>
    have hg := MatrixGate.readsBack source g
    cases h : g.isFinite <;> simp [toJson, ofJson?, hg, isFinite, h]

end GateKind

namespace Gate

def isFinite (g : Gate Float) : Bool := g.kind.isFinite

theorem readsBack : ReadsBack toJson (ofJson? source) isFinite := by
  intro g
  have hkind := GateKind.readsBack source g.kind
  have hcontrols := Json.elim_list? (.of_forall (Control.ofJson?_toJson source)) g.controls
  have hlabel := Json.elim_optional? Json.str Json.str?_str nofun g.label
  cases h : g.kind.isFinite <;>
    simp [toJson, ofJson?, List.nodup_append, hkind, hcontrols, hlabel, isFinite, h]

theorem field?_eq_none_iff (g : Gate Float) :
    (g.toJson.field? "controls" = none ↔ g.controls = []) ∧
      (g.toJson.field? "label" = none ↔ g.label = none) := by
  simp [toJson]

end Gate

namespace Operation

def isFinite : Operation Float → Bool
  | gate g => g.isFinite
  | _ => true

theorem readsBack : ReadsBack toJson (ofJson? source) isFinite := by
  intro op
  cases op with
  | gate g =>
    have hg := Gate.readsBack source g
    cases h : g.isFinite <;> simp [toJson, ofJson?, hg, isFinite, h]
  | measure => rfl
  | reset => rfl
  | barrier => rfl

end Operation

namespace Instruction

def isFinite (inst : Instruction Float) : Bool := inst.operation.isFinite

theorem readsBack : ReadsBack toJson (ofJson? source) isFinite := by
  intro inst
  have hoperation := Operation.readsBack source inst.operation
  have hqubits := Json.list?_arr (.of_forall Qubit.ofJson?_toJson) inst.qubits
  have hclbits := Json.elim_list? (.of_forall Clbit.ofJson?_toJson) inst.clbits
  cases h : inst.operation.isFinite <;>
    simp [toJson, ofJson?, hoperation, hqubits, hclbits, isFinite, h]

theorem field?_clbits_eq_none (inst : Instruction Float) :
    inst.toJson.field? "clbits" = none ↔ inst.clbits = [] := by
  simp [toJson]

end Instruction

namespace Circuit

def isFinite (c : Circuit Float) : Bool := c.instructions.all Instruction.isFinite

theorem readsBack : ReadsBack toJson (ofJson? source) isFinite := by
  intro c
  have hinstructions := Json.list?_arr (Instruction.readsBack source) c.instructions
  change _ = if c.isFinite then _ else _ at hinstructions
  cases h : c.isFinite <;> simp [toJson, ofJson?, hinstructions, h]

end Circuit

end QuantumSim
