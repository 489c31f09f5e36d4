import QuantumSim.Decimal.Binary64

/-!
JSON documents. Whole numbers and numbers with a fraction or an exponent are kept apart, because a
record field that wants an integer refuses `5.0`.
-/
namespace QuantumSim

inductive Json where
  | null
  | bool (value : Bool)
  | int (value : Int)
  | float (value : Float)
  | str (value : String)
  | arr (items : List Json)
  | obj (fields : List (String × Json))
  deriving Inhabited

namespace Json

/-- A number field; one that is not finite has no JSON form and becomes null. -/
def ofFloat (x : Float) : Json := if x.isFinite then .float x else .null

def ofNat (n : Nat) : Json := .int n

def ofUInt32 (n : UInt32) : Json := .int n.toNat

def ofUInt64 (n : UInt64) : Json := .int n.toNat

/-- A field that is left out when it has no value. -/
def optionalField (name : String) (value : Option Json) : List (String × Json) :=
  match value with
  | some v => [(name, v)]
  | none => []

/-- A list field that is left out when it is empty. -/
def listField (name : String) (items : List Json) : List (String × Json) :=
  if items.isEmpty then [] else [(name, .arr items)]

/-- The last value stored under a name. -/
def lookup (fields : List (String × Json)) (name : String) : Option Json :=
  (fields.reverse.find? (·.1 == name)).map (·.2)

def field? (j : Json) (name : String) : Option Json :=
  match j with
  | .obj fields => lookup fields name
  | _ => none

def str? : Json → Option String
  | .str s => some s
  | _ => none

def bool? : Json → Option Bool
  | .bool b => some b
  | _ => none

/-- A whole number that is not negative. -/
def nat? : Json → Option Nat
  | .int (.ofNat n) => some n
  | _ => none

def uint32? (j : Json) : Option UInt32 :=
  j.nat?.bind fun n => if n < UInt32.size then some n.toUInt32 else none

def uint64? (j : Json) : Option UInt64 :=
  j.nat?.bind fun n => if n < UInt64.size then some n.toUInt64 else none

/-- Any number; a whole one goes to the nearest double precision number. -/
def float? : Json → Option Float
  | .float x => some x
  | .int n => some (Decimal.toFloat (n < 0) n.natAbs 0)
  | _ => none

def array? : Json → Option (List Json)
  | .arr items => some items
  | _ => none

def list? {α : Type} (read : Json → Option α) (j : Json) : Option (List α) :=
  j.array?.bind fun items => items.mapM read

/-- Null reads as no value. -/
def optional? {α : Type} (read : Json → Option α) : Json → Option (Option α)
  | .null => some none
  | j => (read j).map some

/-- What a document is read from: its text, or the value that a text was turned into before. In a
value, of members with one name the last is there. -/
inductive Source where
  | text
  | value
  deriving Repr, DecidableEq

/-- The members of an object that its source has. -/
def members (source : Source) (fields : List (String × Json)) : List (String × Json) :=
  match source with
  | .text => fields
  | .value => fields.foldr (fun e kept => if kept.any (·.1 == e.1) then kept else e :: kept) []

/-- Whether one of the names stands for more than one member. -/
def isRepeated (names : List String) (fields : List (String × Json)) : Bool :=
  names.any fun name => 1 < fields.countP (·.1 == name)

/-- The members of a record by name; none of them may be repeated. A record is written as an object,
or as the array of its first members in declaration order, at least `least` of them. -/
def record? (source : Source) (names : List String) (least : Nat) :
    Json → Option (String → Option Json)
  | .obj fields =>
    let fields := members source fields
    if isRepeated names fields then none else some (lookup fields)
  | .arr items =>
    if least ≤ items.length ∧ items.length ≤ names.length then
      some fun name => lookup (names.zip items) name
    else none
  | _ => none

/-- The constructor of a tagged value with its payload: a bare name, or an object with one key. -/
def variant? (source : Source) : Json → Option (String × Option Json)
  | .str name => some (name, none)
  | .obj fields =>
    match members source fields with
    | [(name, payload)] => some (name, some payload)
    | _ => none
  | _ => none

/-- The members of a constructor that holds a record. A value has to have them as an object. -/
def variantRecord? (source : Source) (names : List String) (payload : Json) :
    Option (String → Option Json) :=
  match source, payload with
  | .value, .arr _ => none
  | _, _ => payload.record? source names names.length

/-- The payload of a constructor without data: none, or null. -/
def isUnit : Option Json → Bool
  | none => true
  | some .null => true
  | some _ => false

end Json

end QuantumSim
