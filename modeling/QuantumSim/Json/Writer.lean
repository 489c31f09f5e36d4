import QuantumSim.Json
import QuantumSim.Decimal.Text

/-!
Writing a JSON document on one line. Members keep their order and strings escape only what they
must.
-/
namespace QuantumSim.Json

def hexChar (n : Nat) : Char := Nat.digitChar n

/-- A fraction part shows that the number is not a whole one. -/
def floatText (x : Float) : String :=
  let text := Decimal.shortest x
  if text.contains '.' then text else text ++ ".0"

/-- A character inside a string. -/
def escape (c : Char) : List Char :=
  if c == '"' then ['\\', '"']
  else if c == '\\' then ['\\', '\\']
  else if c.toNat < 0x20 then ['\\', 'u', '0', '0', hexChar (c.toNat / 16), hexChar (c.toNat % 16)]
  else [c]

def quote (s : String) : String := String.ofList ('"' :: s.toList.flatMap escape ++ ['"'])

mutual

def render : Json → String
  | .null => "null"
  | .bool true => "true"
  | .bool false => "false"
  | .int n => toString n
  | .float x => floatText x
  | .str s => quote s
  | .arr items => "[" ++ ",".intercalate (renderItems items) ++ "]"
  | .obj fields => "\x7b" ++ ",".intercalate (renderFields fields) ++ "\x7d"

def renderItems : List Json → List String
  | [] => []
  | j :: rest => render j :: renderItems rest

def renderFields : List (String × Json) → List String
  | [] => []
  | (name, j) :: rest => (quote name ++ ":" ++ render j) :: renderFields rest

end

end QuantumSim.Json
