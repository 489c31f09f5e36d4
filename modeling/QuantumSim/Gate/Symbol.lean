/-!
The fixed gate set. One table gives each gate its name, its number of angles and qubits and whether
it is diagonal.
-/
namespace QuantumSim

inductive GateSymbol where
  | i | x | y | z | h | s | sdg | t | tdg | sx | sxdg
  | rx | ry | rz | p | u | u1 | u2 | u3 | r
  | cx | cy | cz | ch | swap | iswap | crx | cry | crz | cp | rxx | ryy | rzz
  | ccx | cswap
  deriving Repr, DecidableEq, Inhabited

namespace GateSymbol

/-- Every gate of the set, by number of qubits. -/
def all : List GateSymbol :=
  [i, x, y, z, h, s, sdg, t, tdg, sx, sxdg, rx, ry, rz, p, u, u1, u2, u3, r,
    cx, cy, cz, ch, swap, iswap, crx, cry, crz, cp, rxx, ryy, rzz, ccx, cswap]

def name : GateSymbol → String
  | i => "id" | x => "x" | y => "y" | z => "z" | h => "h" | s => "s" | sdg => "sdg"
  | t => "t" | tdg => "tdg" | sx => "sx" | sxdg => "sxdg"
  | rx => "rx" | ry => "ry" | rz => "rz" | p => "p" | u => "u" | u1 => "u1" | u2 => "u2"
  | u3 => "u3" | r => "r"
  | cx => "cx" | cy => "cy" | cz => "cz" | ch => "ch" | swap => "swap" | iswap => "iswap"
  | crx => "crx" | cry => "cry" | crz => "crz" | cp => "cp"
  | rxx => "rxx" | ryy => "ryy" | rzz => "rzz" | ccx => "ccx" | cswap => "cswap"

/-- The spelling in JSON documents. -/
def tag : GateSymbol → String
  | i => "I" | x => "X" | y => "Y" | z => "Z" | h => "H" | s => "S" | sdg => "Sdg"
  | t => "T" | tdg => "Tdg" | sx => "SX" | sxdg => "SXdg"
  | rx => "Rx" | ry => "Ry" | rz => "Rz" | p => "P" | u => "U" | u1 => "U1" | u2 => "U2"
  | u3 => "U3" | r => "R"
  | cx => "CX" | cy => "CY" | cz => "CZ" | ch => "CH" | swap => "Swap" | iswap => "ISwap"
  | crx => "CRx" | cry => "CRy" | crz => "CRz" | cp => "CP"
  | rxx => "RXX" | ryy => "RYY" | rzz => "RZZ" | ccx => "CCX" | cswap => "CSwap"

/-- The number of angles. -/
def arity : GateSymbol → Nat
  | rx | ry | rz | p | u1 | crx | cry | crz | cp | rxx | ryy | rzz => 1
  | u2 | r => 2
  | u | u3 => 3
  | _ => 0

/-- The number of operand qubits, the controls that a gate implies included. -/
def numQubits : GateSymbol → UInt32
  | cx | cy | cz | ch | swap | iswap | crx | cry | crz | cp | rxx | ryy | rzz => 2
  | ccx | cswap => 3
  | _ => 1

/-- Whether the gate only changes phases of basis states. -/
def isDiagonal : GateSymbol → Bool
  | i | z | s | sdg | t | tdg | rz | p | u1 | cz | crz | cp | rzz => true
  | _ => false

def names : List String := all.map name

def ofName? (text : String) : Option GateSymbol := all.find? fun g => g.name == text

def ofTag? (text : String) : Option GateSymbol := all.find? fun g => g.tag == text

end GateSymbol

end QuantumSim
