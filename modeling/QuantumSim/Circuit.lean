import QuantumSim.Circuit.Error
import QuantumSim.Instruction

/-!
Circuits: an ordered list of instructions on a register of qubits and one of classical bits. An
instruction is checked when it is appended; `validate` checks all of them again, for circuits that
were read from a document. Circuits are built in place, call by call.
-/
namespace QuantumSim

structure Circuit (R : Type) where
  name : String
  numQubits : UInt32
  numClbits : UInt32
  instructions : List (Instruction R)

namespace Circuit

variable {R : Type}

def withSize (name : String) (numQubits numClbits : UInt32) : Circuit R :=
  ⟨name, numQubits, numClbits, []⟩

def empty (name : String) : Circuit R := withSize name 0 0

def size (c : Circuit R) : CircuitSize := ⟨c.name, c.numQubits, c.numClbits⟩

/-- Checks qubits in order: each is in the register and none of `seen` or those before it. -/
def checkQubits (numQubits : UInt32) (gate : Option String) :
    List Qubit → List Qubit → Except (CircuitError R) Unit
  | _, [] => .ok ()
  | seen, q :: rest =>
    if numQubits ≤ q.id then .error (.qubitNotFound q numQubits gate)
    else if q ∈ seen then .error (.duplicateQubit q gate)
    else checkQubits numQubits gate (q :: seen) rest

def checkClbits (numClbits : UInt32) : List Clbit → Except (CircuitError R) Unit
  | [] => .ok ()
  | b :: rest =>
    if numClbits ≤ b.id then .error (.clbitNotFound b numClbits) else checkClbits numClbits rest

/-- A gate has as many operands as it acts on qubits, and a measurement as many qubits as classical
bits. Counts of operands are 32-bit words. -/
def checkCounts (inst : Instruction R) : Except (CircuitError R) Unit :=
  match inst.operation with
  | .gate g =>
    let got := inst.qubits.length.toUInt32
    if g.numQubits = got then .ok () else .error (.operandCount g.name g.numQubits got)
  | .measure =>
    if inst.qubits.length = inst.clbits.length then .ok ()
    else .error (.operandCount "measure" inst.clbits.length.toUInt32 inst.qubits.length.toUInt32)
  | _ => .ok ()

/-- Whether an instruction fits the registers of the circuit. -/
def check (c : Circuit R) (inst : Instruction R) : Except (CircuitError R) Unit := do
  checkCounts inst
  checkQubits c.numQubits (inst.gate?.map Gate.name) [] inst.allQubits
  checkClbits c.numClbits inst.clbits

def checkAll (c : Circuit R) : List (Instruction R) → Except (CircuitError R) Unit
  | [] => .ok ()
  | inst :: rest => do
    c.check inst
    c.checkAll rest

/-- The first problem of the first instruction that does not fit. -/
def validate (c : Circuit R) : Except (CircuitError R) Unit := c.checkAll c.instructions

/-- Binds symbols; a symbol without a value stays. -/
def bindParameters [Scalar R] (c : Circuit R) (bindings : Bindings R) : Circuit R :=
  { c with instructions := c.instructions.map (Instruction.bind bindings) }

end Circuit

/-- Programs that work on a circuit in place. A refusal leaves what was written before it. -/
abbrev Builder (R β : Type) := ExceptT (CircuitError R) (StateM (Circuit R)) β

namespace Builder

variable {R : Type}

/-- A step that writes nothing. -/
def lift {β : Type} (x : Except (CircuitError R) β) : Builder R β := ExceptT.mk (pure x)

/-- Checks an instruction and puts it behind the others. -/
def append (inst : Instruction R) : Builder R Unit := do
  lift ((← get).check inst)
  modify fun c => { c with instructions := c.instructions ++ [inst] }

/-- Adds a qubit and names it. -/
def addQubit : Builder R Qubit := do
  let q : Qubit := ⟨(← get).numQubits⟩
  let n ← lift (CircuitError.ofChecked (nextWord q.id))
  modify fun c => { c with numQubits := n }
  return q

/-- Adds a classical bit and names it. -/
def addClbit : Builder R Clbit := do
  let b : Clbit := ⟨(← get).numClbits⟩
  let n ← lift (CircuitError.ofChecked (nextWord b.id))
  modify fun c => { c with numClbits := n }
  return b

/-- Appends the instructions of a circuit that is not larger than this one. -/
def compose (other : Circuit R) : Builder R Unit := do
  let c ← get
  if c.numQubits < other.numQubits ∨ c.numClbits < other.numClbits then
    throw (.incompatible other.size c.size)
  modify fun c => { c with instructions := c.instructions ++ other.instructions }

end Builder

namespace Circuit

variable {R : Type}

/-- The circuit that a program makes of this one, unless it is refused. -/
def build {β : Type} (c : Circuit R) (program : Builder R β) :
    Except (CircuitError R) (Circuit R) :=
  match program.run.run c with
  | (.ok _, c') => .ok c'
  | (.error e, _) => .error e

def append (c : Circuit R) (inst : Instruction R) : Except (CircuitError R) (Circuit R) :=
  c.build (.append inst)

def compose (c other : Circuit R) : Except (CircuitError R) (Circuit R) :=
  c.build (.compose other)

end Circuit

end QuantumSim
