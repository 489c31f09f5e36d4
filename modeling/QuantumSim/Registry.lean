import QuantumSim.Backend

/-!
Backend constructors by name, so that a caller need not name the type of a backend.
-/
namespace QuantumSim

structure Registry (β : Type) where
  factories : Dict (BackendConfig → Except BackendError β)

namespace Registry

variable {β γ : Type}

def empty : Registry β := ⟨.empty⟩

/-- Registers a constructor; a later one under the same name replaces it. -/
def register (r : Registry β) (name : String) (factory : BackendConfig → Except BackendError β) :
    Registry β :=
  ⟨r.factories.insert name factory⟩

/-- Builds the backend registered under a name. -/
def create (r : Registry β) (name : String) (config : BackendConfig) : Except BackendError β :=
  match r.factories.get? name with
  | some factory => factory config
  | none => .error (.unavailable ("No backend registered with name '" ++ name ++ "'"))

/-- The registered names, ascending. -/
def available (r : Registry β) : List String := r.factories.keys

def has (r : Registry β) (name : String) : Bool := r.factories.contains name

/-- The same registry with every backend it builds passed on. -/
def map (f : β → γ) (r : Registry β) : Registry γ :=
  ⟨r.factories.map fun factory config => (factory config).map f⟩

end Registry

end QuantumSim
