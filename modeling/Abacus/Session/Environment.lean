/-!
# Environments

An environment binds names to values or to expressions that wait for names they mention. It is
a list of entries in the order in which each name was first bound: binding a bound name replaces
its entry where it stands, binding a new name appends it, and removing a name drops its entry,
so that a name bound again after its removal comes last. Every name occurs at most once.
-/
namespace Abacus.Session

/-- What a name is bound to. -/
inductive Binding where
  | resolved (value : Float)
  | pending (expression : String)
  deriving Repr, Inhabited

/-- Bindings in the order of first binding. -/
structure Environment where
  entries : List (String × Binding)
  deriving Repr, Inhabited

namespace Environment

/-- No bindings. -/
def empty : Environment := ⟨[]⟩

/-- Replaces the entry of `name`, or appends one. -/
def bindIn (name : String) (b : Binding) : List (String × Binding) → List (String × Binding)
  | [] => [(name, b)]
  | (n, old) :: rest => if n = name then (n, b) :: rest else (n, old) :: bindIn name b rest

/-- Binds a name. -/
def bind (env : Environment) (name : String) (b : Binding) : Environment :=
  ⟨bindIn name b env.entries⟩

/-- Drops the binding of a name. -/
def remove (env : Environment) (name : String) : Environment :=
  ⟨env.entries.filter fun e => e.1 != name⟩

/-- The binding of a name. -/
def get? (env : Environment) (name : String) : Option Binding :=
  (env.entries.find? fun e => e.1 == name).map (·.2)

/-- The value of a name, if it has one. -/
def resolved? (env : Environment) (name : String) : Option Float :=
  match env.get? name with
  | some (.resolved v) => some v
  | _ => none

/-- The waiting assignments with their expressions, in order. -/
def pending (env : Environment) : List (String × String) :=
  env.entries.filterMap fun
    | (n, .pending expression) => some (n, expression)
    | _ => none

/-- The number of bound names. -/
def size (env : Environment) : Nat := env.entries.length

end Environment

end Abacus.Session
