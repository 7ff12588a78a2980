import Replay.Value
/-!
The names declared in one scope, in the order of their declarations.
-/

namespace Replay

/-- A name without a value has been declared and not been initialized. -/
structure Binding where
  name : String
  value : Option Value
deriving BEq

structure Bindings where
  toList : List Binding
deriving BEq

namespace Bindings

def empty : Bindings := ⟨[]⟩

def size (b : Bindings) : Nat := b.toList.length

def names (b : Bindings) : List String := b.toList.map Binding.name

def find? (b : Bindings) (name : String) : Option Binding :=
  b.toList.find? fun x => x.name == name

def contains (b : Bindings) (name : String) : Bool :=
  (b.find? name).isSome

/-- Adds a name, unless it is there already. -/
def declare? (b : Bindings) (name : String) (value : Option Value) : Option Bindings :=
  if b.contains name then none else some ⟨b.toList ++ [⟨name, value⟩]⟩

/-- Gives a name another value.  Undeclared names stay undeclared. -/
def set (b : Bindings) (name : String) (value : Option Value) : Bindings :=
  ⟨b.toList.map fun x => if x.name == name then ⟨x.name, value⟩ else x⟩

/-- Takes over the values that `source` has for the names declared here. -/
def updateFrom (b source : Bindings) : Bindings :=
  ⟨b.toList.map fun x =>
    match source.find? x.name with
    | some newer => ⟨x.name, newer.value⟩
    | none => x⟩

end Bindings
end Replay
