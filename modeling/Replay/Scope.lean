import Replay.Bindings
import Replay.Error
/-!
The tree of scopes.

Scopes live in numbered slots.  A slot that is given up goes on a stack of free slots and is used
again before a new one is made; its generation changes with every scope it gives up, so a handle to
an earlier occupant is recognised as stale.
-/

namespace Replay

/-- What a scope belongs to.  A loop's scope remembers the token position where its next pass
starts. -/
inductive ScopeKind where
  | global
  | block
  | loop (resume : Nat)
  | doWhile (resume : Nat)
  | forInit
  | procedure
deriving DecidableEq

def ScopeKind.resume? : ScopeKind → Option Nat
  | loop resume | doWhile resume => some resume
  | global | block | forInit | procedure => none

structure Scope where
  parent : Option ScopeId
  children : List ScopeId
  bindings : Bindings
  kind : ScopeKind

def Scope.fresh (parent : Option ScopeId) (kind : ScopeKind) : Scope :=
  ⟨parent, [], Bindings.empty, kind⟩

structure Slot where
  generation : UInt32
  scope : Option Scope

/-- `free` has the slot that was given up last at its head; `live` counts the occupied slots. -/
structure ScopeTree where
  slots : Array Slot
  free : List Nat
  live : Nat

namespace ScopeTree

/-- The global scope. -/
def root : ScopeId := ⟨0, 0⟩

def new : ScopeTree := ⟨#[⟨0, some (Scope.fresh none .global)⟩], [], 1⟩

/-- There are as many slots as a 32-bit index can tell apart. -/
def maxSlots : Nat := 1 <<< 32

def find? (t : ScopeTree) (id : ScopeId) : Option Scope :=
  match t.slots[id.index]? with
  | some slot => if slot.generation = id.generation then slot.scope else none
  | none => none

def contains (t : ScopeTree) (id : ScopeId) : Bool :=
  (t.find? id).isSome

def get (t : ScopeTree) (id : ScopeId) : Except InternalError Scope :=
  match t.find? id with
  | some scope => .ok scope
  | none => .error (.invalidHandle .scope)

def modify (t : ScopeTree) (id : ScopeId) (f : Scope → Scope) : Except InternalError ScopeTree :=
  if t.contains id then
    .ok { t with
      slots := t.slots.modify id.index fun slot => { slot with scope := slot.scope.map f } }
  else .error (.invalidHandle .scope)

/-! ## Making scopes -/

/-- Puts a scope into the slot that was given up last, or into a new one of generation zero. -/
def allocate (t : ScopeTree) (scope : Scope) : Except InternalError (ScopeId × ScopeTree) :=
  match t.free with
  | index :: free =>
    match t.slots[index]? with
    | some slot =>
      let slots := t.slots.setIfInBounds index { slot with scope := some scope }
      .ok (⟨index, slot.generation⟩, ⟨slots, free, t.live + 1⟩)
    | none => .error (.indexOutOfRange .scopeArena index t.slots.size)
  | [] =>
    if t.slots.size < maxSlots then
      .ok (⟨t.slots.size, 0⟩, ⟨t.slots.push ⟨0, some scope⟩, [], t.live + 1⟩)
    else .error (.indexOutOfRange .scopeArena t.slots.size (maxSlots - 1))

def create (t : ScopeTree) (parent : ScopeId) (kind : ScopeKind) :
    Except InternalError (ScopeId × ScopeTree) := do
  let _ ← t.get parent
  let (id, t) ← t.allocate (Scope.fresh (some parent) kind)
  let t ← t.modify parent fun s => { s with children := s.children ++ [id] }
  return (id, t)

/-! ## Giving scopes up -/

/-- Empties a slot.  A handle that is stale already changes nothing. -/
def release (t : ScopeTree) (id : ScopeId) : ScopeTree :=
  if t.contains id then
    { slots := t.slots.modify id.index fun slot => ⟨slot.generation + 1, none⟩
      free := id.index :: t.free
      live := t.live - 1 }
  else t

/-- The scopes of `level`, then their children, then the children of those, down to `depth`
levels. -/
def levels (t : ScopeTree) : Nat → List ScopeId → Except InternalError (List ScopeId)
  | 0, _ => .ok []
  | _ + 1, [] => .ok []
  | depth + 1, level => do
    let scopes ← level.mapM t.get
    let deeper ← t.levels depth (scopes.flatMap Scope.children)
    return level ++ deeper

/-- The scope and everything below it, a parent always before its children.  A branch has no more
levels than there are slots. -/
def subtree (t : ScopeTree) (id : ScopeId) : Except InternalError (List ScopeId) :=
  t.levels t.slots.size [id]

/-- Gives up a scope and everything below it, children first.  The global scope stays. -/
def destroy (t : ScopeTree) (id : ScopeId) : Except InternalError ScopeTree := do
  if id = root then throw (.invalidHandle .globalScope)
  let scope ← t.get id
  let order ← t.subtree id
  let t := order.foldr (fun s t => t.release s) t
  match scope.parent with
  | some parent => t.modify parent fun s => { s with children := s.children.filter (· ≠ id) }
  | none => return t

/-- Gives up all but the global scope, the youngest branch first, and forgets the global names. -/
def teardown (t : ScopeTree) : Except InternalError ScopeTree := do
  let scope ← t.get root
  let t ← scope.children.reverse.foldlM destroy t
  t.modify root fun s => { s with bindings := Bindings.empty }

/-! ## Names -/

/-- `none` if the name is declared in this very scope already. -/
def declare? (t : ScopeTree) (id : ScopeId) (name : String) (value : Option Value) :
    Except InternalError (Option ScopeTree) := do
  let scope ← t.get id
  match scope.bindings.declare? name value with
  | none => return none
  | some bindings => return some (← t.modify id fun s => { s with bindings })

def resolveWithin (t : ScopeTree) (name : String) :
    Nat → ScopeId → Except InternalError (Option ScopeId)
  | 0, _ => .ok none
  | steps + 1, id => do
    let scope ← t.get id
    if scope.bindings.contains name then return some id
    match scope.parent with
    | some parent => t.resolveWithin name steps parent
    | none => return none

/-- The nearest scope around `id` that declares the name.  A chain of parents has no more scopes
than there are slots. -/
def resolve (t : ScopeTree) (id : ScopeId) (name : String) :
    Except InternalError (Option ScopeId) :=
  t.resolveWithin name t.slots.size id

def lookup (t : ScopeTree) (id : ScopeId) (name : String) :
    Except InternalError (Option Binding) := do
  match ← t.resolve id name with
  | some owner => return (← t.get owner).bindings.find? name
  | none => return none

/-- Gives the nearest declared variable of that name a value; `none` if there is no such
variable. -/
def assign? (t : ScopeTree) (id : ScopeId) (name : String) (value : Option Value) :
    Except InternalError (Option ScopeTree) := do
  match ← t.resolve id name with
  | some owner =>
    return some (← t.modify owner fun s => { s with bindings := s.bindings.set name value })
  | none => return none

def setKind (t : ScopeTree) (id : ScopeId) (kind : ScopeKind) : Except InternalError ScopeTree :=
  t.modify id fun s => { s with kind }

/-- Replaces the names of `into` by those of `source`. -/
def copyBindings (t : ScopeTree) (source into : ScopeId) : Except InternalError ScopeTree := do
  let scope ← t.get source
  t.modify into fun s => { s with bindings := scope.bindings }

/-- Gives the names of `into` the values that `source` has for them. -/
def writeBack (t : ScopeTree) (source into : ScopeId) : Except InternalError ScopeTree := do
  let scope ← t.get source
  t.modify into fun s => { s with bindings := s.bindings.updateFrom scope.bindings }

end ScopeTree
end Replay
