import Replay.CallStack
import Replay.Cursor
import Replay.Operator.Apply
import Replay.Scope
import Replay.Sink
/-!
The state of a running script, and computations on it.

A computation ends in one of three ways: it is done, it failed with an error, or the bound on its
recursion was too small to tell.  An error does not undo anything: the state it leaves behind is the
state in which it happened, and the script's host may go on from there.
-/

namespace Replay

structure Machine where
  cursor : Cursor
  scopes : ScopeTree
  calls : CallStack
  current : ScopeId
  out : Sink

def Machine.start (source : String) (maxDepth : Nat) (out : Sink) : Machine :=
  ⟨Cursor.ofSource source, ScopeTree.new, CallStack.new maxDepth, ScopeTree.root, out⟩

inductive Outcome (α : Type) where
  | done (value : α) (after : Machine)
  | fault (error : Error) (after : Machine)
  | outOfFuel

def Exec (α : Type) : Type := Machine → Outcome α

namespace Exec

variable {α β : Type}

@[always_inline, inline]
protected def pure (a : α) : Exec α := fun m => .done a m

@[always_inline, inline]
protected def bind (x : Exec α) (f : α → Exec β) : Exec β := fun m =>
  match x m with
  | .done a m => f a m
  | .fault e m => .fault e m
  | .outOfFuel => .outOfFuel

instance : Monad Exec where
  pure := Exec.pure
  bind := Exec.bind

def outOfFuel : Exec α := fun _ => .outOfFuel

def fail (e : Error) : Exec α := fun m => .fault e m

def failParse (cause : ParseCause) (location : Location) : Exec α :=
  fail (.parse ⟨cause, location⟩)

def raise (cause : RuntimeCause) (location : Location) : Exec α :=
  fail (.runtime ⟨cause, location⟩)

/-- The result of an operation on values, with the place to blame if it fails. -/
def ofRuntime (result : Except RuntimeCause α) (location : Location) : Exec α :=
  match result with
  | .ok a => pure a
  | .error cause => raise cause location

/-- Does `body`, then `cleanup` whether or not `body` failed. -/
def ensuring (body : Exec α) (cleanup : Exec Unit) : Exec α := fun m =>
  match body m with
  | .done a m =>
    match cleanup m with
    | .done () m => .done a m
    | .fault e m => .fault e m
    | .outOfFuel => .outOfFuel
  | .fault e m =>
    match cleanup m with
    | .done () m => .fault e m
    | .fault e m => .fault e m
    | .outOfFuel => .outOfFuel
  | .outOfFuel => .outOfFuel

/-! ## Tokens -/

def onCursor (f : Cursor → Except ParseError α × Cursor) : Exec α :=
  fun ⟨cursor, scopes, calls, current, out⟩ =>
    match f cursor with
    | (.ok a, cursor) => .done a ⟨cursor, scopes, calls, current, out⟩
    | (.error e, cursor) => .fault (.parse e) ⟨cursor, scopes, calls, current, out⟩

def next : Exec Lexeme := onCursor Cursor.next

def peek : Exec Lexeme := onCursor Cursor.peek

def position : Exec Nat := fun m => .done m.cursor.position m

def moveCursor (f : Cursor → Except InternalError Cursor) : Exec Unit := fun m =>
  match f m.cursor with
  | .ok cursor => .done () { m with cursor }
  | .error e => .fault (.internal e) m

def rollback : Exec Unit := moveCursor Cursor.rollback

def seek (position : Nat) : Exec Unit := moveCursor fun c => c.seek position

/-! ## Scopes -/

def currentScope : Exec ScopeId := fun m => .done m.current m

def readScopes (f : ScopeTree → Except InternalError α) : Exec α := fun m =>
  match f m.scopes with
  | .ok a => .done a m
  | .error e => .fault (.internal e) m

def changeScopes (f : ScopeTree → Except InternalError ScopeTree) : Exec Unit := fun m =>
  match f m.scopes with
  | .ok scopes => .done () { m with scopes }
  | .error e => .fault (.internal e) m

def createScope (parent : ScopeId) (kind : ScopeKind) : Exec ScopeId := fun m =>
  match m.scopes.create parent kind with
  | .ok (id, scopes) => .done id { m with scopes }
  | .error e => .fault (.internal e) m

def destroyScope (id : ScopeId) : Exec Unit := changeScopes fun t => t.destroy id

/-- Runs `body` with `scope` as the current scope and makes the enclosing one current again,
whatever comes of it. -/
def inScope (scope : ScopeId) (body : Exec α) : Exec α := fun m =>
  let enclosing := m.current
  match body { m with current := scope } with
  | .done a m => .done a { m with current := enclosing }
  | .fault e m => .fault e { m with current := enclosing }
  | .outOfFuel => .outOfFuel

/-- Makes a scope for the time that `body` takes. -/
def withChild (parent : ScopeId) (kind : ScopeKind) (body : ScopeId → Exec α) : Exec α := do
  let scope ← createScope parent kind
  ensuring (body scope) (destroyScope scope)

/-- Declares a name in the current scope. -/
def declare (name : String) (value : Option Value) (location : Location) : Exec Unit := fun m =>
  match m.scopes.declare? m.current name value with
  | .ok (some scopes) => .done () { m with scopes }
  | .ok none => .fault (.runtime ⟨.redefinedIdentifier name, location⟩) m
  | .error e => .fault (.internal e) m

def lookup (name : String) : Exec (Option Binding) := fun m =>
  match m.scopes.lookup m.current name with
  | .ok found => .done found m
  | .error e => .fault (.internal e) m

def readVariable (name : String) (location : Location) : Exec Value := do
  match ← lookup name with
  | some ⟨_, some value⟩ => return value
  | some ⟨_, none⟩ => raise (.uninitializedIdentifier name) location
  | none => raise (.undefinedIdentifier name) location

/-- Stores a value in the nearest variable of that name. -/
def store (name : String) (value : Value) (location : Location) : Exec Unit := fun m =>
  match m.scopes.assign? m.current name (some value) with
  | .ok (some scopes) => .done () { m with scopes }
  | .ok none => .fault (.runtime ⟨.undefinedIdentifier name, location⟩) m
  | .error e => .fault (.internal e) m

/-! ## Calls and output -/

def pushCall (call : Call) (location : Location) : Exec Unit := fun m =>
  match m.calls.push call with
  | .ok calls => .done () { m with calls }
  | .error cause => .fault (.runtime ⟨cause, location⟩) m

def popCall : Exec Call := fun m =>
  match m.calls.pop with
  | .ok (call, calls) => .done call { m with calls }
  | .error e => .fault (.internal e) m

def topCall : Exec Call := fun m =>
  match m.calls.top with
  | .ok call => .done call m
  | .error e => .fault (.internal e) m

def write (text : String) : Exec Unit :=
  fun ⟨cursor, scopes, calls, current, out⟩ =>
    match out.write text with
    | (.ok (), out) => .done () ⟨cursor, scopes, calls, current, out⟩
    | (.error e, out) => .fault (.output e) ⟨cursor, scopes, calls, current, out⟩

end Exec
end Replay
