import Replay.Proofs.Tree
import Replay.Rules.Loop
/-!
Running a script by walking over its syntax tree.

There is no cursor here and nothing is skipped: a loop walks over its body again, a branch that is
not taken is not looked at, and the value of a procedure names the place of its definition in the
tree.  Scopes, operators and the limit on the depth of calls are those of the interpreter.

A loop or a recursion may go on for ever, so there is a bound on the turns of every loop and on the
depth of calls; with a bound that is too small there is no result.
-/

namespace Replay

structure World where
  scopes : ScopeTree
  current : ScopeId
  depth : Nat
  maxDepth : Nat
  out : Sink

def World.start (maxDepth : Nat) (out : Sink) : World :=
  ⟨ScopeTree.new, ScopeTree.root, 0, maxDepth, out⟩

abbrev Walk : Type → Type := ExceptT Error (StateT World Option)

namespace Walk

variable {α : Type}

/-! ## Primitives -/

def spent : Walk α := fun _ => none

def raise (cause : RuntimeCause) (location : Location) : Walk α :=
  throw (.runtime ⟨cause, location⟩)

def ofRuntime (result : Except RuntimeCause α) (location : Location) : Walk α :=
  match result with
  | .ok a => pure a
  | .error cause => raise cause location

def ensuring (body : Walk α) (cleanup : Walk Unit) : Walk α := fun w =>
  match body w with
  | some (result, w) =>
    match cleanup w with
    | some (.ok (), w) => some (result, w)
    | some (.error e, w) => some (.error e, w)
    | none => none
  | none => none

def currentScope : Walk ScopeId := fun w => some (.ok w.current, w)

def changeScopes (f : ScopeTree → Except InternalError ScopeTree) : Walk Unit := fun w =>
  match f w.scopes with
  | .ok scopes => some (.ok (), { w with scopes })
  | .error e => some (.error (.internal e), w)

def createScope (parent : ScopeId) : Walk ScopeId := fun w =>
  match w.scopes.create parent .block with
  | .ok (id, scopes) => some (.ok id, { w with scopes })
  | .error e => some (.error (.internal e), w)

def destroyScope (id : ScopeId) : Walk Unit := changeScopes fun t => t.destroy id

def inScope (scope : ScopeId) (body : Walk α) : Walk α := fun w =>
  match body { w with current := scope } with
  | some (result, w') => some (result, { w' with current := w.current })
  | none => none

def withChild (parent : ScopeId) (body : ScopeId → Walk α) : Walk α := do
  let scope ← createScope parent
  ensuring (body scope) (destroyScope scope)

def inChild (body : Walk α) : Walk α := do
  withChild (← currentScope) fun scope => inScope scope body

def declare (name : String) (value : Option Value) (location : Location) : Walk Unit := fun w =>
  match w.scopes.declare? w.current name value with
  | .ok (some scopes) => some (.ok (), { w with scopes })
  | .ok none => some (.error (.runtime ⟨.redefinedIdentifier name, location⟩), w)
  | .error e => some (.error (.internal e), w)

def lookup (name : String) : Walk (Option Binding) := fun w =>
  match w.scopes.lookup w.current name with
  | .ok found => some (.ok found, w)
  | .error e => some (.error (.internal e), w)

def readVariable (name : String) (location : Location) : Walk Value := do
  match ← lookup name with
  | some ⟨_, some value⟩ => return value
  | some ⟨_, none⟩ => raise (.uninitializedIdentifier name) location
  | none => raise (.undefinedIdentifier name) location

def store (name : String) (value : Value) (location : Location) : Walk Unit := fun w =>
  match w.scopes.assign? w.current name (some value) with
  | .ok (some scopes) => some (.ok (), { w with scopes })
  | .ok none => some (.error (.runtime ⟨.undefinedIdentifier name, location⟩), w)
  | .error e => some (.error (.internal e), w)

def enter (location : Location) : Walk Unit := fun w =>
  if w.depth < w.maxDepth then some (.ok (), { w with depth := w.depth + 1 })
  else some (.error (.runtime ⟨.stackOverflow w.maxDepth, location⟩), w)

def leave : Walk Unit := fun w => some (.ok (), { w with depth := w.depth - 1 })

def write (text : String) : Walk Unit := fun w =>
  match w.out.write text with
  | (.ok (), out) => some (.ok (), { w with out })
  | (.error e, out) => some (.error (.output e), { w with out })

end Walk

/-! ## Expressions -/

/-- What calling a procedure does, given its name, its value, the arguments and where it is
called. -/
abbrev Invocation : Type := String → Procedure → List Value → Location → Walk Value

namespace Walk

def assignedValue (name : String) (assignment : Assignment) (value : Value)
    (target operator : Location) :
    Walk Value := do
  match ← lookup name, assignment with
  | none, _ => raise (.undefinedIdentifier name) target
  | some _, .plain => return value
  | some ⟨_, none⟩, .compound _ => raise (.uninitializedIdentifier name) target
  | some ⟨_, some old⟩, .compound op => ofRuntime (op.apply old value) operator

def assign (name : String) (assignment : Assignment) (value : Value) (target operator : Location) :
    Walk Value := do
  let value ← assignedValue name assignment value target operator
  store name value target
  return value

/-- `&&` and `||` have no use for their right operand if the left one decides. -/
def operate (op : BinaryOperator) (left : Value) (right : Walk Value) (location : Location) :
    Walk Value :=
  match op, left with
  | .and, .boolean false => return .boolean false
  | .or, .boolean true => return .boolean true
  | op, left => do
    let right ← right
    ofRuntime (op.apply left right) location

theorem operate_eq (op : BinaryOperator) (left : Value) (right : Walk Value) (location : Location) :
    operate op left right location =
      if op.settledBy left then pure left
      else right >>= fun right => ofRuntime (op.apply left right) location := by
  cases op with
  | and | or =>
    cases left with
    | boolean b => cases b <;> rfl
    | _ => rfl
  | _ => rfl

def resolveProcedure (name : String) (location : Location) : Walk Procedure := do
  match ← lookup name with
  | some ⟨_, some (.procedure p)⟩ => return p
  | some _ => raise (.notAProcedure name) location
  | none => raise (.undefinedIdentifier name) location

end Walk

open Walk

section

variable (invoke : Invocation)

mutual

/-- Operands are evaluated from left to right.  The right operand of `&&` and `||` is left out if
the left one decides, and so is the branch of a conditional that is not chosen. -/
def Expr.eval : Expr Place → Walk Value
  | .literal place l =>
    match l.value? with
    | some value => return value
    | none => raise .stringNotAValue place.location
  | .read place name => readVariable name place.location
  | .unary place op e => do
    let operand ← e.eval
    ofRuntime (op.apply operand) place.location
  | .binary op place a b => do
    let left ← a.eval
    operate op left b.eval place.location
  | .conditional start c a b => do
    let condition ← c.eval
    if ← ofRuntime condition.condition start.location then a.eval else b.eval
  | .assign target name place sign e => do
    let value ← e.eval
    Walk.assign name sign.meaning value target.location place.location
  | .comma a b => do
    let _ ← a.eval
    b.eval
  | .call place name arguments => do
    let procedure ← resolveProcedure name place.location
    let values ← Expr.evalList arguments
    invoke name procedure values place.location

def Expr.evalList : List (Expr Place) → Walk (List Value)
  | [] => return []
  | e :: es => do
    let value ← e.eval
    let values ← Expr.evalList es
    return value :: values

end

/-! ## Statements -/

def Condition.holds (c : Condition Place) : Walk Bool := do
  let value ← c.test.eval invoke
  ofRuntime value.condition c.start.location

def Declarator.run (d : Declarator Place) : Walk Unit := do
  let value ←
    match d.value with
    | some e => some <$> e.eval invoke
    | none => pure none
  Walk.declare d.name value d.place.location

def Declarator.runAll : List (Declarator Place) → Walk Unit
  | [] => return ()
  | d :: ds => do
    d.run invoke
    runAll ds

def Initializer.run : Initializer Place → Walk Unit
  | nothing => return ()
  | declare first rest => Declarator.runAll invoke (first :: rest)
  | expression e => do
    let _ ← e.eval invoke

def Walk.forHolds : Option (Condition Place) → Walk Bool
  | some c => c.holds invoke
  | none => return true

def Walk.forStep : Option (Expr Place) → Walk Unit
  | some e => do
    let _ ← e.eval invoke
  | none => return ()

/-- Passes of a loop until one is the last, and at most as many as given. -/
def Walk.passes (pass : Walk Pass) : Nat → Walk Signal
  | 0 => spent
  | turns + 1 => do
    match ← pass with
    | .again => passes pass turns
    | .exit | .leave (.broke _) => return .normal
    | .leave signal => return signal

def Walk.whilePass (holds : Walk Bool) (body : Walk Signal) : Walk Pass := do
  if ← holds then
    match ← body with
    | .normal | .continued _ => return .again
    | signal => return .leave signal
  else return .exit

/-- A pass whose condition comes last, also after a `continue`. -/
def Walk.doPass (body : Walk Signal) (holds : Walk Bool) : Walk Pass := do
  match ← body with
  | .normal | .continued _ => if ← holds then return .again else return .exit
  | signal => return .leave signal

/-- A pass with an increment behind the body, also after a `continue`. -/
def Walk.forPass (holds : Walk Bool) (step : Walk Unit) (body : Walk Signal) : Walk Pass := do
  match ← whilePass holds body with
  | .again =>
    step
    return .again
  | pass => return pass

/-- A pass in `scope`, with copies of the variables in `init`.  Their values are taken over if there
is another pass. -/
def Walk.copying (init scope : ScopeId) (pass : Walk Pass) : Walk Pass := do
  changeScopes fun t => t.copyBindings init scope
  match ← inScope scope pass with
  | .again =>
    changeScopes fun t => t.writeBack scope init
    return .again
  | pass => return pass

def Walk.onCopies (init : ScopeId) (pass : Walk Pass) : Walk Pass :=
  withChild init fun scope => copying init scope pass

variable (turns : Nat)

mutual

def Stmt.run : Stmt Place → Walk Signal
  | .empty => return .normal
  | .expression e => do
    let _ ← e.eval invoke
    return .normal
  | .eval e => do
    let value ← e.eval invoke
    write (value.text ++ "\n")
    return .normal
  | .declare first rest => do
    Declarator.runAll invoke (first :: rest)
    return .normal
  | .block body => inChild (Stmt.runAll body)
  | .branch c body rest => do
    if ← c.holds invoke then inChild (Stmt.runAll body) else rest.run
  | .whileLoop c body => passes (inChild (whilePass (c.holds invoke) (Stmt.runAll body))) turns
  | .doLoop body c => passes (inChild (doPass (Stmt.runAll body) (c.holds invoke))) turns
  | .forLoop init condition increment body => do
    withChild (← currentScope) fun scope => inScope scope do
      init.run invoke
      let pass := forPass (forHolds invoke condition) (forStep invoke increment) (Stmt.runAll body)
      passes (onCopies scope pass) turns
  | .procedure place name entry _ _ => do
    Walk.declare name (some (.procedure ⟨entry.index, ← currentScope⟩)) place.location
    return .normal
  | .breakLoop place => return .broke place.location
  | .continueLoop place => return .continued place.location
  | .returnValue place none => return .returned none place.location
  | .returnValue place (some e) => do
    let value ← e.eval invoke
    return .returned (some value) place.location

def Stmt.runAll : List (Stmt Place) → Walk Signal
  | [] => return .normal
  | s :: rest => do
    let signal ← s.run
    if signal.isInterrupt then return signal else Stmt.runAll rest

def Branches.run : Branches Place → Walk Signal
  | .done => return .normal
  | .elif c body rest => do
    if ← c.holds invoke then inChild (Stmt.runAll body) else rest.run
  | .otherwise body => inChild (Stmt.runAll body)

end

end

/-! ## Procedures -/

/-- A definition in the tree, named by where its parameters start. -/
structure Definition where
  entry : Nat
  parameters : List (Parameter Place)
  body : List (Stmt Place)

mutual

def Stmt.definitions : Stmt Place → List Definition
  | .block body | .whileLoop _ body | .doLoop body _ | .forLoop _ _ _ body =>
    Stmt.listDefinitions body
  | .branch _ body rest => Stmt.listDefinitions body ++ rest.definitions
  | .procedure _ _ entry parameters body =>
    ⟨entry.index, parameters, body⟩ :: Stmt.listDefinitions body
  | .empty | .expression _ | .eval _ | .declare .. | .breakLoop _ | .continueLoop _
  | .returnValue .. => []

def Stmt.listDefinitions : List (Stmt Place) → List Definition
  | [] => []
  | s :: rest => s.definitions ++ Stmt.listDefinitions rest

def Branches.definitions : Branches Place → List Definition
  | .done => []
  | .elif _ body rest => Stmt.listDefinitions body ++ rest.definitions
  | .otherwise body => Stmt.listDefinitions body

end

def Walk.bindArguments (parameters : List (Parameter Place)) (arguments : List Value)
    (location : Location) : Walk Unit :=
  if parameters.length < arguments.length then
    raise (.tooManyParameters parameters.length arguments.length) location
  else if arguments.length < parameters.length then
    raise (.tooFewParameters parameters.length arguments.length) location
  else (parameters.zip arguments).forM fun (x, value) =>
  Walk.declare x.name (some value) x.place.location

def Walk.callValue (signal : Signal) : Walk Value :=
  match signal with
  | .normal | .returned none _ => return .noValue
  | .returned (some value) _ => return value
  | .broke location => raise (.invalidContext .kwBreak) location
  | .continued location => raise (.invalidContext .kwContinue) location

/-- Runs the body of a definition in a child of the scope in which the procedure was defined.  Then
the call is over. -/
def Definition.runBody (d : Definition) (run : List (Stmt Place) → Walk Signal) (scope : ScopeId)
    (arguments : List Value) (location : Location) : Walk Signal := do
  let scope ← createScope scope
  let body := inScope scope do
    bindArguments d.parameters arguments location
    run d.body
  ensuring body do
    destroyScope scope
    leave

def Definition.call (d : Definition) (run : List (Stmt Place) → Walk Signal) (scope : ScopeId)
    (arguments : List Value) (location : Location) : Walk Value := do
  enter location
  let signal ← d.runBody run scope arguments location
  callValue signal

/-- Calls of the procedures defined in a script, with the given number of turns for every loop and
of calls inside one another. -/
def invocation (definitions : List Definition) : Nat → Invocation
  | 0 => fun _ _ _ _ => spent
  | fuel + 1 => fun name procedure arguments location => fun w =>
    if w.scopes.contains procedure.scope then
      match definitions.find? fun d => d.entry == procedure.entry with
      | some d =>
        d.call (Stmt.runAll (invocation definitions fuel) fuel) procedure.scope arguments location w
      | none => raise (.notAProcedure name) location w
    else raise (.procedureOutOfScope name) location w

def Walk.outermost (signal : Signal) : Walk Unit :=
  match signal.contextError with
  | some error => throw (.runtime error)
  | none => return ()

def runScript (fuel : Nat) (script : List (Stmt Place)) : Walk Unit :=
  script.forM fun s => do
    let signal ← s.run (invocation (Stmt.listDefinitions script) fuel) fuel
    outermost signal

end Replay
