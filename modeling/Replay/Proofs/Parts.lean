import Replay.Proofs.Lockstep.Rules
/-!
What the rules are made of.

Something that holds of the parts below, and of what is put together from such parts, holds of every
rule.  `Made` says of a computation that it is put together so.  It also says which scopes the parts
may touch: `old` are scopes that values and names may lead to, and `new` are scopes that the
computation has made for itself.

The rules are looked at together with copies of themselves, in which a watch stands where a rule
starts and where the body of a procedure is entered.  This is how to speak of the calls that have
not returned yet, at any moment of a run: the stack of calls grows nowhere but there.
-/

namespace Replay

open Exec

abbrev Watch := Machine → Bool

/-! ## What is kept -/

def Outcome.All {α : Type} (Q : α → Prop) (I : Machine → Prop) : Outcome α → Prop
  | done a m => Q a ∧ I m
  | fault _ m => I m
  | outOfFuel => True

/-- However the computation ends, what held at the start holds at the end. -/
def Exec.Keeps {α : Type} (I : Machine → Prop) (Q : α → Prop) (x : Exec α) : Prop :=
  ∀ m, I m → (x m).All Q I

namespace Outcome.All

variable {α β : Type} {I J : Machine → Prop} {P P' : α → Prop} {Q : β → Prop} {m : Machine}

theorem imp {o : Outcome α} (ho : o.All P I) (h : ∀ a, P a → P' a) : o.All P' I := by
  cases o with
  | done a m => exact ⟨h a ho.1, ho.2⟩
  | fault e m => exact ho
  | outOfFuel => trivial

/-- What is known of the result, with what is known of the state. -/
theorem join {o : Outcome α} (h : o.All P I) (h' : o.All P' J) : o.All P J := by
  cases o with
  | done a m => exact ⟨h.1, h'.2⟩
  | fault e m => exact h'
  | outOfFuel => trivial

theorem bind {x : Exec α} {f : α → Exec β} (hx : (x m).All P I)
    (hf : ∀ a, P a → Exec.Keeps I Q (f a)) :
    ((x >>= f) m).All Q I := by
  cases hrun : x m with
  | done a m₁ =>
    rw [hrun] at hx
    rw [bind_done hrun]
    exact hf a hx.1 m₁ hx.2
  | fault e m₁ =>
    rw [hrun] at hx
    rw [bind_fault hrun]
    exact hx
  | outOfFuel =>
    rw [bind_outOfFuel hrun]
    trivial

/-- What is cleaned up does not depend on how the body ended. -/
theorem ensuring {body : Exec α} {cleanup : Exec Unit} (hbody : (body m).All P I)
    (hcleanup : cleanup.Keeps I fun _ => True) : (Exec.ensuring body cleanup m).All P I := by
  unfold Exec.ensuring
  generalize body m = o at hbody
  cases o with
  | done a m₁ =>
    have hc := hcleanup m₁ hbody.2
    dsimp only
    generalize cleanup m₁ = o' at hc
    cases o' with
    | done u m₂ => exact ⟨hbody.1, hc.2⟩
    | fault e m₂ => exact hc
    | outOfFuel => trivial
  | fault e m₁ =>
    have hc := hcleanup m₁ hbody
    dsimp only
    generalize cleanup m₁ = o' at hc
    cases o' with
    | done u m₂ => exact hc.2
    | fault e m₂ => exact hc
    | outOfFuel => trivial
  | outOfFuel => trivial

end Outcome.All

namespace Exec.Keeps

variable {α β σ : Type} {I : Machine → Prop} {P : α → Prop} {Q : β → Prop}

theorem outOfFuel (P : α → Prop) : Keeps I P outOfFuel := fun _ _ => trivial

theorem pure {a : α} (h : P a) : Keeps I P (pure a) := fun _ hm => ⟨h, hm⟩

theorem imp {P' : α → Prop} {x : Exec α} (hx : Keeps I P x) (h : ∀ a, P a → P' a) : Keeps I P' x :=
  fun m hm => (hx m hm).imp h

theorem bind {x : Exec α} {f : α → Exec β} (hx : Keeps I P x) (hf : ∀ a, P a → Keeps I Q (f a)) :
    Keeps I Q (x >>= f) :=
  fun m hm => (hx m hm).bind hf

theorem loop {body : σ → Exec (Turn σ β)} {J : σ → Prop}
    (h : ∀ s, J s → Keeps I (Turn.All J Q) (body s)) (n : Nat)
    {s : σ} (hs : J s) : Keeps I Q (loop body n s) := by
  induction n generalizing s with
  | zero => exact outOfFuel Q
  | succ n ih =>
    rw [loop_succ]
    refine (h s hs).bind fun turn hturn => ?_
    cases turn with
    | again s' => exact ih hturn
    | stop b => exact .pure hturn

theorem ensuring {body : Exec α} {cleanup : Exec Unit} (hbody : Keeps I P body)
    (hcleanup : Keeps I (fun _ => True) cleanup) : Keeps I P (ensuring body cleanup) :=
  fun m hm => (hbody m hm).ensuring hcleanup

/-- For what is not about the cursor. -/
theorem onCursor (h : ∀ m c, I m → I (m.on c)) (f : Cursor → Except ParseError α × Cursor) :
    Keeps I (fun _ => True) (onCursor f) := by
  intro m hm
  unfold Exec.onCursor
  dsimp only
  split
  · exact ⟨trivial, h m _ hm⟩
  · exact h m _ hm

theorem moveCursor (h : ∀ m c, I m → I (m.on c)) (f : Cursor → Except InternalError Cursor) :
    Keeps I (fun _ => True) (moveCursor f) := by
  intro m hm
  unfold Exec.moveCursor
  split
  · exact ⟨trivial, h m _ hm⟩
  · exact hm

theorem readScopes (f : ScopeTree → Except InternalError α) :
    Keeps I (fun _ => True) (readScopes f) := by
  intro m hm
  unfold Exec.readScopes
  split
  · exact ⟨trivial, hm⟩
  · exact hm

/-- For what is not about calls. -/
theorem pushCall (h : ∀ m calls, I m → I { m with calls }) (call : Call) (location : Location) :
    Keeps I (fun _ => True) (pushCall call location) := by
  intro m hm
  unfold Exec.pushCall
  split
  · exact ⟨trivial, h m _ hm⟩
  · exact hm

theorem popCall (h : ∀ m calls, I m → I { m with calls }) : Keeps I (fun _ => True) popCall := by
  intro m hm
  unfold Exec.popCall
  split
  · exact ⟨trivial, h m _ hm⟩
  · exact hm

end Exec.Keeps

def Exec.Leaves {α : Type} (x : Exec α) (m m' : Machine) : Prop :=
  (∃ a, x m = .done a m') ∨ ∃ e, x m = .fault e m'

theorem Exec.Keeps.leaves {α : Type} {I : Machine → Prop} {Q : α → Prop} {x : Exec α}
    {m m' : Machine} (h : x.Keeps I Q) (hm : I m) (hx : x.Leaves m m') : I m' := by
  have ho := h m hm
  rcases hx with ⟨a, hx⟩ | ⟨e, hx⟩
  · rw [hx] at ho
    exact ho.2
  · rw [hx] at ho
    exact ho

/-! ## Values -/

variable (old new : ScopeId → Prop)

/-- If the value is a procedure it was defined in a scope of this kind. -/
def Value.Within : Value → Prop
  | procedure p => old p.scope
  | _ => True

theorem Value.within_any (v : Value) : v.Within fun _ => True := by
  cases v <;> trivial

def Signal.Within : Signal → Prop
  | returned (some value) _ => value.Within old
  | _ => True

def Pass.Within : Pass → Prop
  | leave signal => signal.Within old
  | _ => True

/-! ## Calls -/

namespace Exec

/-- Calls a procedure with these arguments, from behind them, and watches the entry of its body. -/
def calling (watch : Watch) (procedure : Procedure) (arguments : List Value) (location : Location)
    (body : Exec Signal) : Exec Signal := do
  pushCall ⟨← position, arguments⟩ location
  seek procedure.entry
  watched watch do
    let scope ← createScope procedure.scope .procedure
    ensuring (inScope scope body) (do
      destroyScope scope
      Rules.leaveCall)

def KeepsCalls {α : Type} (x : Exec α) : Prop :=
  ∀ m a m', x m = .done a m' → m'.calls = m.calls

namespace KeepsCalls

variable {α β σ : Type}

theorem pure (a : α) : KeepsCalls (pure a) := by
  intro m b m' h
  cases h
  rfl

theorem fail (e : Error) : KeepsCalls (fail e : Exec α) := by
  intro m a m' h
  cases h

theorem bind {x : Exec α} {f : α → Exec β} (hx : KeepsCalls x) (hf : ∀ a, KeepsCalls (f a)) :
    KeepsCalls (x >>= f) := by
  intro m b m' h
  obtain ⟨a, m₁, h₁, h₂⟩ := of_bind_done h
  rw [hf a m₁ b m' h₂, hx m a m₁ h₁]

theorem onCursor (f : Cursor → Except ParseError α × Cursor) : KeepsCalls (onCursor f) := by
  intro m a m' h
  unfold Exec.onCursor at h
  dsimp only at h
  split at h <;> cases h
  rfl

theorem loop {body : σ → Exec (Turn σ β)} (h : ∀ s, KeepsCalls (body s)) (n : Nat) (s : σ) :
    KeepsCalls (loop body n s) := by
  induction n generalizing s with
  | zero =>
    intro m b m' h
    cases h
  | succ n ih =>
    rw [loop_succ]
    refine (h s).bind fun turn => ?_
    cases turn with
    | again s' => exact ih s'
    | stop b => exact .pure b

end KeepsCalls
end Exec

namespace Rules

def bindArguments (r : Rules) (arguments : List Value) (location : Location) : Exec Unit := do
  let parameters ← r.parameterList
  let expected := parameters.length
  let found := arguments.length
  if expected < found then raise (.tooManyParameters expected found) location
  else if found < expected then raise (.tooFewParameters expected found) location
  else declareAll (parameters.zip arguments)

def bodyWith (r : Rules) (arguments : List Value) (location : Location) : Exec Signal := do
  r.bindArguments arguments location
  r.bracedStatements .execute

/-- A call as in `callRule`, with a watch at the entry of the body. -/
def watchedCall (r : Rules) (watch : Watch) (name : String) (location : Location) (mode : Mode) :
    Exec Value := do
  expect .leftParen
  match mode with
  | .skip =>
    let _ ← r.arguments .skip
    return .noValue
  | .execute =>
    let procedure ← r.enterCall name location
    callValue (← (r.callBody procedure location).watched watch)

variable {r : Rules} {location : Location} {m : Machine} {call : Call}

theorem parameterList_keepsCalls : KeepsCalls r.parameterList := by
  have hexpect : KeepsCalls (expect .leftParen) := by
    refine (KeepsCalls.onCursor _).bind fun l => ?_
    split
    · exact .pure ()
    · exact .fail _
  have hname : KeepsCalls expectIdentifier := by
    refine (KeepsCalls.onCursor _).bind fun l => ?_
    split
    · exact .pure _
    · exact .fail _
  have hturn : ∀ seen, KeepsCalls (listTurn expectIdentifier seen) := fun seen => by
    refine hname.bind fun a => (KeepsCalls.onCursor _).bind fun l => ?_
    split
    · exact .pure _
    · exact .pure _
    · exact .fail _
  have hclosed : KeepsCalls (peekIs .rightParen) := (KeepsCalls.onCursor _).bind fun l => .pure _
  refine hexpect.bind fun _ => hclosed.bind fun closed => ?_
  cases closed with
  | true => exact (KeepsCalls.onCursor _).bind fun _ => .pure _
  | false => exact .loop hturn r.fuel []

/-- The arguments are those of the innermost call. -/
theorem bindParameters_eq (h : m.calls.top = .ok call) :
    r.bindParameters location m = r.bindArguments call.arguments location m := by
  cases hlist : r.parameterList m with
  | done parameters m₁ =>
    have htop : topCall m₁ = .done call m₁ := by
      simp only [topCall, parameterList_keepsCalls _ _ _ hlist, h]
    rw [bindParameters, bind_done hlist, bind_done htop, bindArguments, bind_done hlist]
  | fault e m₁ => rw [bindParameters, bind_fault hlist, bindArguments, bind_fault hlist]
  | outOfFuel => rw [bindParameters, bind_outOfFuel hlist, bindArguments, bind_outOfFuel hlist]

theorem callBody_eq (h : m.calls.top = .ok call) (procedure : Procedure) :
    r.callBody procedure location m =
      (do
        let scope ← createScope procedure.scope .procedure
        ensuring (inScope scope (r.bodyWith call.arguments location)) (do
          destroyScope scope
          leaveCall)) m := by
  cases hcreate : createScope procedure.scope .procedure m with
  | done scope m₁ =>
    have htop : { m₁ with current := scope }.calls.top = .ok call := by
      unfold createScope at hcreate
      split at hcreate <;> cases hcreate
      exact h
    have hbody : inScope scope (do
        r.bindParameters location
        r.bracedStatements .execute) m₁ =
        inScope scope (r.bodyWith call.arguments location) m₁ := by
      unfold inScope bodyWith
      cases hbind : r.bindArguments call.arguments location { m₁ with current := scope } with
      | done u m₂ => rw [bind_done ((bindParameters_eq htop).trans hbind), bind_done hbind]
      | fault e m₂ => rw [bind_fault ((bindParameters_eq htop).trans hbind), bind_fault hbind]
      | outOfFuel =>
        rw [bind_outOfFuel ((bindParameters_eq htop).trans hbind), bind_outOfFuel hbind]
    rw [callBody, bind_done hcreate, bind_done hcreate]
    unfold ensuring
    rw [hbody]
  | fault e m₁ => rw [callBody, bind_fault hcreate, bind_fault hcreate]
  | outOfFuel => rw [callBody, bind_outOfFuel hcreate, bind_outOfFuel hcreate]

/-- After a call has been put on the stack its arguments are known. -/
theorem entering_eq (watch : Watch) (procedure : Procedure) (arguments : List Value)
    (location : Location) (r : Rules) :
    (do
      pushCall ⟨← position, arguments⟩ location
      seek procedure.entry
      (r.callBody procedure location).watched watch) =
      calling watch procedure arguments location (r.bodyWith arguments location) := by
  funext m
  refine (bind_done rfl).trans (Eq.trans ?_ (bind_done rfl).symm)
  cases hpush : pushCall ⟨m.cursor.position, arguments⟩ location m with
  | done u m₁ =>
    have htop : m₁.calls.top = .ok ⟨m.cursor.position, arguments⟩ := by
      unfold pushCall CallStack.push at hpush
      split at hpush
      · rename_i calls hcalls
        cases hpush
        split at hcalls <;> cases hcalls
        simp only [CallStack.top, Array.back?_push]
      · cases hpush
    rw [bind_done hpush, bind_done hpush]
    cases hseek : seek procedure.entry m₁ with
    | done u m₂ =>
      have htop₂ : m₂.calls.top = .ok ⟨m.cursor.position, arguments⟩ := by
        unfold seek moveCursor at hseek
        split at hseek <;> cases hseek
        exact htop
      rw [bind_done hseek, bind_done hseek, Exec.watched, Exec.watched, callBody_eq htop₂]
    | fault e m₂ => rw [bind_fault hseek, bind_fault hseek]
    | outOfFuel => rw [bind_outOfFuel hseek, bind_outOfFuel hseek]
  | fault e m₁ => rw [bind_fault hpush, bind_fault hpush]
  | outOfFuel => rw [bind_outOfFuel hpush, bind_outOfFuel hpush]

theorem watchedCall_execute (r : Rules) (watch : Watch) (name : String) (location : Location) :
    r.watchedCall watch name location .execute = (do
      expect .leftParen
      let (procedure, arguments) ← r.prepareCall name location
      callValue (← calling watch procedure arguments location
        (r.bodyWith arguments location))) := by
  simp only [watchedCall, enterCall, bind_assoc, pure_bind, ← entering_eq]

/-- The rules with `fuel` levels of recursion left, with a watch at the start of every rule and at
the entry of every body. -/
def posted (watch : Watch) : Nat → Rules
  | 0 => Rules.within 0
  | fuel + 1 =>
    { fuel := fuel + 1
      statement := fun mode => ((posted watch fuel).statementRule mode).watched watch
      assignment := fun mode => ((posted watch fuel).assignmentRule mode).watched watch
      conditional := fun mode => ((posted watch fuel).conditionalRule mode).watched watch
      binary := fun least mode => ((posted watch fuel).binaryRule least mode).watched watch
      call := fun name location mode =>
        ((posted watch fuel).watchedCall watch name location mode).watched watch }

theorem posted_quiet (fuel : Nat) : posted (fun _ => false) fuel = within fuel := by
  induction fuel with
  | zero => rfl
  | succ fuel ih =>
    rw [posted, within, ih]
    rfl

theorem posted_fuel (watch : Watch) (fuel : Nat) : (posted watch fuel).fuel = fuel := by
  cases fuel <;> rfl

end Rules

/-! ## Parts -/

/-- Computations, one for every watch, that are made of the same parts.  `Q` is what is known of
their results. -/
inductive Made (r : Watch → Rules) : {α : Type} → (α → Prop) → (Watch → Exec α) → Prop where
  | pure {α : Type} {Q : α → Prop} {a : α} : Q a → Made r Q fun _ => pure a
  | fail {α : Type} {Q : α → Prop} (e : Error) : Made r Q fun _ => fail e
  | imp {α : Type} {P Q : α → Prop} {x : Watch → Exec α} :
    Made r P x → (∀ a, P a → Q a) → Made r Q x
  | bind {α β : Type} {P : α → Prop} {Q : β → Prop} {x : Watch → Exec α} {f : Watch → α → Exec β} :
    Made r P x → (∀ a, P a → Made r Q fun w => f w a) → Made r Q fun w => x w >>= f w
  | loop {σ β : Type} {I : σ → Prop} {Q : β → Prop} {body : Watch → σ → Exec (Turn σ β)}
    {fuel : Watch → Nat}
      {n : Nat} {s : σ} :
    (∀ s, I s → Made r (Turn.All I Q) fun w => body w s) → (∀ w, fuel w = n) → I s →
    Made r Q fun w => loop (body w) (fuel w) s
  | onCursor {α : Type} (f : Cursor → Except ParseError α × Cursor) :
    Made r (fun _ => True) fun _ => onCursor f
  | moveCursor (f : Cursor → Except InternalError Cursor) : Made r (fun _ => True) fun _ =>
    moveCursor f
  | position : Made r (fun _ => True) fun _ => position
  | currentScope : Made r old fun _ => currentScope
  | readScopes {α : Type} (f : ScopeTree → Except InternalError α) : Made r (fun _ => True) fun _ =>
    readScopes f
  | lookup (name : String) :
    Made r (fun found => ∀ b v, found = some b → b.value = some v → v.Within old) fun _ =>
    lookup name
  | declare {value : Option Value} (name : String) (location : Location) :
    (∀ v, value = some v → v.Within old) → Made r (fun _ => True) fun _ =>
    declare name value location
  | store {value : Value} (name : String) (location : Location) :
    value.Within old → Made r (fun _ => True) fun _ => store name value location
  | setKind {scope : ScopeId} (kind : ScopeKind) :
    new scope → Made r (fun _ => True) fun _ => changeScopes fun t => t.setKind scope kind
  | copyBindings {source into : ScopeId} :
    old source → new into → Made r (fun _ => True) fun _ => changeScopes fun t =>
    t.copyBindings source into
  | writeBack {source into : ScopeId} :
    old source → old into → Made r (fun _ => True) fun _ => changeScopes fun t =>
    t.writeBack source into
  | withChild {α : Type} {Q : α → Prop} {parent : ScopeId} {body : Watch → ScopeId → Exec α}
    (kind : ScopeKind) :
    old parent → (∀ scope, new scope → Made r Q fun w => body w scope) →
    Made r Q fun w => withChild parent kind (body w)
  | inScope {α : Type} {Q : α → Prop} {scope : ScopeId} {body : Watch → Exec α} :
    new scope → Made r Q body → Made r Q fun w => inScope scope (body w)
  | write (text : String) : Made r (fun _ => True) fun _ => write text
  | watched {α : Type} {Q : α → Prop} {x : Watch → Exec α} : Made r Q x → Made r Q fun w =>
    (x w).watched w
  | calling {procedure : Procedure} {body : Watch → Exec Signal} (arguments : List Value)
    (location : Location) :
    old procedure.scope → Made r (Signal.Within old) body →
    Made r (Signal.Within old) fun w => calling w procedure arguments location (body w)
  | statement (mode : Mode) : Made r (Signal.Within old) fun w => (r w).statement mode
  | assignment (mode : Mode) : Made r (Value.Within old) fun w => (r w).assignment mode
  | conditional (mode : Mode) : Made r (Value.Within old) fun w => (r w).conditional mode
  | binary (least : Precedence) (mode : Mode) : Made r (Value.Within old) fun w =>
    (r w).binary least mode
  | call (name : String) (location : Location) (mode : Mode) :
    Made r (Value.Within old) fun w => (r w).call name location mode

/-- What is said of computations holds of the rules. -/
structure Rules.Each (r : Watch → Rules) (P : {α : Type} → (α → Prop) → (Watch → Exec α) → Prop) :
    Prop where
  statement : ∀ mode, P (Signal.Within old) fun w => (r w).statement mode
  assignment : ∀ mode, P (Value.Within old) fun w => (r w).assignment mode
  conditional : ∀ mode, P (Value.Within old) fun w => (r w).conditional mode
  binary : ∀ least mode, P (Value.Within old) fun w => (r w).binary least mode
  call : ∀ name location mode, P (Value.Within old) fun w => (r w).call name location mode

end Replay
