import Replay.Proofs.Lockstep
import Replay.Proofs.Session
/-!
Skipping goes in step.

Every rule that skips is made of looking at tokens and of other rules that skip, so it does the same
from corresponding states.  Along the way it is seen what skipping gives: a statement that is
skipped always ends normally, and a condition that is skipped never holds.
-/

namespace Replay

def Turn.All {σ β : Type} (I : σ → Prop) (Q : β → Prop) : Turn σ β → Prop
  | again s => I s
  | stop b => Q b

namespace Link.Tied

variable {L : Link} {α β σ : Type} {Q : α → Prop} {R : β → Prop} {x y : Exec α}

theorem loop {body body' : σ → Exec (Turn σ β)} {I : σ → Prop}
    (h : ∀ s, I s → L.Tied 0 (Turn.All I R) (body s) (body' s)) {n n' : Nat} (hn : n ≤ n') {s : σ}
    (hs : I s) : L.Tied 0 R (Exec.loop body n s) (Exec.loop body' n' s) := by
  induction n generalizing n' s with
  | zero => exact .outOfFuel
  | succ n ih =>
    cases n' with
    | zero => exact absurd hn (Nat.not_succ_le_zero n)
    | succ n' =>
      rw [Exec.loop_succ, Exec.loop_succ]
      refine (h s hs).bind fun turn hturn => ?_
      cases turn with
      | again s' => exact ih (Nat.le_of_succ_le_succ hn) hturn
      | stop b => exact .pure hturn

theorem listTurn (h : L.Tied 0 Q x y) (seen : List α) :
    L.Tied 0 (Turn.All (fun _ => True) fun _ => True) (Exec.listTurn x seen)
      (Exec.listTurn y seen) := by
  refine h.bind fun a _ => next.bind fun l _ => ?_
  split
  · exact .pure trivial
  · exact .pure trivial
  · exact .expectedToken _ _

theorem closedList (h : L.Tied 0 Q x y) {n n' : Nat} (hn : n ≤ n') :
    L.Tied 0 (fun _ => True) (Exec.closedList n x) (Exec.closedList n' y) := by
  refine (peekIs _).bind fun closed _ => ?_
  cases closed with
  | true => exact next.bind fun _ _ => .pure trivial
  | false => exact loop (fun seen _ => h.listTurn seen) hn trivial

end Link.Tied

/-- The rules of `r` that skip go in step with those of `r'`. -/
structure Rules.InStep (L : Link) (r r' : Rules) : Prop where
  fuel : r.fuel ≤ r'.fuel
  statement : L.Tied 0 (· = .normal) (r.statement .skip) (r'.statement .skip)
  assignment : L.Tied 0 (fun _ => True) (r.assignment .skip) (r'.assignment .skip)
  conditional : L.Tied 0 (fun _ => True) (r.conditional .skip) (r'.conditional .skip)
  binary : ∀ least, L.Tied 0 (fun _ => True) (r.binary least .skip) (r'.binary least .skip)
  call : ∀ name location,
    L.Tied 0 (fun _ => True) (r.call name location .skip) (r'.call name location .skip)

namespace Rules.InStep

open Link Link.Tied

variable {L : Link} {r r' : Rules}

/-! ## Expressions -/

theorem commaTurn (h : r.InStep L r') (value : Value) :
    L.Tied 0 (Turn.All (fun _ => True) fun _ => True) (r.commaTurn .skip value)
      (r'.commaTurn .skip value) := by
  refine (peekIs _).bind fun comma _ => ?_
  cases comma with
  | true =>
    refine next.bind fun _ _ => ?_
    exact h.assignment.bind fun _ _ => .pure trivial
  | false => exact .pure trivial

theorem expression (h : r.InStep L r') :
    L.Tied 0 (fun _ => True) (r.expression .skip) (r'.expression .skip) :=
  h.assignment.bind fun _ _ => loop (fun value _ => h.commaTurn value) h.fuel trivial

theorem assignmentRule (h : r.InStep L r') :
    L.Tied 0 (fun _ => True) (r.assignmentRule .skip) (r'.assignmentRule .skip) := by
  refine next_bind fun target => ?_
  split
  · refine next_bind fun operator => ?_
    split
    · exact (h.assignment.bind fun _ _ => .pure trivial).anywhere
    · exact rollback_bind (rollback_bind h.conditional)
  · exact rollback_bind h.conditional

theorem conditionalRule (h : r.InStep L r') :
    L.Tied 0 (fun _ => True) (r.conditionalRule .skip) (r'.conditionalRule .skip) := by
  refine peek.bind fun start _ => (h.binary _).bind fun condition _ =>
    (peekIs _).bind fun question _ => ?_
  cases question with
  | true =>
    refine next.bind fun _ _ => ?_
    refine h.assignment.bind fun first _ => (expect _).bind fun _ _ => ?_
    exact h.conditional.bind fun second _ => .pure trivial
  | false => exact .pure trivial

theorem arguments (h : r.InStep L r') :
    L.Tied 0 (fun _ => True) (r.arguments .skip) (r'.arguments .skip) :=
  h.assignment.closedList h.fuel

theorem callRule (h : r.InStep L r') (name : String) (location : Location) :
    L.Tied 0 (fun _ => True) (r.callRule name location .skip)
      (r'.callRule name location .skip) := by
  refine (expect _).bind fun _ _ => ?_
  exact h.arguments.bind fun _ _ => .pure trivial

theorem atom (h : r.InStep L r') : L.Tied 0 (fun _ => True) (r.atom .skip) (r'.atom .skip) := by
  refine next.bind fun l _ => ?_
  split
  · exact .pure trivial
  · exact .pure trivial
  · exact .pure trivial
  · exact .pure trivial
  · exact .pure trivial
  · exact .pure trivial
  · refine (peekIs _).bind fun paren _ => ?_
    cases paren with
    | true => exact h.call _ _
    | false => exact .pure trivial
  · exact h.expression.bind fun _ _ => (expect _).bind fun _ _ => .pure trivial
  · exact .failParse _ _
  · exact .failParse _ _

theorem prefixes (h : r.InStep L r') :
    L.Tied 0 (fun _ => True) (Exec.loop prefixTurn r.fuel [])
      (Exec.loop prefixTurn r'.fuel []) := by
  refine loop (I := fun _ => True) (fun ops _ => ?_) h.fuel trivial
  refine peek.bind fun ahead _ => ?_
  split
  · exact next.bind fun _ _ => .pure trivial
  · exact .pure trivial

theorem unary (h : r.InStep L r') : L.Tied 0 (fun _ => True) (r.unary .skip) (r'.unary .skip) := by
  refine h.prefixes.bind fun ops _ => h.atom.bind fun operand _ => ?_
  cases ops with
  | nil => exact .pure trivial
  | cons op ops => exact .pure trivial

theorem rightOperand (h : r.InStep L r') (op : BinaryOperator) :
    L.Tied 0 (fun _ => True) (r.rightOperand op .skip) (r'.rightOperand op .skip) := by
  unfold Rules.rightOperand
  cases op.precedence.tighter with
  | some level => exact h.binary level
  | none => exact h.unary

theorem binaryTurn (h : r.InStep L r') (least : Precedence) (left : Value) :
    L.Tied 0 (Turn.All (fun _ => True) fun _ => True) (r.binaryTurn least .skip left)
      (r'.binaryTurn least .skip left) := by
  refine peek.bind fun ahead _ => ?_
  split
  · exact .pure trivial
  · split
    · exact .pure trivial
    · refine next.bind fun _ _ => ?_
      exact (h.rightOperand _).bind fun _ _ => .pure trivial

theorem binaryRule (h : r.InStep L r') (least : Precedence) :
    L.Tied 0 (fun _ => True) (r.binaryRule least .skip) (r'.binaryRule least .skip) :=
  h.unary.bind fun _ _ => loop (fun left _ => h.binaryTurn least left) h.fuel trivial

/-! ## Parts of statements -/

theorem parenthesized (h : r.InStep L r') :
    L.Tied 0 (· = false) (r.parenthesized .skip) (r'.parenthesized .skip) := by
  refine (expect _).bind fun _ _ => peek.bind fun start _ => ?_
  exact h.expression.bind fun value _ => (expect _).bind fun _ _ => .pure rfl

theorem initialValue (h : r.InStep L r') :
    L.Tied 0 (fun _ => True) (r.initialValue .skip) (r'.initialValue .skip) := by
  refine (peekIs _).bind fun equals _ => ?_
  cases equals with
  | true => exact next.bind fun _ _ => h.assignment.bind fun _ _ => .pure trivial
  | false => exact .pure trivial

theorem declarationTurn (h : r.InStep L r') :
    L.Tied 0 (Turn.All (fun _ => True) fun _ => True) (r.declarationTurn .skip ())
      (r'.declarationTurn .skip ()) := by
  refine expectIdentifier.bind fun (name, location) _ => h.initialValue.bind fun value _ => ?_
  refine (peekIs _).bind fun comma _ => ?_
  cases comma with
  | true => exact next.bind fun _ _ => .pure trivial
  | false => exact .pure trivial

theorem declaration (h : r.InStep L r') :
    L.Tied 0 (fun _ => True) (r.declaration .skip) (r'.declaration .skip) :=
  loop (fun _ _ => h.declarationTurn) h.fuel trivial

theorem parameterList (h : r.InStep L r') :
    L.Tied 0 (fun _ => True) r.parameterList r'.parameterList :=
  (expect _).bind fun _ _ => expectIdentifier.closedList h.fuel

theorem statementTurn (h : r.InStep L r') :
    L.Tied 0 (Turn.All (fun _ => True) (· = .normal)) (r.statementTurn .skip ())
      (r'.statementTurn .skip ()) := by
  refine peek.bind fun ahead _ => ?_
  split
  · exact next.bind fun _ _ => .pure rfl
  · exact .expectedToken _ _
  · refine h.statement.bind fun signal hsignal => ?_
    rw [hsignal]
    exact .pure trivial

theorem bracedStatements (h : r.InStep L r') :
    L.Tied 0 (· = .normal) (r.bracedStatements .skip) (r'.bracedStatements .skip) :=
  (expect _).bind fun _ _ => loop (fun _ _ => h.statementTurn) h.fuel trivial

theorem block (h : r.InStep L r') : L.Tied 0 (· = .normal) (r.block .skip) (r'.block .skip) :=
  h.bracedStatements

/-! ## Loops -/

theorem skipWhile (h : r.InStep L r') : L.Tied 0 (fun _ => True) r.skipWhile r'.skipWhile := by
  refine h.parenthesized.bind fun _ _ => ?_
  exact h.bracedStatements.bind fun _ _ => .pure trivial

theorem whileLoop (h : r.InStep L r') :
    L.Tied 0 (· = .normal) (r.whileLoop .skip) (r'.whileLoop .skip) :=
  position_bind fun _ => h.skipWhile.bind fun _ _ => .pure rfl

theorem doCondition (h : r.InStep L r') :
    L.Tied 0 (fun _ => True) (r.doCondition .skip) (r'.doCondition .skip) := by
  refine (expectKeyword _).bind fun _ _ => ?_
  exact h.parenthesized.bind fun _ _ => (expect _).bind fun _ _ => .pure trivial

theorem skipDo (h : r.InStep L r') : L.Tied 0 (fun _ => True) r.skipDo r'.skipDo := by
  refine h.bracedStatements.bind fun _ _ => ?_
  exact h.doCondition.bind fun _ _ => .pure trivial

theorem doLoop (h : r.InStep L r') : L.Tied 0 (· = .normal) (r.doLoop .skip) (r'.doLoop .skip) :=
  position_bind fun _ => h.skipDo.bind fun _ _ => .pure rfl

theorem forInitializer (h : r.InStep L r') :
    L.Tied 0 (fun _ => True) (r.forInitializer .skip) (r'.forInitializer .skip) := by
  refine peek.bind fun ahead _ => ?_
  split
  · refine next.bind fun _ _ => ?_
    exact h.declaration.bind fun _ _ => expect _
  · exact expect _
  · exact h.expression.bind fun _ _ => expect _

theorem forCondition (h : r.InStep L r') :
    L.Tied 0 (fun _ => True) (r.forCondition .skip) (r'.forCondition .skip) := by
  refine peek.bind fun start _ => ?_
  split
  · exact (expect _).bind fun _ _ => .pure trivial
  · refine h.expression.bind fun _ _ => ?_
    exact (expect _).bind fun _ _ => .pure trivial

theorem forIncrement (h : r.InStep L r') :
    L.Tied 0 (fun _ => True) (r.forIncrement .skip) (r'.forIncrement .skip) := by
  refine (peekIs _).bind fun closed _ => ?_
  cases closed with
  | true => exact expect _
  | false => exact h.expression.bind fun _ _ => expect _

theorem skipForRest (h : r.InStep L r') :
    L.Tied 0 (fun _ => True) r.skipForRest r'.skipForRest := by
  refine h.forCondition.bind fun _ _ => h.forIncrement.bind fun _ _ => ?_
  exact h.bracedStatements.bind fun _ _ => .pure trivial

theorem forLoop (h : r.InStep L r') :
    L.Tied 0 (· = .normal) (r.forLoop .skip) (r'.forLoop .skip) := by
  refine (expect _).bind fun _ _ => h.forInitializer.bind fun _ _ => ?_
  exact h.skipForRest.bind fun _ _ => .pure rfl

/-! ## Statements -/

theorem ifRest (h : r.InStep L r') :
    L.Tied 0 (Turn.All (· = .skip) (· = .normal)) (r.ifRest .skip) (r'.ifRest .skip) := by
  refine next_bind fun l => ?_
  split
  · exact .pure rfl
  · exact (h.block.bind fun _ hs => .pure hs).anywhere
  · exact rollback_bind (.pure rfl)

/-- As no condition holds, all branches are skipped. -/
theorem ifTurn (h : r.InStep L r') :
    L.Tied 0 (Turn.All (· = .skip) (· = .normal)) (r.ifTurn .skip) (r'.ifTurn .skip) := by
  refine h.parenthesized.bind fun taken htaken => ?_
  subst htaken
  refine h.block.bind fun signal hsignal => ?_
  subst hsignal
  exact h.ifRest

theorem ifChain (h : r.InStep L r') :
    L.Tied 0 (· = .normal) (r.ifChain .skip) (r'.ifChain .skip) := by
  refine loop (I := (· = .skip)) (fun pending hpending => ?_) h.fuel rfl
  subst hpending
  exact h.ifTurn

theorem procedureDefinition (h : r.InStep L r') :
    L.Tied 0 (· = .normal) (r.procedureDefinition .skip) (r'.procedureDefinition .skip) := by
  refine expectIdentifier.bind fun (name, location) _ => position_bind fun _ => ?_
  refine h.parameterList.bind fun _ _ => ?_
  exact h.bracedStatements.bind fun _ _ => .pure rfl

theorem returnStatement (h : r.InStep L r') (location : Location) :
    L.Tied 0 (· = .normal) (r.returnStatement .skip location)
      (r'.returnStatement .skip location) := by
  refine (peekIs _).bind fun semicolon _ => ?_
  cases semicolon with
  | true => exact next.bind fun _ _ => .pure rfl
  | false => exact h.expression.bind fun _ _ => (expect _).bind fun _ _ => .pure rfl

theorem evalStatement (h : r.InStep L r') :
    L.Tied 0 (· = .normal) (r.evalStatement .skip) (r'.evalStatement .skip) :=
  h.expression.bind fun _ _ => (expect _).bind fun _ _ => .pure rfl

theorem expressionStatement (h : r.InStep L r') :
    L.Tied 0 (· = .normal) (r.expressionStatement .skip) (r'.expressionStatement .skip) :=
  h.expression.bind fun _ _ => (expect _).bind fun _ _ => .pure rfl

theorem statementRule (h : r.InStep L r') :
    L.Tied 0 (· = .normal) (r.statementRule .skip) (r'.statementRule .skip) := by
  refine next_bind fun l => ?_
  split
  · exact rollback_bind h.block
  · exact h.ifChain.anywhere
  · exact h.whileLoop.anywhere
  · exact h.doLoop.anywhere
  · exact h.forLoop.anywhere
  · exact h.procedureDefinition.anywhere
  · refine anywhere ?_
    exact h.declaration.bind fun _ _ => (expect _).bind fun _ _ => .pure rfl
  · exact h.evalStatement.anywhere
  · exact (expect _).bind fun _ _ => .pure rfl
  · exact (expect _).bind fun _ _ => .pure rfl
  · exact (h.returnStatement _).anywhere
  · exact .pure rfl
  · exact .failParse _ _
  · exact rollback_bind h.expressionStatement

end Rules.InStep

/-! ## All rules -/

theorem Link.Tied.watched {L : Link} {α : Type} {k : Nat} {Q : α → Prop} {x y : Exec α}
    {watch : Machine → Bool} (hnear : ∀ {m n}, L.near m n → watch m = false)
    (hlost : ∀ {m}, L.lost m → watch m = false) (h : L.Tied k Q x y) :
    L.Tied k Q (x.watched watch) y where
  done hn hk hx := h.done hn hk (by rwa [Exec.watched_run (hnear hn)] at hx)
  fault hn hk hx := h.fault hn hk (by rwa [Exec.watched_run (hnear hn)] at hx)
  lost_done hl hk hx := h.lost_done hl hk (by rwa [Exec.watched_run (hlost hl)] at hx)
  lost_fault hl hk hx := h.lost_fault hl hk (by rwa [Exec.watched_run (hlost hl)] at hx)

/-- All rules go in step, also with rules that have more fuel, and also if they are watched for
states in which they do not start. -/
theorem Rules.watched_inStep {L : Link} {watch : Machine → Bool}
    (hnear : ∀ {m n}, L.near m n → watch m = false) (hlost : ∀ {m}, L.lost m → watch m = false)
    {n k : Nat} (hn : n ≤ k) : (Rules.watched watch n).InStep L (Rules.within k) := by
  induction n generalizing k with
  | zero =>
    exact ⟨Nat.zero_le _, .outOfFuel, .outOfFuel, .outOfFuel, fun _ => .outOfFuel,
      fun _ _ => .outOfFuel⟩
  | succ n ih =>
    cases k with
    | zero => exact absurd hn (Nat.not_succ_le_zero n)
    | succ k =>
      have h := ih (Nat.le_of_succ_le_succ hn)
      exact ⟨hn, .watched hnear hlost h.statementRule, .watched hnear hlost h.assignmentRule,
        .watched hnear hlost h.conditionalRule,
        fun least => .watched hnear hlost (h.binaryRule least),
        fun name location => .watched hnear hlost (h.callRule name location)⟩

theorem Rules.within_inStep (L : Link) {n k : Nat} (hn : n ≤ k) :
    (Rules.within n).InStep L (Rules.within k) :=
  Rules.watched_nothing n ▸ watched_inStep (fun _ => rfl) (fun _ => rfl) hn

end Replay
