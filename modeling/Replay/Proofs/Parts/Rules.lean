import Replay.Proofs.Contract.Expression
import Replay.Proofs.Parts
/-!
The rules, part by part.
-/

namespace Replay

open Exec

variable {old new : ScopeId → Prop} {r : Watch → Rules} {n : Nat}

theorem Value.within_of_kind {v : Value} (h : v.kind ≠ .procedure) : v.Within old := by
  cases v with
  | procedure p => exact absurd rfl h
  | _ => trivial

namespace Made

/-! ## Tokens -/

variable {α : Type} {P : α → Prop}

theorem peek : Made old new r (fun _ => True) fun _ => peek := .onCursor _

theorem next : Made old new r (fun _ => True) fun _ => next := .onCursor _

theorem rollback : Made old new r (fun _ => True) fun _ => rollback := .moveCursor _

theorem seek (p : Nat) : Made old new r (fun _ => True) fun _ => seek p := .moveCursor _

theorem peekIs (p : Punct) : Made old new r (fun _ => True) fun _ => peekIs p :=
  .bind peek fun _ _ => .pure trivial

theorem expect (p : Punct) : Made old new r (fun _ => True) fun _ => expect p := by
  refine .bind next fun l _ => ?_
  split
  · exact .pure trivial
  · exact .fail _

theorem expectKeyword (k : Keyword) : Made old new r (fun _ => True) fun _ => expectKeyword k := by
  refine .bind next fun l _ => ?_
  split
  · exact .pure trivial
  · exact .fail _

theorem expectIdentifier : Made old new r (fun _ => True) fun _ => expectIdentifier := by
  refine .bind next fun l _ => ?_
  split
  · exact .pure trivial
  · exact .fail _

theorem ofRuntime {result : Except RuntimeCause α} (location : Location)
    (h : ∀ a, result = .ok a → P a) :
    Made old new r P fun _ => ofRuntime result location := by
  cases result with
  | ok a => exact .pure (h a rfl)
  | error cause => exact .fail _

/-- A list of things of one kind. -/
theorem closedList {x : Watch → Exec α} {fuel : Watch → Nat} (h : Made old new r P x)
    (hn : ∀ w, fuel w = n) :
    Made old new r (fun values => ∀ a ∈ values, P a) fun w => closedList (fuel w) (x w) := by
  refine .bind (peekIs _) fun closed _ => ?_
  cases closed with
  | true => exact .bind next fun _ _ => .pure fun _ ha => absurd ha List.not_mem_nil
  | false =>
    refine .loop (I := fun seen => ∀ a ∈ seen, P a) (fun seen hseen => ?_) hn fun _ ha =>
      absurd ha List.not_mem_nil
    refine .bind h fun a ha => .bind next fun l _ => ?_
    have hall : ∀ b ∈ seen ++ [a], P b := fun b hb => by
      rcases List.mem_append.mp hb with hb | hb
      · exact hseen b hb
      · exact List.mem_singleton.mp hb ▸ ha
    split
    · exact .pure hall
    · exact .pure hall
    · exact .fail _

/-! ## Expressions -/

/-- Operators make no procedures, and a plain assignment stores what it is given. -/
theorem assign {value : Value} (hvalue : value.Within old) (name : String) (assignment : Assignment)
    (target operator : Location) :
    Made old new r (Value.Within old) fun _ =>
    Rules.assign name assignment value target operator := by
  have hassigned : Made old new r (Value.Within old) fun _ =>
      Rules.assignedValue name assignment value target operator := by
    refine .bind (.lookup name) fun found _ => ?_
    split
    · exact .fail _
    · exact .pure hvalue
    · exact .fail _
    · exact ofRuntime _ fun v hv => Value.within_of_kind (BinaryOperator.apply_kind hv)
  exact .bind hassigned fun v hv => .bind (.store name target hv) fun _ _ => .pure hv

theorem assignmentRule (mode : Mode) :
    Made old new r (Value.Within old) fun w => (r w).assignmentRule mode := by
  refine .bind next fun target _ => ?_
  split
  · refine .bind next fun operator _ => ?_
    split
    · refine .bind (.assignment mode) fun value hvalue => ?_
      cases mode with
      | skip => exact .pure trivial
      | execute => exact assign hvalue _ _ _ _
    · exact .bind rollback fun _ _ => .bind rollback fun _ _ => .conditional mode
  · exact .bind rollback fun _ _ => .conditional mode

theorem branches (chosen : Option Bool) : Made old new r (Value.Within old) fun w => (do
    let first ← (r w).assignment (Rules.branchMode chosen true)
    Exec.expect .colon
    let second ← (r w).conditional (Rules.branchMode chosen false)
    match chosen with
    | some true => return first
    | some false => return second
    | none => return .noValue : Exec Value) := by
  refine .bind (.assignment _) fun first hfirst => .bind (expect _) fun _ _ => ?_
  refine .bind (.conditional _) fun second hsecond => ?_
  split
  · exact .pure hfirst
  · exact .pure hsecond
  · exact .pure trivial

theorem conditionalRule (mode : Mode) :
    Made old new r (Value.Within old) fun w => (r w).conditionalRule mode := by
  refine .bind peek fun start _ => .bind (.binary _ mode) fun condition hcondition => ?_
  refine .bind (peekIs _) fun question _ => ?_
  cases question with
  | false => exact .pure hcondition
  | true =>
    refine .bind next fun _ _ => ?_
    cases mode with
    | skip => exact branches none
    | execute =>
      have hchosen : Made old new r (fun _ => True) fun _ =>
          some <$> Exec.ofRuntime condition.condition start.location := by
        simp only [map_eq_pure_bind]
        exact .bind (ofRuntime (P := fun _ => True) _ fun _ _ => trivial) fun _ _ => .pure trivial
      exact .bind hchosen fun chosen _ => branches chosen

theorem applyPrefixes (ops : List (UnaryOperator × Location)) {value : Value}
    (hvalue : value.Within old) :
    Made old new r (Value.Within old) fun _ => Rules.applyPrefixes ops value := by
  induction ops generalizing value with
  | nil => exact .pure hvalue
  | cons op ops ih =>
    refine .bind (ofRuntime _ fun v hv => ?_) fun v hv => ih hv
    exact Value.within_of_kind (UnaryOperator.apply_kind hv)

section Rules

variable (hfuel : ∀ w, (r w).fuel = n)

include hfuel

theorem expression (mode : Mode) :
    Made old new r (Value.Within old) fun w => (r w).expression mode := by
  refine .bind (.assignment mode) fun first hfirst => .loop (fun value hvalue => ?_) hfuel hfirst
  refine .bind (peekIs _) fun comma _ => ?_
  cases comma with
  | true => exact .bind next fun _ _ => .bind (.assignment mode) fun v hv => .pure hv
  | false => exact .pure hvalue

theorem arguments (mode : Mode) :
    Made old new r (fun values => ∀ v ∈ values, v.Within old) fun w => (r w).arguments mode :=
  closedList (.assignment mode) hfuel

theorem atom (mode : Mode) : Made old new r (Value.Within old) fun w => (r w).atom mode := by
  refine .bind next fun l _ => ?_
  split
  · exact .pure trivial
  · exact .pure trivial
  · exact .pure trivial
  · exact .pure trivial
  · exact .pure trivial
  · cases mode with
    | execute => exact .fail _
    | skip => exact .pure trivial
  · refine .bind (peekIs _) fun paren _ => ?_
    cases paren with
    | true => exact .call _ _ mode
    | false =>
      cases mode with
      | skip => exact .pure trivial
      | execute =>
        refine .bind (.lookup _) fun found hfound => ?_
        split
        · exact .pure (hfound _ _ rfl rfl)
        · exact .fail _
        · exact .fail _
  · exact .bind (expression hfuel mode) fun v hv => .bind (expect _) fun _ _ => .pure hv
  · exact .fail _
  · exact .fail _

theorem unary (mode : Mode) : Made old new r (Value.Within old) fun w => (r w).unary mode := by
  have hprefixes : Made old new r (fun _ => True) fun w =>
      Exec.loop Rules.prefixTurn (r w).fuel [] := by
    refine .loop (I := fun _ => True) (fun ops _ => .bind peek fun ahead _ => ?_) hfuel trivial
    split
    · exact .bind next fun _ _ => .pure trivial
    · exact .pure trivial
  refine .bind hprefixes fun ops _ => .bind (atom hfuel mode) fun operand hoperand => ?_
  split
  · exact .pure trivial
  · exact applyPrefixes _ hoperand

theorem rightOperand (op : BinaryOperator) (mode : Mode) :
    Made old new r (Value.Within old) fun w => (r w).rightOperand op mode := by
  unfold Rules.rightOperand
  cases op.precedence.tighter with
  | some level => exact .binary level mode
  | none => exact unary hfuel mode

theorem binaryRule (least : Precedence) (mode : Mode) :
    Made old new r (Value.Within old) fun w => (r w).binaryRule least mode := by
  refine .bind (unary hfuel mode) fun left hleft => .loop (fun left hleft => ?_) hfuel hleft
  refine .bind peek fun ahead _ => ?_
  split
  · exact .pure hleft
  · split
    · exact .pure hleft
    · refine .bind next fun _ _ => ?_
      cases mode with
      | skip => exact .bind (rightOperand hfuel _ .skip) fun _ _ => .pure hleft
      | execute =>
        dsimp only
        split
        · exact .bind (rightOperand hfuel _ .skip) fun _ _ => .pure hleft
        · refine .bind (rightOperand hfuel _ .execute) fun right _ => ?_
          refine .bind (ofRuntime (P := Value.Within old) _ fun v hv => ?_) fun v hv => .pure hv
          exact Value.within_of_kind (BinaryOperator.apply_kind hv)

/-! ## Blocks and clauses -/

theorem parenthesized (mode : Mode) :
    Made old new r (fun _ => True) fun w => (r w).parenthesized mode := by
  refine .bind (expect _) fun _ _ => .bind peek fun start _ => ?_
  refine .bind (expression hfuel mode) fun value _ => .bind (expect _) fun _ _ => ?_
  cases mode with
  | execute => exact ofRuntime _ fun _ _ => trivial
  | skip => exact .pure trivial

theorem declaration (mode : Mode) :
    Made old new r (fun _ => True) fun w => (r w).declaration mode := by
  refine .loop (I := fun _ => True) (fun _ _ => ?_) hfuel trivial
  have hinitial : Made old new r (fun found => ∀ v, found = some v → v.Within old) fun w =>
      (r w).initialValue mode := by
    refine .bind (peekIs _) fun equals _ => ?_
    cases equals with
    | true =>
      refine .bind next fun _ _ => .bind (.assignment mode) fun value hvalue => .pure fun v hv => ?_
      cases hv
      exact hvalue
    | false => exact .pure fun v hv => by cases hv
  refine .bind expectIdentifier fun (name, location) _ => .bind hinitial fun value hvalue => ?_
  have hrest : Made old new r (Turn.All (fun _ => True) fun _ => True) fun _ => (do
      if ← Exec.peekIs .comma then
        let _ ← Exec.next
        return .again ()
      else return .stop () : Exec (Turn Unit Unit)) := by
    refine .bind (peekIs _) fun comma _ => ?_
    cases comma with
    | true => exact .bind next fun _ _ => .pure trivial
    | false => exact .pure trivial
  cases mode with
  | execute => exact .bind (.declare name location hvalue) fun _ _ => hrest
  | skip => exact hrest

theorem bracedStatements (mode : Mode) :
    Made old new r (Signal.Within old) fun w => (r w).bracedStatements mode := by
  refine .bind (expect _) fun _ _ => .loop (I := fun _ => True) (fun _ _ => ?_) hfuel trivial
  refine .bind peek fun ahead _ => ?_
  split
  · exact .bind next fun _ _ => .pure trivial
  · exact .fail _
  · refine .bind (.statement mode) fun signal hsignal => ?_
    split
    · exact .pure hsignal
    · exact .pure trivial

theorem block (mode : Mode) : Made old new r (Signal.Within old) fun w => (r w).block mode := by
  cases mode with
  | skip => exact bracedStatements hfuel .skip
  | execute =>
    refine .bind .currentScope fun current hcurrent =>
      .withChild .block hcurrent fun scope hscope => ?_
    exact .inScope hscope (bracedStatements hfuel .execute)

/-! ## Calls -/

omit hfuel in
theorem declareAll {bindings : List ((String × Location) × Value)}
    (h : ∀ b ∈ bindings, b.2.Within old) :
    Made old new r (fun _ => True) fun _ => Rules.declareAll bindings := by
  induction bindings with
  | nil => exact .pure trivial
  | cons b bindings ih =>
    obtain ⟨⟨name, location⟩, value⟩ := b
    refine .bind (.declare name location fun v hv => ?_) fun _ _ => ih fun b hb =>
      h b (List.mem_cons_of_mem _ hb)
    cases hv
    exact h _ List.mem_cons_self

theorem parameterList : Made old new r (fun _ => True) fun w => (r w).parameterList :=
  .bind (expect _) fun _ _ => (closedList expectIdentifier hfuel).imp fun _ _ => trivial

theorem bodyWith {arguments : List Value} (h : ∀ v ∈ arguments, v.Within old)
    (location : Location) :
    Made old new r (Signal.Within old) fun w => (r w).bodyWith arguments location := by
  have hbind : Made old new r (fun _ => True) fun w => (r w).bindArguments arguments location := by
    refine .bind (parameterList hfuel) fun parameters _ => ?_
    dsimp only
    split
    · exact .fail _
    · split
      · exact .fail _
      · refine declareAll fun b hb => h b.2 ?_
        exact (List.of_mem_zip hb).2
  exact .bind hbind fun _ _ => bracedStatements hfuel .execute

theorem prepareCall (name : String) (location : Location) :
    Made old new r (fun found => old found.1.scope ∧ ∀ v ∈ found.2, v.Within old) fun w =>
      (r w).prepareCall name location := by
  have hresolve : Made old new r (fun procedure => old procedure.scope) fun _ =>
      Rules.resolveProcedure name location := by
    refine .bind (.lookup name) fun found hfound => ?_
    split
    · rename_i p
      have hp : (Value.procedure p).Within old := hfound _ _ rfl rfl
      exact .pure hp
    · exact .fail _
    · exact .fail _
  refine .bind hresolve fun procedure hp =>
    .bind (arguments hfuel .execute) fun values hvalues => ?_
  refine .bind (.readScopes _) fun alive _ => ?_
  split
  · exact .pure ⟨hp, hvalues⟩
  · exact .fail _

theorem watchedCall (name : String) (location : Location) (mode : Mode) :
    Made old new r (Value.Within old) fun w => (r w).watchedCall w name location mode := by
  cases mode with
  | skip => exact .bind (expect _) fun _ _ => .bind (arguments hfuel .skip) fun _ _ => .pure trivial
  | execute =>
    simp only [Rules.watchedCall_execute]
    refine .bind (expect _) fun _ _ =>
      .bind (prepareCall hfuel name location) fun (procedure, values) h => ?_
    refine .bind (.calling values location h.1 (bodyWith hfuel h.2 location))
      fun signal hsignal => ?_
    unfold Rules.callValue
    split
    · exact .pure trivial
    · exact .pure trivial
    · exact .pure hsignal
    · exact .fail _
    · exact .fail _

/-! ## Loops -/

/-- A loop is made of its passes and of what skips it. -/
theorem passes {skipRest : Watch → Exec Unit} {pass : Watch → Exec Pass} (entry : Nat)
    (hskip : Made old new r (fun _ => True) skipRest)
    (hpass : Made old new r (Pass.Within old) pass) :
    Made old new r (Signal.Within old) fun w => (r w).passes entry (skipRest w) (pass w) := by
  refine .loop (I := fun _ => True) (fun _ _ => ?_) hfuel trivial
  refine .bind (seek entry) fun _ _ => .bind hpass fun pass hpass => ?_
  unfold Rules.settle
  split
  · exact .pure trivial
  · exact .pure trivial
  · exact .bind (seek entry) fun _ _ => .bind hskip fun _ _ => .pure trivial
  · exact .pure hpass

theorem skipWhile : Made old new r (fun _ => True) fun w => (r w).skipWhile :=
  .bind (parenthesized hfuel .skip) fun _ _ => .bind (bracedStatements hfuel .skip) fun _ _ =>
  .pure trivial

theorem whilePass : Made old new r (Pass.Within old) fun w => (r w).whilePass := by
  refine .bind (parenthesized hfuel .execute) fun holds _ => ?_
  cases holds with
  | true =>
    refine .bind (bracedStatements hfuel .execute) fun signal hsignal => ?_
    split
    · exact .pure trivial
    · exact .pure trivial
    · exact .pure hsignal
  | false => exact .bind (bracedStatements hfuel .skip) fun _ _ => .pure trivial

theorem whileLoop (mode : Mode) :
    Made old new r (Signal.Within old) fun w => (r w).whileLoop mode := by
  refine .bind .position fun entry _ => ?_
  cases mode with
  | skip => exact .bind (skipWhile hfuel) fun _ _ => .pure trivial
  | execute =>
    refine passes hfuel entry (skipWhile hfuel) (.bind .currentScope fun current hcurrent => ?_)
    exact .withChild _ hcurrent fun scope hscope => .inScope hscope (whilePass hfuel)

theorem doCondition (mode : Mode) :
    Made old new r (fun _ => True) fun w => (r w).doCondition mode :=
  .bind (expectKeyword _) fun _ _ => .bind (parenthesized hfuel mode) fun _ _ =>
    .bind (expect _) fun _ _ => .pure trivial

theorem skipDo : Made old new r (fun _ => True) fun w => (r w).skipDo :=
  .bind (bracedStatements hfuel .skip) fun _ _ => .bind (doCondition hfuel .skip) fun _ _ =>
  .pure trivial

theorem doPassEnd : Made old new r (Pass.Within old) fun w => (r w).doPassEnd := by
  refine .bind (doCondition hfuel .execute) fun holds _ => ?_
  cases holds with
  | true => exact .pure trivial
  | false => exact .pure trivial

theorem doPass (scope : ScopeId) :
    Made old new r (Pass.Within old) fun w => (r w).doPass scope := by
  refine .bind (bracedStatements hfuel .execute) fun signal hsignal => ?_
  split
  · exact doPassEnd hfuel
  · have hback : Made old new r (fun _ => True) fun w => (r w).resumePastBody scope := by
      refine .bind (.readScopes _) fun p _ => .bind (seek p) fun _ _ => ?_
      exact .bind (bracedStatements hfuel .skip) fun _ _ => .pure trivial
    exact .bind hback fun _ _ => doPassEnd hfuel
  · exact .pure hsignal

theorem doLoop (mode : Mode) : Made old new r (Signal.Within old) fun w => (r w).doLoop mode := by
  refine .bind .position fun entry _ => ?_
  cases mode with
  | skip => exact .bind (skipDo hfuel) fun _ _ => .pure trivial
  | execute =>
    refine passes hfuel entry (skipDo hfuel) (.bind .currentScope fun current hcurrent => ?_)
    exact .withChild _ hcurrent fun scope hscope => .inScope hscope (doPass hfuel scope)

theorem forInitializer (mode : Mode) :
    Made old new r (fun _ => True) fun w => (r w).forInitializer mode := by
  refine .bind peek fun ahead _ => ?_
  split
  · exact .bind next fun _ _ => .bind (declaration hfuel mode) fun _ _ => expect _
  · exact expect _
  · exact .bind (expression hfuel mode) fun _ _ => expect _

theorem forCondition (mode : Mode) :
    Made old new r (fun _ => True) fun w => (r w).forCondition mode := by
  refine .bind peek fun start _ => ?_
  have hrest : ∀ holds : Bool, Made old new r (fun _ => True) fun _ => (do
      Exec.expect .semicolon
      return holds : Exec Bool) := fun holds => .bind (expect _) fun _ _ => .pure trivial
  split
  · exact hrest _
  · refine .bind (expression hfuel mode) fun value _ => ?_
    cases mode with
    | execute =>
      exact .bind (ofRuntime (P := fun _ => True) _ fun _ _ => trivial) fun holds _ => hrest holds
    | skip => exact hrest _

theorem forIncrement (mode : Mode) :
    Made old new r (fun _ => True) fun w => (r w).forIncrement mode := by
  refine .bind (peekIs _) fun closed _ => ?_
  cases closed with
  | true => exact expect _
  | false => exact .bind (expression hfuel mode) fun _ _ => expect _

theorem skipForRest : Made old new r (fun _ => True) fun w => (r w).skipForRest := by
  refine .bind (forCondition hfuel .skip) fun _ _ => .bind (forIncrement hfuel .skip) fun _ _ => ?_
  exact .bind (bracedStatements hfuel .skip) fun _ _ => .pure trivial

theorem forBody (scope : ScopeId) (holds : Bool) :
    Made old new r (Pass.Within old) fun w => (r w).forBody scope holds := by
  refine .bind (forIncrement hfuel .skip) fun _ _ => ?_
  have hadvance : Made old new r (Pass.Within old) fun w => (r w).forAdvance scope := by
    refine .bind (.readScopes _) fun p _ => .bind (seek p) fun _ _ => ?_
    exact .bind (forIncrement hfuel .execute) fun _ _ => .pure trivial
  cases holds with
  | true =>
    refine .bind (bracedStatements hfuel .execute) fun signal hsignal => ?_
    split
    · exact hadvance
    · exact hadvance
    · exact .pure hsignal
  | false => exact .bind (bracedStatements hfuel .skip) fun _ _ => .pure trivial

section New

variable (hnew : ∀ id, new id → old id)

include hnew

/-- The variables of the loop are written to only while the loop runs. -/
theorem forCopyPass {init scope : ScopeId} (hinit : new init) (hscope : new scope) :
    Made old new r (Pass.Within old) fun w => (r w).forCopyPass init scope := by
  refine .bind (.copyBindings (hnew init hinit) hscope) fun _ _ => ?_
  have hpass : Made old new r (Pass.Within old) fun w => (r w).forPass scope := by
    refine .bind (forCondition hfuel .execute) fun holds _ => .bind .position fun increment _ => ?_
    exact .bind (.setKind _ hscope) fun _ _ => forBody hfuel scope holds
  refine .bind (.inScope hscope hpass) fun pass hpass => ?_
  split
  · exact .bind (.writeBack (hnew scope hscope) (hnew init hinit)) fun _ _ => .pure trivial
  · exact .pure hpass

theorem forLoop (mode : Mode) : Made old new r (Signal.Within old) fun w => (r w).forLoop mode := by
  refine .bind (expect _) fun _ _ => ?_
  cases mode with
  | skip =>
    exact .bind (forInitializer hfuel .skip) fun _ _ => .bind (skipForRest hfuel) fun _ _ =>
      .pure trivial
  | execute =>
    refine .bind .currentScope fun current hcurrent => .withChild _ hcurrent fun init hinit => ?_
    refine .inScope hinit
      (.bind (forInitializer hfuel .execute) fun _ _ => .bind .position fun entry _ => ?_)
    refine passes hfuel entry (skipForRest hfuel)
      (.withChild _ (hnew init hinit) fun scope hscope => ?_)
    exact forCopyPass hfuel hnew hinit hscope

end New

/-! ## Statements -/

theorem ifChain (mode : Mode) : Made old new r (Signal.Within old) fun w => (r w).ifChain mode := by
  refine .loop (I := fun _ => True) (fun pending _ => ?_) hfuel trivial
  refine .bind (parenthesized hfuel pending) fun taken _ =>
    .bind (block hfuel _) fun signal hsignal => ?_
  split
  · exact .pure hsignal
  · refine .bind next fun l _ => ?_
    split
    · exact .pure trivial
    · exact .bind (block hfuel _) fun s hs => .pure hs
    · exact .bind rollback fun _ _ => .pure trivial

theorem procedureDefinition (mode : Mode) :
    Made old new r (Signal.Within old) fun w => (r w).procedureDefinition mode := by
  refine .bind expectIdentifier fun (name, location) _ => .bind .position fun entry _ => ?_
  refine .bind (parameterList hfuel) fun _ _ => .bind (bracedStatements hfuel .skip) fun _ _ => ?_
  cases mode with
  | skip => exact .pure trivial
  | execute =>
    refine .bind .currentScope fun current hcurrent => .bind (.declare name location fun v hv => ?_)
      fun _ _ => .pure trivial
    cases hv
    exact hcurrent

omit hfuel in
theorem jump {signal : Signal} (mode : Mode) (h : signal.Within old) :
    (Rules.jump mode signal).Within old := by
  cases mode with
  | execute => exact h
  | skip => trivial

theorem returnStatement (mode : Mode) (location : Location) :
    Made old new r (Signal.Within old) fun w => (r w).returnStatement mode location := by
  refine .bind (peekIs _) fun semicolon _ => ?_
  cases semicolon with
  | true => exact .bind next fun _ _ => .pure (jump mode trivial)
  | false =>
    refine .bind (expression hfuel mode) fun value hvalue => .bind (expect _) fun _ _ => ?_
    exact .pure (jump mode hvalue)

theorem evalStatement (mode : Mode) :
    Made old new r (Signal.Within old) fun w => (r w).evalStatement mode := by
  refine .bind (expression hfuel mode) fun value _ => .bind (expect _) fun _ _ => ?_
  cases mode with
  | execute => exact .bind (.write _) fun _ _ => .pure trivial
  | skip => exact .pure trivial

theorem statementRule (hnew : ∀ id, new id → old id) (mode : Mode) :
    Made old new r (Signal.Within old) fun w => (r w).statementRule mode := by
  refine .bind next fun l _ => ?_
  split
  · exact .bind rollback fun _ _ => block hfuel mode
  · exact ifChain hfuel mode
  · exact whileLoop hfuel mode
  · exact doLoop hfuel mode
  · exact forLoop hfuel hnew mode
  · exact procedureDefinition hfuel mode
  · exact .bind (declaration hfuel mode) fun _ _ => .bind (expect _) fun _ _ => .pure trivial
  · exact evalStatement hfuel mode
  · exact .bind (expect _) fun _ _ => .pure (jump mode trivial)
  · exact .bind (expect _) fun _ _ => .pure (jump mode trivial)
  · exact returnStatement hfuel mode _
  · exact .pure trivial
  · exact .fail _
  · refine .bind rollback fun _ _ => ?_
    exact .bind (expression hfuel mode) fun _ _ => .bind (expect _) fun _ _ => .pure trivial

theorem script : Made old new r (fun _ => True) fun w => (r w).script := by
  refine .loop (I := fun _ => True) (fun _ _ => .bind peek fun ahead _ => ?_) hfuel trivial
  split
  · exact .pure trivial
  · refine .bind (.statement .execute) fun signal _ => ?_
    split
    · exact .fail _
    · exact .pure trivial

end Rules
end Made

/-- What holds of the parts holds of the rules. -/
theorem Rules.posted_each {P : {α : Type} → (α → Prop) → (Watch → Exec α) → Prop}
    (hnew : ∀ id, new id → old id) (hout : ∀ {α : Type} (Q : α → Prop), P Q fun _ => Exec.outOfFuel)
    (hparts : ∀ {fuel : Nat}, Rules.Each old (fun w => posted w fuel) P →
      ∀ {α : Type} {Q : α → Prop} {x : Watch → Exec α},
      Made old new (fun w => posted w fuel) Q x → P Q x)
    (fuel : Nat) : Rules.Each old (fun w => posted w fuel) P := by
  induction fuel with
  | zero =>
    exact ⟨fun _ => hout _, fun _ => hout _, fun _ => hout _, fun _ _ => hout _,
      fun _ _ _ => hout _⟩
  | succ fuel ih =>
    have hfuel : ∀ w, (posted w fuel).fuel = fuel := fun w => posted_fuel w fuel
    exact
      ⟨fun mode => hparts ih (.watched (Made.statementRule hfuel hnew mode)),
        fun mode => hparts ih (.watched (Made.assignmentRule mode)),
        fun mode => hparts ih (.watched (Made.conditionalRule mode)),
        fun least mode => hparts ih (.watched (Made.binaryRule hfuel least mode)),
        fun name location mode => hparts ih (.watched (Made.watchedCall hfuel name location mode))⟩

end Replay
