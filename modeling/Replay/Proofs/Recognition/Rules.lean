import Replay.Proofs.Grammar.Phrases
import Replay.Proofs.Recognition
/-!
What the rules recognise.

In `skip` mode each rule recognises the phrase it is named for.  A rule is taken apart as the
equation of its phrase is; only assignments and binary operators are read in a way that the
equations do not show.
-/

namespace Replay

open Exec Grammar Computability

structure Rules.Recognising (source : String) (r : Rules) : Prop where
  statement : Recognises source anyToken (· = .normal) Phrase.statement.language
    (·.branches = false)
    (r.statement .skip)
  assignment : Recognises source anyToken (fun _ => True) Phrase.assignment.language
    Phrase.assignment.Ends
    (r.assignment .skip)
  conditional : Recognises source anyToken (fun _ => True) Phrase.conditional.language
    Phrase.conditional.Ends
    (r.conditional .skip)
  binary : ∀ p,
    Recognises source anyToken (fun _ => True) (Phrase.binary p).language (Phrase.binary p).Ends
    (r.binary p .skip)
  call : ∀ name location,
    Recognises source anyToken (fun _ => True) (Phrase.arguments Phrase.language) anyToken
    (r.call name location .skip)

namespace Rules.Recognising

variable {source : String} {r : Rules}

/-! ## Expressions -/

theorem commaTurn (h : r.Recognising source) (value : Value) :
    Turns source (fun _ => True) (fun _ => True) (sign .comma * Phrase.assignment.language) 1
      Phrase.assignment.Ends Phrase.expression.Ends (r.commaTurn .skip value) := by
  refine .of_first (· = .punct .comma) (.peekIs_true (fun _ ht => ht) ?_)
    (.peekIs_false (fun _ ht => ht) ?_) ?_ ?_
  · exact .next_bind (fun _ ht => ht) fun _ _ => h.assignment.bind_pure fun value _ =>
      ⟨Turn.again value, trivial, rfl⟩
  · exact .pure trivial
  · exact fun hspans => (Spans.one_mul_iff.mp hspans).1
  · exact fun hspans hj => hspans.nil_ne hj rfl

theorem expression (h : r.Recognising source) :
    Recognises source anyToken (fun _ => True) Phrase.expression.language Phrase.expression.Ends
      (r.expression .skip) := by
  have hstop : ∀ {i j}, Spans source (sign .comma * Phrase.assignment.language)∗ i j →
      Phrase.expression.Ends (Stream.token source j) →
      Phrase.assignment.Ends (Stream.token source i) := by
    intro i j hspans hj
    rcases (Spans.star_iff.mp hspans).cases_head with rfl | ⟨k, hfirst, _⟩
    · exact hj.mono (by decide)
    · rw [(Spans.one_mul_iff.mp hfirst).1]
      rfl
  rw [Phrase.language_eq, Phrase.parts, list, separated]
  exact h.assignment.bind
    (fun _ _ => Turns.star (fun value _ => h.commaTurn value) hstop r.fuel trivial) hstop

theorem arguments (h : r.Recognising source) :
    Recognises source anyToken (fun _ => True)
      (maybe (list Phrase.assignment.language) * sign .rightParen) anyToken
      (r.arguments .skip) := by
  refine .closedList h.assignment rfl rfl ?_ r.fuel
  intro i j hspans hparen
  have hstarts := Phrase.starts_assignment hspans
  rw [hparen] at hstarts
  cases hstarts

theorem callRule (h : r.Recognising source) (name : String) (location : Location) :
    Recognises source anyToken (fun _ => True) (Phrase.arguments Phrase.language) anyToken
      (r.callRule name location .skip) := by
  rw [Phrase.arguments, mul_assoc]
  exact (Recognises.expect _).andThen fun _ _ => h.arguments.bind_pure fun _ _ =>
    ⟨Value.noValue, trivial, rfl⟩

/-- A name, and what it is called with. -/
theorem named (h : r.Recognising source) (name : String) (location : Location) :
    Recognises source anyToken (fun _ => True) (maybe (Phrase.arguments Phrase.language))
      Phrase.atom.Ends
      (peekIs .leftParen >>= fun isCall =>
        if isCall = true then r.call name location .skip else pure (.noValue : Value)) := by
  rw [maybe, add_comm]
  refine .peekIs_choice ?_ (.pure trivial) ?_ ?_
  · exact ((h.call name location).stopping fun _ _ => trivial).anywhere
  · intro i j hspans
    rw [Phrase.arguments, mul_assoc] at hspans
    exact (Spans.one_mul_iff.mp hspans).1
  · exact fun hspans hj => hspans.nil_ne hj rfl

theorem parenthesis (h : r.Recognising source) :
    Recognises source anyToken (fun _ => True)
      (Phrase.expression.language * sign .rightParen) anyToken
      (r.expression .skip >>= fun value => expect .rightParen >>= fun _ => pure value) :=
  h.expression.bind_sign rfl fun value _ => (Recognises.expect _).bind_pure fun _ _ =>
  ⟨value, trivial, rfl⟩

theorem atom (h : r.Recognising source) :
    Recognises source anyToken (fun _ => True) Phrase.atom.language Phrase.atom.Ends
      (r.atom .skip) := by
  refine .next_by fun l _ => ?_
  split
  · next n hl => exact .of_rest (.pure trivial) (Phrase.atom_literal (.integer n) hl)
  · next x hl => exact .of_rest (.pure trivial) (Phrase.atom_literal (.real x) hl)
  · next c hl => exact .of_rest (.pure trivial) (Phrase.atom_literal (.character c) hl)
  · next hl => exact .of_rest (.pure trivial) (Phrase.atom_literal (.boolean true) hl)
  · next hl => exact .of_rest (.pure trivial) (Phrase.atom_literal (.boolean false) hl)
  · next s hl => exact .of_rest (.pure trivial) (Phrase.atom_literal (.string s) hl)
  · next name hl => exact .of_rest (h.named name l.location) (Phrase.atom_name hl)
  · next hl =>
    exact .of_rest (h.parenthesis.stopping fun _ _ => trivial) (Phrase.atom_parenthesis hl)
  · next hl => exact .fail (Phrase.not_atom (hl ▸ rfl)) _
  · next hinteger hreal hcharacter htrue hfalse hstring hname hparen _ =>
    refine .fail (fun {i j} hi hspans => ?_) _
    rw [Phrase.atom_iff, hi] at hspans
    rcases hspans with (⟨_, literal, hliteral⟩ | ⟨⟨name, hl⟩, _⟩) | ⟨hl, _⟩
    · cases literal with
      | integer n => exact hinteger n hliteral
      | real x => exact hreal x hliteral
      | character c => exact hcharacter c hliteral
      | boolean b =>
        cases b with
        | true => exact htrue hliteral
        | false => exact hfalse hliteral
      | string s => exact hstring s hliteral
    · exact hname name hl
    · exact hparen hl

theorem prefixTurn (ops : List (UnaryOperator × Location)) :
    Turns source (fun _ => True) (fun _ => True) prefixSign 1 anyToken
      (UnaryOperator.ofToken? · = none)
      (prefixTurn ops) := by
  refine .of_first (fun t => ∃ op : UnaryOperator, t = .punct op.punct) (.peek_bind fun l hl => ?_)
    (.peek_bind fun l hl => ?_) ?_ ?_
  · obtain ⟨op, hop⟩ := hl
    have hread : UnaryOperator.ofToken? l.token = some op := by
      rw [hop]
      exact UnaryOperator.ofPunct?_punct op
    rw [hread]
    exact .known (fun t ht => ⟨op, ht.trans hop⟩) fun _ _ =>
      ⟨Turn.again ((op, l.location) :: ops), trivial, rfl⟩
  · cases hread : UnaryOperator.ofToken? l.token with
    | none => exact .pure trivial
    | some op => exact absurd ⟨op, UnaryOperator.of_token hread⟩ hl
  · exact fun hspans => (Spans.one_iff.mp hspans).2
  · rintro i j hspans hj ⟨op, hop⟩
    rw [← Spans.nil_iff.mp hspans, hop] at hj
    cases (UnaryOperator.ofPunct?_punct op).symm.trans hj

theorem unary (h : r.Recognising source) :
    Recognises source anyToken (fun _ => True) Phrase.unary.language Phrase.unary.Ends
      (r.unary .skip) := by
  have hprefixes : Recognises source anyToken (fun _ => True) prefixSign∗
    (UnaryOperator.ofToken? · = none)
      (loop Rules.prefixTurn r.fuel []) :=
    Turns.star (fun ops _ => prefixTurn ops) (fun _ _ => trivial) r.fuel trivial
  have hatom := h.atom.stopping fun t (ht : Phrase.unary.Ends t) => ht.mono (by decide)
  rw [Phrase.language_eq, Phrase.parts]
  refine hprefixes.bind (fun ops _ => hatom.bind_pure fun operand _ => ?_) fun hspans _ =>
    Phrase.atom_unprefixed hspans
  cases ops with
  | nil => exact ⟨operand, trivial, rfl⟩
  | cons op ops => exact ⟨.noValue, trivial, rfl⟩

theorem rightOperand (h : r.Recognising source) (op : BinaryOperator) :
    Recognises source anyToken (fun _ => True) (Phrase.operand op.precedence).language
      (Phrase.operand op.precedence).Ends (r.rightOperand op .skip) := by
  unfold Rules.rightOperand Phrase.operand
  cases op.precedence.tighter with
  | none => exact h.unary
  | some q => exact h.binary q

theorem binaryRule (h : r.Recognising source) (p : Precedence) :
    Recognises source anyToken (fun _ => True) (Phrase.binary p).language (Phrase.binary p).Ends
      (r.binaryRule p .skip) where
  sound {i} _ := by
    -- What has been read after some turns is a phrase of the level, as every right operand can be
    -- put to its end.
    refine (h.unary.sound trivial).bind fun left k ⟨_, hunary⟩ => ?_
    refine Goes.loop (J := fun _ k => Spans source (Phrase.binary p).language i k) ?_ r.fuel
      (Phrase.binary_of_unary p hunary)
    intro left k hspans
    refine .peek_bind ?_
    split
    · exact .pure ⟨trivial, hspans⟩
    · next op hop =>
      by_cases hrank : op.precedence.rank < p.rank
      · rw [if_pos hrank]
        exact .pure ⟨trivial, hspans⟩
      · rw [if_neg hrank]
        refine .next_bind
          (((h.rightOperand op).sound trivial).bind fun right j ⟨_, hright⟩ => .pure ?_)
        exact Phrase.binary_snoc p (by omega) hspans (BinaryOperator.of_token hop) hright
  complete {i e} _ hspans he := by
    -- What is still to be read is a tail, and one turn reads the first operator of it with its
    -- right operand.
    obtain ⟨k, hunary, htail⟩ := Phrase.exists_tail p hspans
    have hbehind : Phrase.unary.Ends (Stream.token source k) := by
      cases htail with
      | nil => exact he.mono (by cases p <;> decide)
      | cons op _ hop _ _ _ =>
        rw [hop]
        exact Token.binary_continues (by cases op <;> decide)
    refine (h.unary.complete trivial hunary hbehind).bind fun left k' ⟨_, hk⟩ => ?_
    subst hk
    refine Goes.loop (J := fun _ k => Phrase.Tail source p k e) ?_ r.fuel htail
    intro left k htail
    refine .peek_bind ?_
    cases htail with
    | nil =>
      split
      · exact .pure ⟨trivial, rfl⟩
      · next op hop =>
        have hlevel := Token.rank_lt he hop
        rw [BinaryOperator.level_eq, Phrase.level] at hlevel
        rw [if_pos (by omega)]
        exact .pure ⟨trivial, rfl⟩
    | @cons _ k' _ op hrank hop hright hnext htail =>
      have hread : BinaryOperator.ofToken? (Stream.lexeme source k).token = some op :=
        (congrArg BinaryOperator.ofToken? hop).trans (BinaryOperator.ofPunct?_punct op)
      have hstop : (Phrase.operand op.precedence).Ends (Stream.token source k') := by
        have hlevel := Phrase.level_operand op.precedence
        rcases hnext with rfl | ⟨op', hle, hop'⟩
        · exact he.mono (by rw [hlevel, Phrase.level]; omega)
        · rw [hop']
          exact Token.binary_continues (by rw [hlevel, BinaryOperator.level_eq]; omega)
      rw [hread]
      dsimp only
      rw [if_neg (by omega)]
      refine .next_bind
        (((h.rightOperand op).complete trivial hright hstop).bind fun right j ⟨_, hj⟩ => .pure ?_)
      subst hj
      exact htail

theorem conditionalRule (h : r.Recognising source) :
    Recognises source anyToken (fun _ => True) Phrase.conditional.language Phrase.conditional.Ends
      (r.conditionalRule .skip) := by
  have hcolon : Recognises source anyToken (fun _ => True)
    (sign .colon * Phrase.conditional.language)
      Phrase.conditional.Ends
        (expect .colon >>= fun _ => r.conditional .skip >>= fun _ => pure Value.noValue) :=
    (Recognises.expect _).andThen fun _ _ => h.conditional.bind_pure fun _ _ =>
    ⟨Value.noValue, trivial, rfl⟩
  have hbranches : Recognises source anyToken (fun _ => True)
      (Phrase.assignment.language * (sign .colon * Phrase.conditional.language))
        Phrase.conditional.Ends
      (r.assignment .skip >>= fun _ => expect .colon >>= fun _ =>
        r.conditional .skip >>= fun _ => pure Value.noValue) := by
    refine h.assignment.bind (fun _ _ => hcolon) fun hspans _ => ?_
    rw [(Spans.one_mul_iff.mp hspans).1]
    rfl
  rw [Phrase.language_eq, Phrase.parts, mul_assoc, mul_assoc]
  refine .peeked fun start => (h.binary .loosest).bind (fun condition _ => ?_) ?_
  · rw [maybe, add_comm]
    refine .peekIs_choice ?_ (.pure trivial) (fun hspans => (Spans.one_mul_iff.mp hspans).1) ?_
    · exact .next_bind (fun _ ht => ht) fun _ _ => hbranches
    · exact fun hspans hj => hspans.nil_ne hj rfl
  · intro i j hspans hj
    rcases Spans.maybe_iff.mp hspans with rfl | hspans
    · exact hj.mono (by decide)
    · rw [(Spans.one_mul_iff.mp hspans).1]
      rfl

theorem assignmentRule (h : r.Recognising source) :
    Recognises source anyToken (fun _ => True) Phrase.assignment.language Phrase.assignment.Ends
      (r.assignmentRule .skip) where
  sound {i} _ := by
    have hconditional : Goes source True i
      (fun _ j => True ∧ Spans source Phrase.assignment.language i j)
        (r.conditional .skip) :=
      (h.conditional.sound trivial).imp fun _ _ hspans =>
      ⟨trivial, Phrase.assignment_iff.mpr (.inr hspans.2)⟩
    refine .next_bind ?_
    split
    · next name hname =>
      refine .next_bind ?_
      split
      · next meaning hmeaning =>
        refine (h.assignment.sound trivial).bind fun value j ⟨_, hspans⟩ => .pure ⟨trivial, ?_⟩
        exact Phrase.assignment_iff.mpr (.inl ⟨⟨name, hname⟩, Assignment.of_token hmeaning, hspans⟩)
      · exact .rollback_bind (.rollback_bind hconditional)
    · exact .rollback_bind hconditional
  complete {i j} _ hspans hj := by
    refine .next_bind ?_
    rcases Phrase.assignment_iff.mp hspans with ⟨⟨name, hname⟩, ⟨sign, hsign⟩, hright⟩ | hspans
    · have hread : Assignment.ofToken? (Stream.lexeme source (i + 1)).token = some sign.meaning :=
        (congrArg Assignment.ofToken? hsign).trans sign.reads
      rw [show (Stream.lexeme source i).token = .identifier name from hname]
      refine .next_bind ?_
      rw [hread]
      exact (h.assignment.complete trivial hright hj).bind fun _ _ ⟨_, hk⟩ => .pure ⟨trivial, hk⟩
    · -- The tokens that were read to see whether this is an assignment are given back.
      have hstop : Phrase.conditional.Ends (Stream.token source j) := hj.mono (by decide)
      have hconditional := h.conditional.complete trivial hspans hstop
      split
      · next name hname =>
        have hread : Assignment.ofToken? (Stream.lexeme source (i + 1)).token = none := by
          rcases Phrase.conditional_named hname hspans with rfl | hread
          · exact Token.not_assignment hj
          · exact hread
        refine .next_bind ?_
        rw [hread]
        exact .rollback_bind (.rollback_bind hconditional)
      · exact .rollback_bind hconditional

/-! ## Clauses -/

theorem parenthesized (h : r.Recognising source) :
    Recognises source anyToken (· = false) (Phrase.condition Phrase.language) anyToken
      (r.parenthesized .skip) := by
  rw [Phrase.condition, mul_assoc]
  refine (Recognises.expect _).andThen fun _ _ => .peeked fun start =>
    h.expression.bind_sign rfl fun value _ => ?_
  exact (Recognises.expect _).bind_pure fun _ _ => ⟨false, rfl, rfl⟩

theorem initialValue (h : r.Recognising source) :
    Recognises source anyToken (fun _ => True) (maybe (sign .equals * Phrase.assignment.language))
      Phrase.assignment.Ends (r.initialValue .skip) := by
  rw [maybe, add_comm]
  refine .peekIs_choice ?_ (.pure trivial) (fun hspans => (Spans.one_mul_iff.mp hspans).1)
    fun hspans hj => hspans.nil_ne hj rfl
  exact .next_bind (fun _ ht => ht) fun _ _ => h.assignment.bind_pure fun value _ =>
    ⟨some value, trivial, rfl⟩

theorem declarationTurn (h : r.Recognising source) :
    Turns source (fun _ => True) (fun _ => True)
      (name * (maybe (sign .equals * Phrase.assignment.language) * sign .comma))
      (name * (maybe (sign .equals * Phrase.assignment.language) * 1)) anyToken
        Phrase.expression.Ends
      (r.declarationTurn .skip ()) := by
  refine .andThen .expectIdentifier fun _ _ => .bind h.initialValue (fun _ _ => ?_) ?_ ?_
  · refine .of_first (· = .punct .comma) (.peekIs_true (fun _ ht => ht) ?_)
      (.peekIs_false (fun _ ht => ht) ?_)
      Spans.first_sign fun hspans hj => hspans.nil_ne hj rfl
    · exact .known (fun _ ht => ht) fun _ _ => ⟨.again (), trivial, rfl⟩
    · exact .pure trivial
  · intro i j hspans _
    rw [hspans.first_sign]
    rfl
  · intro i j hspans hj
    rw [Spans.nil_iff.mp hspans]
    exact hj.mono (by decide)

theorem declaration (h : r.Recognising source) :
    Recognises source anyToken (fun _ => True) (Phrase.declarations Phrase.language)
      Phrase.expression.Ends
      (r.declaration .skip) := by
  rw [Phrase.declarations, list, separated_eq, mul_assoc, ← mul_one (maybe _), mul_assoc, one_mul]
  exact Turns.loop (fun _ _ => h.declarationTurn) (fun _ _ => trivial) r.fuel trivial

theorem parameterList (r : Rules) :
    Recognises source anyToken (fun _ => True) Phrase.parameters anyToken r.parameterList := by
  rw [Phrase.parameters, mul_assoc]
  have hname : Recognises source anyToken (fun _ => True) name anyToken expectIdentifier :=
    .expectIdentifier
  refine (Recognises.expect _).andThen fun _ _ => .closedList hname trivial trivial ?_ r.fuel
  intro i j hspans hparen
  obtain ⟨_, name, hname⟩ := Spans.one_iff.mp hspans
  cases hname.symm.trans hparen

/-! ## Blocks -/

theorem statementTurn (h : r.Recognising source) :
    Turns source (fun _ => True) (· = .normal) Phrase.statement.language (sign .rightBrace)
      (·.branches = false)
      anyToken (r.statementTurn .skip ()) := by
  refine .of_first (· ≠ .punct .rightBrace) (.peek_bind fun l hl => ?_)
    (.peek_bind fun l hl => ?_) ?_ ?_
  · split
    · next hbrace => exact absurd hbrace hl
    · next hend => exact .fail (fun hi _ => Phrase.not_statement (hi.trans hend) rfl) _
    · exact h.statement.anywhere.bind_pure fun signal hsignal =>
        ⟨.again (), trivial, by rw [hsignal]; rfl⟩
  · rw [not_not.mp hl]
    exact .known (fun _ ht => ht) fun _ _ => ⟨.stop .normal, rfl, rfl⟩
  · exact fun hspans hbrace => Phrase.not_statement hbrace rfl hspans
  · exact fun hspans _ => not_not.mpr hspans.first_sign

theorem bracedStatements (h : r.Recognising source) :
    Recognises source anyToken (· = .normal) Phrase.block.language anyToken
      (r.bracedStatements .skip) := by
  rw [Phrase.language_eq, Phrase.parts, mul_assoc]
  refine (Recognises.expect _).andThen fun _ _ =>
    Turns.loop (fun _ _ => h.statementTurn) ?_ r.fuel trivial
  intro i j hspans _
  rcases hspans.star_mul_cases with hbrace | ⟨k, hstatement, _⟩
  · rw [hbrace.first_sign]
    rfl
  · exact Token.not_branches_of_opens (Phrase.statement_opens hstatement)

/-! ## Loops -/

theorem skipWhile (h : r.Recognising source) :
    Recognises source anyToken (fun _ => True)
      (Phrase.condition Phrase.language * Phrase.block.language) anyToken
      r.skipWhile :=
  h.parenthesized.andThen fun _ _ => h.bracedStatements.bind_pure fun _ _ => ⟨(), trivial, rfl⟩

theorem whileLoop (h : r.Recognising source) :
    Recognises source anyToken (· = .normal)
      (Phrase.condition Phrase.language * Phrase.block.language) anyToken
      (r.whileLoop .skip) :=
  .position_bind fun _ => h.skipWhile.bind_pure fun _ _ => ⟨.normal, rfl, rfl⟩

theorem doCondition (h : r.Recognising source) :
    Recognises source anyToken (fun _ => True)
      (word .kwWhile * (Phrase.condition Phrase.language * sign .semicolon))
      anyToken (r.doCondition .skip) := by
  refine (Recognises.expectKeyword _).andThen fun _ _ => h.parenthesized.andThen fun holds _ => ?_
  exact (Recognises.expect _).bind_pure fun _ _ => ⟨holds, trivial, rfl⟩

theorem doLoop (h : r.Recognising source) :
    Recognises source anyToken (· = .normal)
      (Phrase.block.language * word .kwWhile * Phrase.condition Phrase.language * sign .semicolon)
        anyToken
      (r.doLoop .skip) := by
  have hskip : Recognises source anyToken (fun _ => True)
      (Phrase.block.language *
        (word .kwWhile * (Phrase.condition Phrase.language * sign .semicolon))) anyToken
      r.skipDo :=
    h.bracedStatements.andThen fun _ _ => h.doCondition.bind_pure fun _ _ => ⟨(), trivial, rfl⟩
  rw [mul_assoc, mul_assoc]
  exact .position_bind fun _ => hskip.bind_pure fun _ _ => ⟨.normal, rfl, rfl⟩

theorem forInitializer (h : r.Recognising source) :
    Recognises source anyToken (fun _ => True)
      (maybe (word .kwVar * Phrase.declarations Phrase.language + Phrase.expression.language) *
        sign .semicolon)
      anyToken (r.forInitializer .skip) := by
  rw [maybe, add_mul, one_mul, add_mul, mul_assoc]
  refine .add_of_first (· = .punct .semicolon) (.peek_bind fun l hl => ?_)
    (.add_of_first (· = .keyword .kwVar) (.peek_bind fun l hl => ?_)
      (.peek_bind fun l hl => ?_) ?_ ?_)
    Spans.first_sign ?_
  · rw [hl.2]
    exact .expect _
  · rw [hl.2]
    exact .next_bind (fun _ ht => ht) fun _ _ => h.declaration.bind_sign rfl fun _ _ => .expect _
  · split
    · next hvar => exact absurd hvar hl.2
    · next hsemicolon => exact absurd hsemicolon hl.1.2
    · exact (h.expression.bind_sign rfl fun _ _ => .expect _).anywhere
  · exact fun hspans => (Spans.one_mul_iff.mp hspans).1
  · exact fun hspans _ => Phrase.expressionStatement_ne hspans rfl
  · intro i j hspans _
    rcases Spans.add_iff.mp hspans with hvar | hexpression
    · rw [(Spans.one_mul_iff.mp hvar).1]
      exact Token.noConfusion
    · exact Phrase.expressionStatement_ne hexpression rfl

theorem forCondition (h : r.Recognising source) :
    Recognises source anyToken (fun _ => True)
      (maybe Phrase.expression.language * sign .semicolon) anyToken
      (r.forCondition .skip) := by
  rw [maybe, add_mul, one_mul]
  refine .add_of_first (· = .punct .semicolon) (.peek_bind fun l hl => ?_)
    (.peek_bind fun l hl => ?_)
    Spans.first_sign fun hspans _ => Phrase.expressionStatement_ne hspans rfl
  · rw [if_pos (Token.isPunct_iff.mpr hl.2)]
    exact (Recognises.expect _).bind_pure fun _ _ => ⟨true, trivial, rfl⟩
  · rw [if_neg (mt Token.isPunct_iff.mp hl.2)]
    refine (h.expression.bind_sign rfl fun _ _ => ?_).anywhere
    exact (Recognises.expect _).bind_pure fun _ _ => ⟨true, trivial, rfl⟩

theorem forIncrement (h : r.Recognising source) :
    Recognises source anyToken (fun _ => True)
      (maybe Phrase.expression.language * sign .rightParen) anyToken
      (r.forIncrement .skip) := by
  rw [maybe, add_mul, one_mul]
  refine .peekIs_choice (.expect _) ?_ Spans.first_sign fun hspans _ =>
    Phrase.expressionStatement_ne hspans rfl
  exact (h.expression.bind_sign rfl fun _ _ => .expect _).anywhere

theorem forLoop (h : r.Recognising source) :
    Recognises source anyToken (· = .normal)
      (Phrase.forHead Phrase.language * Phrase.block.language) anyToken
      (r.forLoop .skip) := by
  have hrest : Recognises source anyToken (fun _ => True)
    (maybe Phrase.expression.language * sign .semicolon *
      (maybe Phrase.expression.language * sign .rightParen * Phrase.block.language)) anyToken
        r.skipForRest :=
    h.forCondition.andThen fun _ _ => h.forIncrement.andThen fun _ _ =>
      h.bracedStatements.bind_pure fun _ _ => ⟨(), trivial, rfl⟩
  have hhead : Phrase.forHead Phrase.language * Phrase.block.language = sign .leftParen *
      (maybe (word .kwVar * Phrase.declarations Phrase.language + Phrase.expression.language) *
        sign .semicolon *
        (maybe Phrase.expression.language * sign .semicolon *
          (maybe Phrase.expression.language * sign .rightParen * Phrase.block.language))) := by
    simp only [Phrase.forHead, mul_assoc]
  rw [hhead]
  refine (Recognises.expect _).andThen fun _ _ => h.forInitializer.andThen fun _ _ => ?_
  exact hrest.bind_pure fun _ _ => ⟨.normal, rfl, rfl⟩

/-! ## Branches -/

theorem ifRest (h : r.Recognising source) :
    Turns source (· = .skip) (· = .normal) (word .kwElif)
      (maybe (word .kwElse * Phrase.block.language)) anyToken
      (·.branches = false) (r.ifRest .skip) := by
  refine .of_first (· = .keyword .kwElif) ?_ ?_ (fun hspans => (Spans.one_iff.mp hspans).2) ?_
  · exact .known (fun _ ht => ht) fun l hl => ⟨.again .skip, rfl, by rw [hl]⟩
  · rw [maybe, add_comm]
    refine .add_of_first (· = .keyword .kwElse) (.next_bind (fun _ ht => ht.2) fun l hl => ?_)
      (.next_by fun l hl => ?_)
      (fun hspans => (Spans.one_mul_iff.mp hspans).1) ?_
    · rw [hl.2]
      have hblock := h.bracedStatements.stopping fun t (_ : t.branches = false) => trivial
      exact hblock.bind_pure fun signal hsignal => ⟨.stop signal, hsignal, rfl⟩
    · split
      · next helif => exact absurd helif hl.1
      · next helse => exact absurd helse hl.2
      · exact .back (.pure rfl)
    · intro i j hspans hj helse
      rw [← Spans.nil_iff.mp hspans, helse] at hj
      cases hj
  · intro i j hspans hj helif
    rcases Spans.maybe_iff.mp hspans with rfl | helse
    · rw [helif] at hj
      cases hj
    · cases helif.symm.trans (Spans.one_mul_iff.mp helse).1

theorem ifTurn (h : r.Recognising source) (mode : Mode) (hmode : mode = .skip) :
    Turns source (· = .skip) (· = .normal)
      (Phrase.condition Phrase.language * (Phrase.block.language * word .kwElif))
      (Phrase.condition Phrase.language *
        (Phrase.block.language * maybe (word .kwElse * Phrase.block.language)))
      anyToken (·.branches = false) (r.ifTurn mode) := by
  subst hmode
  refine .andThen h.parenthesized fun taken htaken => ?_
  subst htaken
  refine .andThen h.bracedStatements fun signal hsignal => ?_
  subst hsignal
  exact h.ifRest

theorem ifChain (h : r.Recognising source) :
    Recognises source anyToken (· = .normal) (Phrase.branches Phrase.language) (·.branches = false)
      (r.ifChain .skip) := by
  rw [Phrase.branches, separated_eq, mul_assoc, mul_assoc, mul_assoc]
  exact Turns.loop h.ifTurn (fun _ _ => trivial) r.fuel rfl

/-! ## Statements -/

theorem procedureDefinition (h : r.Recognising source) :
    Recognises source anyToken (· = .normal)
      (name * Phrase.parameters * Phrase.block.language) anyToken
      (r.procedureDefinition .skip) := by
  rw [mul_assoc]
  refine Recognises.expectIdentifier.andThen fun _ _ => .position_bind fun _ =>
    (parameterList r).andThen fun _ _ => ?_
  exact h.bracedStatements.bind_pure fun _ _ => ⟨.normal, rfl, rfl⟩

/-- An expression that ends with a semicolon. -/
theorem expressionEnd (h : r.Recognising source) {f : Value → Unit → Exec Signal}
    (hf : ∀ value, f value () = pure .normal) :
    Recognises source anyToken (· = .normal) (Phrase.expression.language * sign .semicolon) anyToken
      (r.expression .skip >>= fun value => expect .semicolon >>= f value) :=
  h.expression.bind_sign rfl fun value _ => (Recognises.expect _).bind_pure fun _ _ =>
  ⟨.normal, rfl, hf value⟩

theorem returnStatement (h : r.Recognising source) (location : Location) :
    Recognises source anyToken (· = .normal)
      (maybe Phrase.expression.language * sign .semicolon) anyToken
      (r.returnStatement .skip location) := by
  rw [maybe, add_mul, one_mul]
  refine .peekIs_choice ?_ (h.expressionEnd fun _ => rfl).anywhere Spans.first_sign
    fun hspans _ => Phrase.expressionStatement_ne hspans rfl
  exact .known (fun _ ht => ht) fun _ _ => ⟨.normal, rfl, rfl⟩

/-- A statement whose first token has been read. -/
theorem led {l : Language Token} {stop : Token → Prop} {t first : Token} {x : Exec Signal}
    (hx : Recognises source anyToken (· = .normal) l stop x) (ht : t = first)
    (hfirst : Phrase.statementRest first = some l) (hstop : ∀ t, t.branches = false → stop t) :
    RecognisesBehind source t (· = .normal) Phrase.statement.language (·.branches = false) x :=
  .of_rest (hx.stopping hstop) fun hi => Phrase.statement_of_rest (hi.trans ht) hfirst

theorem statementRule (h : r.Recognising source) :
    Recognises source anyToken (· = .normal) Phrase.statement.language (·.branches = false)
      (r.statementRule .skip) := by
  have hend : Recognises source anyToken (· = .normal) (sign .semicolon) anyToken
      (expect .semicolon >>= fun _ => pure Signal.normal) :=
    (Recognises.expect _).bind_pure fun _ _ => ⟨.normal, rfl, rfl⟩
  refine .next_by fun l _ => ?_
  split
  · next hl =>
    have hblock := h.bracedStatements.stopping fun t (_ : t.branches = false) => trivial
    refine .back (hblock.anywhere.lang fun hi => ?_)
    rw [Phrase.statement_of_rest (hi.trans hl) rfl, Phrase.block_iff, and_iff_right (hi.trans hl)]
  · next hl => exact led h.ifChain hl rfl fun _ ht => ht
  · next hl => exact led h.whileLoop hl rfl fun _ _ => trivial
  · next hl => exact led h.doLoop hl rfl fun _ _ => trivial
  · next hl => exact led h.forLoop hl rfl fun _ _ => trivial
  · next hl => exact led h.procedureDefinition hl rfl fun _ _ => trivial
  · next hl => exact led (h.declaration.bind_sign rfl fun _ _ => hend) hl rfl fun _ _ => trivial
  · next hl => exact led (h.expressionEnd fun _ => rfl) hl rfl fun _ _ => trivial
  · next hl => exact led hend hl rfl fun _ _ => trivial
  · next hl => exact led hend hl rfl fun _ _ => trivial
  · next hl => exact led (h.returnStatement l.location) hl rfl fun _ _ => trivial
  · next hl => exact led (.pure rfl) hl rfl fun _ ht => ht
  · next hl => exact .fail (fun hi => Phrase.not_statement (hi.trans hl) rfl) _
  · have hnone : Phrase.statementRest l.token = none := by
      unfold Phrase.statementRest
      split <;> first | rfl | contradiction
    have hexpression : Recognises source anyToken (· = .normal)
      (Phrase.expression.language * sign .semicolon) anyToken
        (r.expressionStatement .skip) := h.expressionEnd fun _ => rfl
    exact .back ((hexpression.stopping fun _ _ => trivial).anywhere.lang fun hi =>
      Phrase.statement_of_none hi hnone)

end Rules.Recognising

/-- Every rule recognises its phrase, however much fuel there is. -/
theorem Rules.within_recognising (source : String) (fuel : Nat) :
    (Rules.within fuel).Recognising source := by
  induction fuel with
  | zero => exact ⟨.outOfFuel, .outOfFuel, .outOfFuel, fun _ => .outOfFuel, fun _ _ => .outOfFuel⟩
  | succ fuel ih =>
    exact ⟨ih.statementRule, ih.assignmentRule, ih.conditionalRule, ih.binaryRule, ih.callRule⟩

end Replay
