import Replay.Proofs.Grammar
/-!
What the words of phrases look like.

A word of a phrase in a text is told by its first tokens: which kind of atom or statement it is, and
whether a name is assigned to.  Operands and operators are more than that.  The grammar nests the
levels of operators, while they are read from left to right; a `Tail` is what a phrase is when it is
read in this way.
-/

namespace Replay

open Grammar Computability

/-! ## Operands and operators -/

def Phrase.level : Phrase → Nat
  | statement | block | expression => 0
  | assignment => 1
  | conditional => 2
  | binary p => 3 + p.rank
  | unary => 13
  | atom => 14

/-- The phrase does not go on with the token. -/
abbrev Phrase.Ends (n : Phrase) (t : Token) : Prop := t.continues n.level = false

theorem Phrase.Ends.mono {n n' : Phrase} {t : Token} (h : n.Ends t) (hle : n.level ≤ n'.level) :
    n'.Ends t :=
  Token.continues_anti hle h

theorem Precedence.tighter_rank {p q : Precedence} (h : p.tighter = some q) :
    q.rank = p.rank + 1 := by
  cases p <;> cases h <;> rfl

theorem Precedence.eq_of_rank {p q : Precedence} (h : p.rank = q.rank) : p = q := by
  cases p <;> cases q <;> first | rfl | cases h

theorem BinaryOperator.of_token {t : Token} {op : BinaryOperator}
    (h : BinaryOperator.ofToken? t = some op) :
    t = .punct op.punct := by
  cases t with
  | punct p => cases p <;> cases h <;> rfl
  | _ => cases h

theorem UnaryOperator.of_token {t : Token} {op : UnaryOperator}
    (h : UnaryOperator.ofToken? t = some op) :
    t = .punct op.punct := by
  cases t with
  | punct p => cases p <;> cases h <;> rfl
  | _ => cases h

theorem Literal.token_ne_punct (l : Literal) (p : Punct) : l.token ≠ .punct p := by
  cases l with
  | boolean b => cases b <;> exact Token.noConfusion
  | _ => exact Token.noConfusion

namespace Phrase

theorem level_operand (p : Precedence) : (operand p).level = 4 + p.rank := by
  cases p <;> rfl

section

variable {source : String} {i j k : Nat}

theorem binary_of_unary (p : Precedence) (h : Spans source unary.language i j) :
    Spans source (binary p).language i j := by
  induction p using Precedence.climb with
  | h p ih =>
    have hoperand : Spans source (operand p).language i j := by
      rcases operand_eq p with ⟨q, hq, heq⟩ | heq
      · rw [heq]
        exact ih q hq
      · rw [heq]
        exact h
    rw [language_eq, parts, separated, Spans.mul_iff]
    exact ⟨j, hoperand, Spans.star_iff.mpr .refl⟩

/-- An operand goes to the end of a phrase whose operators bind at most as tightly as the one before
it. -/
theorem binary_snoc (p : Precedence) {op : BinaryOperator} (hrank : p.rank ≤ op.precedence.rank)
    (h : Spans source (binary p).language i j) (hop : Stream.token source j = .punct op.punct)
    (hright : Spans source (operand op.precedence).language (j + 1) k) :
    Spans source (binary p).language i k := by
  induction p using Precedence.climb generalizing i with
  | h p ih =>
    rw [language_eq, parts] at h ⊢
    by_cases heq : op.precedence = p
    · rw [heq] at hright
      have hlink : Spans source (operator p * (operand p).language) j k :=
        Spans.one_mul_iff.mpr ⟨⟨op, heq, hop⟩, hright⟩
      rw [separated, Spans.mul_iff] at h ⊢
      obtain ⟨m, hfirst, hchain⟩ := h
      exact ⟨m, hfirst, Spans.star_iff.mpr ((Spans.star_iff.mp hchain).tail hlink)⟩
    · -- The operator is a tighter one, so it belongs to the last operand.
      have hlt : p.rank ≠ op.precedence.rank := fun hrank => heq (Precedence.eq_of_rank hrank).symm
      rw [separated_eq, Spans.mul_iff] at h ⊢
      obtain ⟨m, hchain, hlast⟩ := h
      refine ⟨m, hchain, ?_⟩
      rcases operand_eq p with ⟨q, hq, hoperand⟩ | hoperand
      · rw [hoperand] at hlast ⊢
        have htighter := Precedence.tighter_rank hq
        exact ih q hq (by omega) hlast
      · have hlevel := level_operand p
        have hmost : op.precedence.rank ≤ 9 := by cases op <;> decide
        rw [hoperand, level] at hlevel
        omega

/-- What follows the first operand: operators that bind at least as tightly as `p`, each with its
right operand.  The operator after an operand binds no tighter than the one before it. -/
inductive Tail (source : String) (p : Precedence) : Nat → Nat → Prop
  | nil (e : Nat) : Tail source p e e
  | cons {j k e : Nat} (op : BinaryOperator) (hrank : p.rank ≤ op.precedence.rank)
      (hop : Stream.token source j = .punct op.punct)
      (hright : Spans source (operand op.precedence).language (j + 1) k)
      (hnext : k = e ∨ ∃ op' : BinaryOperator, op'.precedence.rank ≤ op.precedence.rank ∧
        Stream.token source k = .punct op'.punct)
      (htail : Tail source p k e) : Tail source p j e

/-- A tail of tighter operators, and then one that starts with an operator of the level `p`. -/
theorem Tail.append {p q : Precedence} {e : Nat} (hle : p.rank ≤ q.rank) (h : Tail source q j k)
    (htail : Tail source p k e) (hnext : k = e ∨ ∃ op : BinaryOperator, op.precedence = p ∧
      Stream.token source k = .punct op.punct) : Tail source p j e := by
  induction h with
  | nil k => exact htail
  | cons op hrank hop hright hthen _ ih =>
    refine .cons op (by omega) hop hright ?_ (ih htail hnext)
    rcases hthen with rfl | hthen
    · rcases hnext with hend | ⟨op', hlevel, htoken⟩
      · exact .inl hend
      · rw [← hlevel] at hle
        exact .inr ⟨op', by omega, htoken⟩
    · exact .inr hthen

/-- Operators of one level with their right operands. -/
theorem Tail.of_chain {p : Precedence} {e : Nat}
    (h : Relation.ReflTransGen (Spans source (operator p * (operand p).language)) j e) :
    Tail source p j e ∧
      (j = e ∨ ∃ op : BinaryOperator, op.precedence = p ∧
        Stream.token source j = .punct op.punct) := by
  induction h using Relation.ReflTransGen.head_induction_on with
  | refl => exact ⟨.nil e, .inl rfl⟩
  | head hlink _ ih =>
    obtain ⟨⟨op, hlevel, hop⟩, hright⟩ := Spans.one_mul_iff.mp hlink
    refine ⟨.cons op (by rw [hlevel]) hop (by rw [hlevel]; exact hright) ?_ ih.1,
      .inr ⟨op, hlevel, hop⟩⟩
    rcases ih.2 with hend | ⟨op', hlevel', htoken⟩
    · exact .inl hend
    · exact .inr ⟨op', by rw [hlevel, hlevel'], htoken⟩

theorem exists_tail (p : Precedence) (h : Spans source (binary p).language i j) :
    ∃ k, Spans source unary.language i k ∧ Tail source p k j := by
  induction p using Precedence.climb generalizing j with
  | h p ih =>
    rw [language_eq, parts, separated, Spans.mul_iff] at h
    obtain ⟨k, hfirst, hchain⟩ := h
    obtain ⟨htail, hnext⟩ := Tail.of_chain (Spans.star_iff.mp hchain)
    rcases operand_eq p with ⟨q, hq, heq⟩ | heq
    · rw [heq] at hfirst
      obtain ⟨k', hunary, hinner⟩ := ih q hq hfirst
      have htighter := Precedence.tighter_rank hq
      exact ⟨k', hunary, hinner.append (by omega) htail hnext⟩
    · rw [heq] at hfirst
      exact ⟨k, hfirst, htail⟩

end

end Phrase

/-- A sign that goes on with a phrase does not stand where the phrase is over. -/
theorem Spans.nil_ne {source : String} {i j : Nat} {n : Phrase} {p : Punct} (h : Spans source 1 i j)
    (hj : n.Ends (Stream.token source j)) (hp : (Token.punct p).continues n.level = true) :
    Stream.token source i ≠ .punct p := by
  intro hi
  rw [← nil_iff.mp h, hi, Phrase.Ends, hp] at hj
  cases hj

/-! ## Atoms -/

section

variable {source : String} {i j : Nat} {t : Token}

theorem Phrase.atom_iff : Spans source atom.language i j ↔
    ((j = i + 1 ∧ ∃ l : Literal, Stream.token source i = l.token) ∨
      (∃ name, Stream.token source i = .identifier name) ∧
      Spans source (maybe (arguments language)) (i + 1) j) ∨
      Stream.token source i = .punct .leftParen ∧
      Spans source (expression.language * sign .rightParen) (i + 1) j := by
  rw [language_eq, parts, Spans.add_iff, Spans.add_iff, mul_assoc, literal, name, sign,
    Spans.one_iff, Spans.one_mul_iff, Spans.one_mul_iff]

theorem Phrase.atom_literal (l : Literal) (ht : t = l.token) (hi : Stream.token source i = t) :
    Spans source atom.language i j ↔ Spans source 1 (i + 1) j := by
  rw [atom_iff, Spans.nil_iff, hi, ht]
  constructor
  · rintro ((⟨hj, _⟩ | ⟨⟨name, hname⟩, _⟩) | ⟨hparen, _⟩)
    · exact hj.symm
    · exact absurd hname (l.token_ne name)
    · exact absurd hparen (l.token_ne_punct _)
  · intro hj
    exact .inl (.inl ⟨hj.symm, l, rfl⟩)

theorem Phrase.atom_name {name : String} (ht : t = .identifier name)
    (hi : Stream.token source i = t) :
    Spans source atom.language i j ↔ Spans source (maybe (arguments language)) (i + 1) j := by
  rw [atom_iff, hi, ht]
  constructor
  · rintro ((⟨_, l, hl⟩ | ⟨_, harguments⟩) | ⟨hparen, _⟩)
    · exact absurd hl.symm (l.token_ne name)
    · exact harguments
    · cases hparen
  · intro harguments
    exact .inl (.inr ⟨⟨name, rfl⟩, harguments⟩)

theorem Phrase.atom_parenthesis (ht : t = .punct .leftParen) (hi : Stream.token source i = t) :
    Spans source atom.language i j ↔
      Spans source (expression.language * sign .rightParen) (i + 1) j := by
  rw [atom_iff, hi, ht]
  constructor
  · rintro ((⟨_, l, hl⟩ | ⟨⟨name, hname⟩, _⟩) | ⟨_, hrest⟩)
    · exact absurd hl.symm (l.token_ne_punct _)
    · cases hname
    · exact hrest
  · intro hrest
    exact .inr ⟨rfl, hrest⟩

theorem Phrase.not_atom (ht : t.starts = false) (hi : Stream.token source i = t) :
    ¬ Spans source atom.language i j := by
  intro hspans
  have hstarts := starts_atom hspans
  rw [hi, ht] at hstarts
  cases hstarts

theorem Phrase.atom_unprefixed (h : Spans source atom.language i j) :
    UnaryOperator.ofToken? (Stream.token source i) = none := by
  rcases atom_iff.mp h with (⟨_, l, hl⟩ | ⟨⟨name, hname⟩, _⟩) | ⟨hparen, _⟩
  · rw [hl]
    exact l.token_unary
  · rw [hname]
    rfl
  · rw [hparen]
    rfl

end

/-! ## Assignments -/

theorem Assignment.of_token {t : Token} {meaning : Assignment}
    (h : Assignment.ofToken? t = some meaning) :
    ∃ sign : AssignmentSign, t = .punct sign.punct := by
  cases t with
  | punct p =>
    have hshown : meaning.sign? = some p := by cases p <;> cases h <;> rfl
    exact ⟨⟨meaning, p, hshown⟩, rfl⟩
  | _ => cases h

namespace Phrase

variable {source : String} {i j : Nat} {name : String}

theorem assignment_iff : Spans source assignment.language i j ↔
    ((∃ name, Stream.token source i = .identifier name) ∧
      (∃ sign : AssignmentSign, Stream.token source (i + 1) = .punct sign.punct) ∧
        Spans source assignment.language (i + 1 + 1) j) ∨
      Spans source conditional.language i j := by
  conv_lhs =>
    rw [language_eq, parts, mul_assoc, Spans.add_iff, Grammar.name, assignmentSign,
      Spans.one_mul_iff, Spans.one_mul_iff]

/-! What starts with a name and is no assignment is the name alone, or has no sign of an assignment
behind the name. -/

theorem atom_named (hi : Stream.token source i = .identifier name)
    (h : Spans source atom.language i j) :
    j = i + 1 ∨ Assignment.ofToken? (Stream.token source (i + 1)) = none := by
  rcases Spans.maybe_iff.mp ((atom_name rfl hi).mp h) with hj | harguments
  · exact .inl hj.symm
  · rw [arguments, mul_assoc] at harguments
    rw [(Spans.one_mul_iff.mp harguments).1]
    exact .inr rfl

theorem unary_named (hi : Stream.token source i = .identifier name)
    (h : Spans source unary.language i j) :
    j = i + 1 ∨ Assignment.ofToken? (Stream.token source (i + 1)) = none := by
  rw [language_eq, parts] at h
  rcases h.star_mul_cases with hatom | ⟨k, hprefix, _⟩
  · exact atom_named hi hatom
  · obtain ⟨_, op, hop⟩ := Spans.one_iff.mp hprefix
    cases hi.symm.trans hop

theorem binary_named {p : Precedence} (hi : Stream.token source i = .identifier name)
    (h : Spans source (binary p).language i j) :
    j = i + 1 ∨ Assignment.ofToken? (Stream.token source (i + 1)) = none := by
  obtain ⟨k, hunary, htail⟩ := exists_tail p h
  rcases unary_named hi hunary with rfl | hread
  · cases htail with
    | nil => exact .inl rfl
    | cons op _ hop _ _ _ =>
      rw [hop]
      exact .inr (by cases op <;> rfl)
  · exact .inr hread

theorem conditional_named (hi : Stream.token source i = .identifier name)
    (h : Spans source conditional.language i j) :
    j = i + 1 ∨ Assignment.ofToken? (Stream.token source (i + 1)) = none := by
  rw [language_eq, parts, mul_assoc, mul_assoc, Spans.mul_iff] at h
  obtain ⟨k, hbinary, hrest⟩ := h
  rcases binary_named hi hbinary with rfl | hread
  · rcases Spans.maybe_iff.mp hrest with hj | hrest
    · exact .inl hj.symm
    · rw [(Spans.one_mul_iff.mp hrest).1]
      exact .inr rfl
  · exact .inr hread

end Phrase

/-! ## Statements -/

namespace Phrase

variable {source : String} {i j : Nat} {t : Token}

theorem block_iff : Spans source block.language i j ↔
    Stream.token source i = .punct .leftBrace ∧
    Spans source (statement.language∗ * sign .rightBrace) (i + 1) j := by
  rw [language_eq, parts, mul_assoc, sign, Spans.one_mul_iff]

def statementRest : Token → Option (Language Token)
  | .punct .leftBrace => some (statement.language∗ * sign .rightBrace)
  | .keyword .kwIf => some (branches language)
  | .keyword .kwWhile => some (condition language * block.language)
  | .keyword .kwDo => some (block.language * word .kwWhile * condition language * sign .semicolon)
  | .keyword .kwFor => some (forHead language * block.language)
  | .keyword .kwProcedure => some (name * parameters * block.language)
  | .keyword .kwVar => some (declarations language * sign .semicolon)
  | .keyword .kwEval => some (expression.language * sign .semicolon)
  | .keyword .kwBreak | .keyword .kwContinue => some (sign .semicolon)
  | .keyword .kwReturn => some (maybe expression.language * sign .semicolon)
  | .punct .semicolon => some 1
  | _ => none

theorem statement_iff : Spans source statement.language i j ↔
    (∃ l, statementRest (Stream.token source i) = some l ∧ Spans source l (i + 1) j) ∨
      Spans source (expression.language * sign .semicolon) i j := by
  have hsign : ∀ p, Spans source (sign p) i j ↔ Stream.token source i = .punct p ∧
      Spans source 1 (i + 1) j := by
    intro p
    rw [sign, Spans.one_iff, Spans.nil_iff, and_comm, eq_comm (a := j)]
  have hword : ∀ k l, Spans source (word k * l) i j ↔ Stream.token source i = .keyword k ∧
      Spans source l (i + 1) j :=
    fun k l => Spans.one_mul_iff
  conv_lhs => rw [language_eq, parts]
  simp only [Spans.add_iff, hword, hsign, block_iff]
  constructor
  · rintro (hled | h)
    · rcases hled with
        ((((((((((⟨hi, h⟩ | ⟨hi, h⟩) | ⟨hi, h⟩) | ⟨hi, h⟩) | ⟨hi, h⟩) | ⟨hi, h⟩) | ⟨hi, h⟩) | ⟨hi,
          h⟩) |
        ⟨hi, h⟩) | ⟨hi, h⟩) | ⟨hi, h⟩) | ⟨hi, h⟩
      all_goals exact .inl ⟨_, by rw [hi]; rfl, h⟩
    · exact .inr h
  · rintro (⟨l, hrest, h⟩ | h)
    · unfold statementRest at hrest
      split at hrest
      all_goals cases hrest
      all_goals next hi => simp only [hi, h, true_and, true_or, or_true]
    · exact .inr h

theorem starts_expressionStatement {p : Punct}
    (h : Spans source (expression.language * sign p) i j) :
    (Stream.token source i).starts = true := by
  obtain ⟨k, hexpression, _⟩ := Spans.mul_iff.mp h
  exact starts_expression hexpression

theorem expressionStatement_ne {p : Punct} (h : Spans source (expression.language * sign p) i j)
    (ht : t.starts = false) : Stream.token source i ≠ t := by
  intro hi
  have hstarts := starts_expressionStatement h
  rw [hi, ht] at hstarts
  cases hstarts

theorem statementRest_of_starts (ht : t.starts = true) : statementRest t = none := by
  cases t with
  | punct p => cases p <;> first | rfl | cases ht
  | keyword k => cases k <;> first | rfl | cases ht
  | _ => rfl

theorem opens_of_statementRest {l : Language Token} (ht : statementRest t = some l) :
    t.opens = true := by
  unfold statementRest at ht
  split at ht <;> cases ht <;> rfl

theorem statement_of_rest {l : Language Token} (hi : Stream.token source i = t)
    (ht : statementRest t = some l) :
    Spans source statement.language i j ↔ Spans source l (i + 1) j := by
  rw [statement_iff, hi, ht]
  constructor
  · rintro (⟨l', hl, h⟩ | h)
    · cases hl
      exact h
    · have hnone := statementRest_of_starts (starts_expressionStatement h)
      rw [hi, ht] at hnone
      cases hnone
  · exact fun h => .inl ⟨l, rfl, h⟩

theorem statement_of_none (hi : Stream.token source i = t) (ht : statementRest t = none) :
    Spans source statement.language i j ↔
      Spans source (expression.language * sign .semicolon) i j := by
  rw [statement_iff, hi, ht]
  constructor
  · rintro (⟨l, hl, _⟩ | h)
    · cases hl
    · exact h
  · exact .inr

theorem statement_opens (h : Spans source statement.language i j) :
    (Stream.token source i).opens = true := by
  rcases statement_iff.mp h with ⟨l, hl, _⟩ | h
  · exact opens_of_statementRest hl
  · exact Token.opens_of_starts (starts_expressionStatement h)

theorem not_statement (hi : Stream.token source i = t) (ht : t.opens = false) :
    ¬ Spans source statement.language i j := by
  intro hspans
  have hopens := statement_opens hspans
  rw [hi, ht] at hopens
  cases hopens

end Phrase

end Replay
