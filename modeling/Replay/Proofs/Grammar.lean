import Mathlib.Computability.Language
import Mathlib.Order.FixedPoints
import Replay.Proofs.Stream
import Replay.Proofs.Tape
/-!
The grammar of scripts.

A phrase is a statement, an expression or a part of one.  Which words of tokens a phrase may consist
of is said by equations between languages, one for each kind of phrase, and the languages are the
smallest ones for which they hold.  The end of the text is in no phrase, and an expression starts
with a token that can start one.
-/

namespace Replay

open Computability

/-! ## Tokens -/

namespace Grammar

def one (kind : Token → Prop) : Language Token := {w | ∃ t, kind t ∧ w = [t]}

def sign (p : Punct) : Language Token := one (· = .punct p)

def word (k : Keyword) : Language Token := one (· = .keyword k)

def name : Language Token := one fun t => ∃ name, t = .identifier name

def literal : Language Token := one fun t => ∃ l : Literal, t = l.token

def prefixSign : Language Token := one fun t => ∃ op : UnaryOperator, t = .punct op.punct

def operator (p : Precedence) : Language Token :=
  one fun t => ∃ op : BinaryOperator, op.precedence = p ∧ t = .punct op.punct

def assignmentSign : Language Token := one fun t => ∃ sign : AssignmentSign, t = .punct sign.punct

/-! ## Phrases -/

def maybe (l : Language Token) : Language Token := 1 + l

def separated (l between : Language Token) : Language Token := l * (between * l)∗

def list (l : Language Token) : Language Token := separated l (sign .comma)

/-- What stands between phrases may as well be taken together with the phrase before it. -/
theorem separated_eq (l between : Language Token) : separated l between = (l * between)∗ * l := by
  apply le_antisymm
  · refine mul_kstar_le ?_ ?_
    · calc l = 1 * l := (one_mul l).symm
        _ ≤ (l * between)∗ * l := mul_le_mul_left one_le_kstar l
    · calc
        (l * between)∗ * l * (between * l) = (l * between)∗ * (l * between) * l := by
          simp only [mul_assoc]
        _ ≤ (l * between)∗ * l := mul_le_mul_left kstar_mul_le_kstar l
  · refine kstar_mul_le ?_ ?_
    · calc l = l * 1 := (mul_one l).symm
        _ ≤ separated l between := mul_le_mul_right one_le_kstar l
    · calc
        l * between * (l * (between * l)∗) = l * (between * l * (between * l)∗) := by
          simp only [mul_assoc]
        _ ≤ separated l between := mul_le_mul_right mul_kstar_le_kstar l

end Grammar

open Grammar

/-- The phrases that are made of each other. -/
inductive Phrase where
  | statement | block
  | expression | assignment | conditional | binary (p : Precedence) | unary | atom

namespace Phrase

section

variable (L : Phrase → Language Token)

def condition : Language Token := sign .leftParen * L expression * sign .rightParen

def branches : Language Token :=
  separated (condition L * L block) (word .kwElif) * maybe (word .kwElse * L block)

def declarations : Language Token := list (name * maybe (sign .equals * L assignment))

def forHead : Language Token :=
  sign .leftParen * maybe (word .kwVar * declarations L + L expression) * sign .semicolon *
    maybe (L expression) * sign .semicolon * maybe (L expression) * sign .rightParen

def parameters : Language Token := sign .leftParen * maybe (list name) * sign .rightParen

def arguments : Language Token := sign .leftParen * maybe (list (L assignment)) * sign .rightParen

def operand (p : Precedence) : Phrase :=
  match p.tighter with
  | some q => binary q
  | none => unary

def parts : Phrase → Language Token
  | statement =>
    L block +
    word .kwIf * branches L +
    word .kwWhile * (condition L * L block) +
    word .kwDo * (L block * word .kwWhile * condition L * sign .semicolon) +
    word .kwFor * (forHead L * L block) +
    word .kwProcedure * (name * parameters * L block) +
    word .kwVar * (declarations L * sign .semicolon) +
    word .kwEval * (L expression * sign .semicolon) +
    word .kwBreak * sign .semicolon +
    word .kwContinue * sign .semicolon +
    word .kwReturn * (maybe (L expression) * sign .semicolon) +
    sign .semicolon +
    L expression * sign .semicolon
  | block => sign .leftBrace * (L statement)∗ * sign .rightBrace
  | expression => list (L assignment)
  | assignment => name * assignmentSign * L assignment + L conditional
  | conditional =>
    L (binary .loosest) * maybe (sign .question * L assignment * sign .colon * L conditional)
  | binary p => separated (L (operand p)) (operator p)
  | unary => prefixSign∗ * L atom
  | atom => literal + name * maybe (arguments L) + sign .leftParen * L expression * sign .rightParen

end

theorem parts_mono {L M : Phrase → Language Token} (h : ∀ n, ∀ w ∈ L n, w ∈ M n) (n : Phrase) :
    ∀ w ∈ parts L n, w ∈ parts M n := by
  show parts L n ≤ parts M n
  cases n <;> dsimp only [parts, condition, branches, declarations, forHead, arguments, list,
    separated, maybe] <;>
    repeat' apply add_le_add
  all_goals apply_rules [add_le_add, mul_le_mul', kstar_mono, le_refl, h _]

/-- The words that a phrase may consist of: the smallest sets of words that agree with the parts of
phrases. -/
def language : Phrase → Language Token := OrderHom.lfp ⟨parts, fun _ _ => parts_mono⟩

theorem language_eq (n : Phrase) : n.language = parts language n :=
  congrFun (OrderHom.map_lfp ⟨parts, fun _ _ => parts_mono⟩).symm n

end Phrase

/-! ## No end in a phrase -/

def Grammar.Endless (l : Language Token) : Prop := ∀ w ∈ l, .endOfInput ∉ w

namespace Grammar.Endless

variable {l l' : Language Token}

theorem one {kind : Token → Prop} (h : ¬ kind .endOfInput) : Endless (one kind) := by
  rintro w ⟨t, ht, rfl⟩ hmem
  rw [List.mem_singleton.mp hmem] at h
  exact h ht

theorem sign (p : Punct) : Endless (sign p) := one fun h => by cases h

theorem word (k : Keyword) : Endless (word k) := one fun h => by cases h

theorem name : Endless name := one fun ⟨_, h⟩ => by cases h

theorem literal : Endless literal := by
  refine one fun ⟨l, hl⟩ => ?_
  have hstarts := Token.literal_starts l
  rw [← hl] at hstarts
  cases hstarts

theorem prefixSign : Endless prefixSign := one fun ⟨_, h⟩ => by cases h

theorem operator (p : Precedence) : Endless (operator p) := one fun ⟨_, _, h⟩ => by cases h

theorem assignmentSign : Endless assignmentSign := one fun ⟨_, h⟩ => by cases h

theorem add (h : Endless l) (h' : Endless l') : Endless (l + l') := by
  intro w hw
  rcases (Language.mem_add _ _ _).mp hw with hw | hw
  · exact h w hw
  · exact h' w hw

theorem mul (h : Endless l) (h' : Endless l') : Endless (l * l') := by
  intro w hw hmem
  obtain ⟨a, ha, b, hb, rfl⟩ := Language.mem_mul.mp hw
  rcases List.mem_append.mp hmem with hmem | hmem
  · exact h a ha hmem
  · exact h' b hb hmem

theorem star (h : Endless l) : Endless l∗ := by
  intro w hw hmem
  obtain ⟨ws, rfl, hws⟩ := Language.mem_kstar.mp hw
  obtain ⟨v, hv, hmem⟩ := List.mem_flatten.mp hmem
  exact h v (hws v hv) hmem

theorem nil : Endless 1 := by
  intro w hw
  rw [(Language.mem_one w).mp hw]
  exact List.not_mem_nil

theorem maybe (h : Endless l) : Endless (maybe l) := nil.add h

end Grammar.Endless

theorem Phrase.language_endless (n : Phrase) : Endless n.language := by
  have hle : Phrase.language ≤ fun _ => {w | .endOfInput ∉ w} := by
    refine OrderHom.lfp_le ⟨parts, fun _ _ => parts_mono⟩ fun n => ?_
    have hparts : Endless (parts (fun _ => {w | .endOfInput ∉ w}) n) := by
      have hphrase : Endless {w | .endOfInput ∉ w} := fun w hw => hw
      cases n <;> dsimp only [parts, condition, branches, declarations, forHead, parameters,
        arguments] <;>
        repeat' apply Endless.add
      all_goals
        apply_rules [Endless.nil, Endless.mul, Endless.star, Endless.maybe, Endless.add,
          Endless.sign, Endless.word, Endless.name, Endless.literal, Endless.prefixSign,
          Endless.operator, Endless.assignmentSign]
    exact hparts
  exact hle n

/-! ## Words in a text -/

namespace Stream

def token (source : String) (i : Nat) : Token := (lexeme source i).token

/-- The tokens from number `i` on up to number `j`. -/
def words (source : String) (i j : Nat) : List Token := (List.range' i (j - i)).map (token source)

variable {source : String} {i j k : Nat}

theorem words_self (i : Nat) : words source i i = [] := by
  rw [words, Nat.sub_self]
  rfl

theorem words_succ (i : Nat) : words source i (i + 1) = [token source i] := by
  rw [words, Nat.add_sub_cancel_left]
  rfl

theorem length_words (i j : Nat) : (words source i j).length = j - i := by
  rw [words, List.length_map, List.length_range']

theorem words_append (hik : i ≤ k) (hkj : k ≤ j) :
    words source i k ++ words source k j = words source i j := by
  have hrange := List.range'_append_1 (s := i) (m := k - i) (n := j - k)
  rw [show i + (k - i) = k by omega, show k - i + (j - k) = j - i by omega] at hrange
  rw [words, words, words, ← List.map_append, hrange]

/-- Where a word is put together from two words there is a place between them. -/
theorem words_split (hij : i ≤ j) {a b : List Token} (h : words source i j = a ++ b) :
    ∃ k, i ≤ k ∧ k ≤ j ∧ words source i k = a ∧ words source k j = b := by
  have hlength : a.length + b.length = j - i := by rw [← List.length_append, ← h, length_words]
  have hsplit : words source i (i + a.length) ++ words source (i + a.length) j = a ++ b := by
    rw [words_append (by omega) (by omega), h]
  obtain ⟨ha, hb⟩ := List.append_inj hsplit (by rw [length_words]; omega)
  exact ⟨i + a.length, by omega, by omega, ha, hb⟩

end Stream

/-- The tokens from number `i` on up to number `j` are a word of the language. -/
def Spans (source : String) (l : Language Token) (i j : Nat) :
    Prop := i ≤ j ∧ Stream.words source i j ∈ l

namespace Spans

variable {source : String} {l l' : Language Token} {kind : Token → Prop} {i j : Nat}

theorem add_iff : Spans source (l + l') i j ↔ Spans source l i j ∨ Spans source l' i j := by
  simp only [Spans, Language.mem_add, and_or_left]

theorem nil_iff : Spans source 1 i j ↔ i = j := by
  constructor
  · rintro ⟨hle, hnil⟩
    have hlength := congrArg List.length ((Language.mem_one _).mp hnil)
    rw [Stream.length_words, List.length_nil] at hlength
    omega
  · rintro rfl
    exact ⟨Nat.le_refl i, (Language.mem_one _).mpr (Stream.words_self i)⟩

theorem one_iff : Spans source (one kind) i j ↔ j = i + 1 ∧ kind (Stream.token source i) := by
  constructor
  · rintro ⟨hle, t, ht, hwords⟩
    have hlength := congrArg List.length hwords
    rw [Stream.length_words, List.length_singleton] at hlength
    obtain rfl : j = i + 1 := by omega
    rw [Stream.words_succ] at hwords
    rw [List.head_eq_of_cons_eq hwords]
    exact ⟨rfl, ht⟩
  · rintro ⟨rfl, ht⟩
    exact ⟨Nat.le_succ i, _, ht, Stream.words_succ i⟩

theorem mul_iff : Spans source (l * l') i j ↔ ∃ k, Spans source l i k ∧ Spans source l' k j := by
  constructor
  · rintro ⟨hle, hmul⟩
    obtain ⟨a, ha, b, hb, hwords⟩ := Language.mem_mul.mp hmul
    obtain ⟨k, hik, hkj, rfl, rfl⟩ := Stream.words_split hle hwords.symm
    exact ⟨k, ⟨hik, ha⟩, hkj, hb⟩
  · rintro ⟨k, ⟨hik, hl⟩, hkj, hl'⟩
    exact ⟨Nat.le_trans hik hkj, Language.mem_mul.mpr ⟨_, hl, _, hl', Stream.words_append hik hkj⟩⟩

theorem one_mul_iff :
    Spans source (one kind * l) i j ↔ kind (Stream.token source i) ∧ Spans source l (i + 1) j := by
  rw [mul_iff]
  constructor
  · rintro ⟨k, hone, hl⟩
    obtain ⟨rfl, ht⟩ := one_iff.mp hone
    exact ⟨ht, hl⟩
  · rintro ⟨ht, hl⟩
    exact ⟨i + 1, one_iff.mpr ⟨rfl, ht⟩, hl⟩

theorem maybe_iff : Spans source (maybe l) i j ↔ i = j ∨ Spans source l i j := by
  rw [maybe, add_iff, nil_iff]

/-- Words one after the other are steps one after the other. -/
theorem star_iff : Spans source l∗ i j ↔ Relation.ReflTransGen (Spans source l) i j := by
  constructor
  · rintro ⟨hle, hstar⟩
    obtain ⟨ws, hwords, hws⟩ := Language.mem_kstar.mp hstar
    induction ws generalizing i with
    | nil =>
      obtain rfl := nil_iff.mp ⟨hle, (Language.mem_one _).mpr hwords⟩
      exact .refl
    | cons w ws ih =>
      obtain ⟨k, hik, hkj, rfl, hrest⟩ := Stream.words_split hle hwords
      have hmore : ∀ v ∈ ws, v ∈ l := fun v hv => hws v (List.mem_cons_of_mem _ hv)
      exact .head ⟨hik, hws _ List.mem_cons_self⟩
        (ih hkj (Language.mem_kstar.mpr ⟨ws, hrest, hmore⟩) hrest hmore)
  · intro h
    induction h with
    | refl => exact ⟨Nat.le_refl i, by rw [Stream.words_self]; exact Language.nil_mem_kstar l⟩
    | tail hsteps hstep ih =>
      have hmul := mul_iff.mpr ⟨_, ih, hstep⟩
      have hstar : l∗ * l ≤ l∗ := kstar_mul_le_kstar
      exact ⟨hmul.1, hstar hmul.2⟩

theorem first_sign {p : Punct} (h : Spans source (sign p) i j) : Stream.token source i = .punct p :=
  (one_iff.mp h).2

theorem star_mul_cases (h : Spans source (l∗ * l') i j) :
    Spans source l' i j ∨ ∃ k, Spans source l i k ∧ Spans source (l∗ * l') k j := by
  obtain ⟨k, hsteps, hlast⟩ := mul_iff.mp h
  rcases (star_iff.mp hsteps).cases_head with rfl | ⟨k', hfirst, hsteps⟩
  · exact .inl hlast
  · exact .inr ⟨k', hfirst, mul_iff.mpr ⟨k, star_iff.mpr hsteps, hlast⟩⟩

end Spans

/-! ## First tokens -/

/-- To say something about all levels of operators, from those that bind most tightly on. -/
theorem Precedence.climb {P : Precedence → Prop} (h : ∀ p, (∀ q, p.tighter = some q → P q) → P p)
    (p : Precedence) :
    P p :=
  h p fun q _hq => climb h q
termination_by 10 - p.rank
decreasing_by cases p <;> cases _hq <;> decide

namespace Phrase

variable {source : String} {i j : Nat}

theorem operand_eq (p : Precedence) :
    (∃ q, p.tighter = some q ∧ operand p = binary q) ∨ operand p = unary := by
  unfold operand
  cases p.tighter with
  | none => exact .inr rfl
  | some q => exact .inl ⟨q, rfl, rfl⟩

theorem starts_atom (h : Spans source atom.language i j) :
    (Stream.token source i).starts = true := by
  rw [language_eq, parts, Spans.add_iff, Spans.add_iff, literal, name, sign, mul_assoc,
    Spans.one_mul_iff, Spans.one_mul_iff, Spans.one_iff] at h
  rcases h with (⟨_, l, hl⟩ | ⟨⟨name, hname⟩, _⟩) | ⟨hparen, _⟩
  · rw [hl]
    exact Token.literal_starts l
  · rw [hname]
    rfl
  · rw [hparen]
    rfl

theorem starts_unary (h : Spans source unary.language i j) :
    (Stream.token source i).starts = true := by
  rw [language_eq, parts, Spans.mul_iff] at h
  obtain ⟨k, hprefixes, hatom⟩ := h
  rw [Spans.star_iff] at hprefixes
  rcases hprefixes.cases_head with rfl | ⟨_, hfirst, _⟩
  · exact starts_atom hatom
  · obtain ⟨_, op, hop⟩ := Spans.one_iff.mp hfirst
    rw [hop]
    exact Token.unary_starts op

theorem starts_binary (p : Precedence) (h : Spans source (binary p).language i j) :
    (Stream.token source i).starts = true := by
  induction p using Precedence.climb generalizing j with
  | h p ih =>
    rw [language_eq, parts, separated, Spans.mul_iff] at h
    obtain ⟨k, hfirst, _⟩ := h
    rcases operand_eq p with ⟨q, hq, heq⟩ | heq
    · rw [heq] at hfirst
      exact ih q hq hfirst
    · rw [heq] at hfirst
      exact starts_unary hfirst

theorem starts_conditional (h : Spans source conditional.language i j) :
    (Stream.token source i).starts = true := by
  rw [language_eq, parts, Spans.mul_iff] at h
  obtain ⟨k, hbinary, _⟩ := h
  exact starts_binary _ hbinary

theorem starts_assignment (h : Spans source assignment.language i j) :
    (Stream.token source i).starts = true := by
  rw [language_eq, parts, Spans.add_iff, mul_assoc, name, Spans.one_mul_iff] at h
  rcases h with ⟨⟨name, hname⟩, _⟩ | hconditional
  · rw [hname]
    rfl
  · exact starts_conditional hconditional

theorem starts_expression (h : Spans source expression.language i j) :
    (Stream.token source i).starts = true := by
  rw [language_eq, parts, list, separated, Spans.mul_iff] at h
  obtain ⟨k, hfirst, _⟩ := h
  exact starts_assignment hfirst

end Phrase
end Replay
