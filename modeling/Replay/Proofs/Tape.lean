import Replay.Proofs.Lockstep
import Replay.Proofs.Tree
/-!
Tokens that are known in advance.

A cursor that has read a text to some point is a tape: whatever a cursor that has read less sees up
to there, it is what is on the tape.
-/

namespace Replay

open Exec

/-! ## Tokens that start or end an expression or a statement -/

namespace Token

def starts : Token → Bool
  | .integer _ | .real _ | .character _ | .string _ | .identifier _ => true
  | .keyword k => k = .kwTrue || k = .kwFalse
  | .punct p => p = .leftParen || (UnaryOperator.ofPunct? p).isSome
  | .endOfInput => false

def branches : Token → Bool
  | .keyword .kwElif | .keyword .kwElse => true
  | _ => false

def opens : Token → Bool
  | .punct .rightBrace | .endOfInput => false
  | t => !t.branches

variable {t : Token} {level : Nat}

theorem literal_starts (l : Literal) : l.token.starts = true := by
  cases l with
  | boolean b => cases b <;> rfl
  | _ => rfl

theorem unary_starts (op : UnaryOperator) : (Token.punct op.punct).starts = true := by
  cases op <;> rfl

theorem not_punct_of_starts (h : t.starts = true) {p : Punct}
    (hp : (Token.punct p).starts = false) :
    t.isPunct p = false := by
  cases t with
  | punct q =>
    refine decide_eq_false fun hq => ?_
    rw [hq, hp] at h
    cases h
  | _ => rfl

theorem opens_of_starts (h : t.starts = true) : t.opens = true := by
  cases t with
  | punct p => cases p <;> first | rfl | cases h
  | keyword k => cases k <;> first | rfl | cases h
  | endOfInput => cases h
  | _ => rfl

theorem not_branches_of_opens (h : t.opens = true) : t.branches = false := by
  cases t with
  | keyword k => cases k <;> first | rfl | cases h
  | _ => rfl

theorem not_isEnd_of_opens (h : t.opens = true) : t.isEnd = false := by
  cases t with
  | endOfInput => cases h
  | _ => rfl

theorem continues_anti {level' : Nat} (hle : level ≤ level') (h : t.continues level = false) :
    t.continues level' = false := by
  unfold continues at h ⊢
  split
  · exact h
  · simp only [decide_eq_false_iff_not] at h ⊢
    omega
  · simp only [decide_eq_false_iff_not] at h ⊢
    omega
  · next p h₁ h₂ h₃ =>
    cases hop : BinaryOperator.ofPunct? p with
    | none => simpa only [hop] using h
    | some op =>
      simp only [hop, decide_eq_false_iff_not] at h ⊢
      omega
  · rfl

theorem not_leftParen (h : t.continues level = false) : t.isPunct .leftParen = false := by
  cases t with
  | punct p => cases p <;> first | rfl | cases h
  | _ => rfl

theorem not_question (h : t.continues level = false) (hle : level ≤ 2) :
    t.isPunct .question = false := by
  have h₂ := continues_anti hle h
  cases t with
  | punct p => cases p <;> first | rfl | cases h₂
  | _ => rfl

theorem not_comma (h : t.continues 0 = false) : t.isPunct .comma = false := by
  cases t with
  | punct p => cases p <;> first | rfl | cases h
  | _ => rfl

theorem not_equals (h : t.continues level = false) : t.isPunct .equals = false := by
  cases t with
  | punct p => cases p <;> first | rfl | cases h
  | _ => rfl

theorem not_assignment (h : t.continues level = false) : Assignment.ofToken? t = none := by
  cases t with
  | punct p => cases p <;> first | rfl | cases h
  | _ => rfl

theorem rank_lt (h : t.continues level = false) {op : BinaryOperator}
    (hop : BinaryOperator.ofToken? t = some op) :
    op.level < level := by
  cases t with
  | punct p => cases p <;> cases hop <;> simpa [continues, BinaryOperator.ofPunct?] using h
  | _ => cases hop

theorem binary_continues {op : BinaryOperator} (h : op.level < level) :
    (Token.punct op.punct).continues level = false := by
  cases op <;> simpa [continues, BinaryOperator.ofPunct?, BinaryOperator.punct] using h

end Token

theorem Literal.token_ne (l : Literal) (name : String) : l.token ≠ .identifier name := by
  cases l with
  | boolean b => cases b <;> exact Token.noConfusion
  | _ => exact Token.noConfusion

theorem Literal.token_unary (l : Literal) : UnaryOperator.ofToken? l.token = none := by
  cases l with
  | boolean b => cases b <;> rfl
  | _ => rfl

/-! ## The tape -/

namespace Cursor

variable {c tape : Cursor}

def fill : Nat → Cursor → Cursor
  | 0, c => c
  | k + 1, c =>
    match c.readOne with
    | (.ok _, d) => fill k d
    | (.error _, _) => c

theorem fill_grown (k : Nat) (c : Cursor) : c.Grown (c.fill k) := by
  induction k generalizing c with
  | zero => exact .refl c
  | succ k ih =>
    unfold fill
    split
    · next l d hread => exact (Grown.of_readOne hread).trans (ih d)
    · exact .refl c

def marks (tape : Cursor) (i : Nat) : Place :=
  ⟨i, (tape.cache[i]?.map Lexeme.location).getD ⟨0, 0⟩⟩

@[simp] theorem marks_index (tape : Cursor) (i : Nat) : (tape.marks i).index = i := rfl

/-- The token with the number `i` on the tape is `t`. -/
def At (tape : Cursor) (i : Nat) (t : Token) : Prop :=
  ∃ index, tape.cache[i]? = some ⟨t, (tape.marks i).location, index⟩

def Spells (tape : Cursor) : Nat → List Token → Prop
  | _, [] => True
  | i, t :: ts => tape.At i t ∧ tape.Spells (i + 1) ts

/-- Where the token with the number `i` is, an expression of the given level is over. -/
def Stops (tape : Cursor) (level i : Nat) : Prop := ∃ t, tape.At i t ∧ t.continues level = false

theorem at_of_getElem? {i : Nat} {l : Lexeme} (h : tape.cache[i]? = some l) : tape.At i l.token :=
  ⟨l.index, by rw [marks, h]; rfl⟩

theorem At.unique {i : Nat} {t t' : Token} (h : tape.At i t) (h' : tape.At i t') : t = t' := by
  obtain ⟨_, h⟩ := h
  obtain ⟨_, h'⟩ := h'
  exact congrArg Lexeme.token (Option.some.inj (h.symm.trans h'))

theorem spells_append {xs ys : List Token} {i : Nat} :
    tape.Spells i (xs ++ ys) ↔ tape.Spells i xs ∧ tape.Spells (i + xs.length) ys := by
  induction xs generalizing i with
  | nil => simp [Spells]
  | cons x xs ih =>
    simp only [List.cons_append, Spells, ih, List.length_cons, and_assoc]
    rw [show i + 1 + xs.length = i + (xs.length + 1) by omega]

theorem spells_of_drop {ts : List Token} {i : Nat}
    (h : ts <+: (tape.cache.toList.drop i).map Lexeme.token) :
    tape.Spells i ts := by
  induction ts generalizing i with
  | nil => trivial
  | cons t ts ih =>
    obtain ⟨rest, hrest⟩ := h
    cases hl : tape.cache[i]? with
    | none =>
      rw [← Array.getElem?_toList, List.getElem?_eq_none_iff] at hl
      rw [List.drop_eq_nil_of_le hl] at hrest
      cases hrest
    | some l =>
      have hat := at_of_getElem? hl
      rw [← Array.getElem?_toList] at hl
      obtain ⟨hi, hli⟩ := List.getElem?_eq_some_iff.mp hl
      rw [List.drop_eq_getElem_cons hi, List.map_cons, hli, List.cons_append] at hrest
      obtain ⟨rfl, htail⟩ := List.cons.inj hrest
      exact ⟨hat, ih ⟨rest, htail⟩⟩

theorem Stops.mono {level level' i : Nat} (h : tape.Stops level i) (hle : level ≤ level') :
    tape.Stops level' i := by
  obtain ⟨t, hat, ht⟩ := h
  exact ⟨t, hat, Token.continues_anti hle ht⟩

theorem At.stops {t : Token} {i level : Nat} (h : tape.At i t) (ht : t.continues level = false) :
    tape.Stops level i :=
  ⟨t, h, ht⟩

/-- What a cursor looks at is what is on the tape. -/
theorem peek_tape (hc : c.Inside) (hg : c.Grown tape) {l : Lexeme}
    (hl : tape.cache[c.position]? = some l) :
    ∃ d, c.peek = (.ok l, d) ∧ d.Grown tape ∧ c.Grown d ∧ d.position = c.position ∧
      c.position < d.cache.size := by
  rcases peek_cases hc with ⟨l', hl', hp⟩ | ⟨hpos, hp⟩
  · have hlt := (Array.getElem?_eq_some_iff.mp hl').1
    rw [getElem?_of_cache_le hg.cache_le hlt, hl'] at hl
    cases hl
    exact ⟨c, hp, hg, .refl c, rfl, hlt⟩
  · have hlt : c.cache.size < tape.cache.size := hpos ▸ (Array.getElem?_eq_some_iff.mp hl).1
    obtain ⟨l', d, hr, hd⟩ := hg.next_read hlt
    obtain ⟨hcache, hposition, _⟩ := readOne_ok hr
    have hsize : c.position < d.cache.size := by
      rw [hcache, Array.size_push]
      omega
    rw [getElem?_of_cache_le hd.cache_le hsize, hcache, hpos, Array.getElem?_push_size] at hl
    cases hl
    exact ⟨d, hp.trans hr, hd, .of_readOne hr, hposition, hsize⟩

end Cursor
end Replay
