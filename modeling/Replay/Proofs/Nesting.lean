import Replay.Proofs.Grammar.Phrases
import Replay.Proofs.Locations
/-!
Braces around a token.

Which braces stand around a token can be told from the tokens before it: a brace belongs to the last
loop or procedure that was announced and has no braces yet, and to nothing if there is none.  Where
a jump leads to is a matter of these braces alone.
-/

namespace Replay

/-! ## Braces -/

/-- What a pair of braces is the body of.  A loop is known by the number of its first token. -/
inductive Brace where
  | block
  | loop (keyword : Nat)
  | procedure
deriving DecidableEq

namespace Brace

/-- Whether a jump with this keyword ends at such braces. -/
def takes : Brace → Keyword → Bool
  | loop _, .kwBreak | loop _, .kwContinue | procedure, .kwReturn => true
  | _, _ => false

def opening (i : Nat) : Token → Brace
  | .keyword .kwWhile | .keyword .kwDo | .keyword .kwFor => loop i
  | _ => block

end Brace

/-- The innermost braces that take the jump, if there are any in the procedure it is in. -/
def target? (keyword : Keyword) : List Brace → Option Brace
  | [] => none
  | b :: outer =>
    if b.takes keyword then some b
    else if b = .procedure then none
    else target? keyword outer

/-- A `break` or `continue` without a loop around it in its procedure, or a `return` without a
procedure. -/
def Misplaced (keyword : Keyword) (braces : List Brace) : Prop :=
  match keyword with
  | .kwBreak | .kwContinue => ∀ i, .loop i ∉ braces.takeWhile (· ≠ .procedure)
  | .kwReturn => .procedure ∉ braces
  | _ => False

section Targets

variable {keyword : Keyword} {braces : List Brace}

@[simp]
theorem target?_nil (keyword : Keyword) : target? keyword [] = none := rfl

@[simp]
theorem target?_block (keyword : Keyword) (braces : List Brace) :
    target? keyword (.block :: braces) = target? keyword braces := rfl

theorem target?_of_takes {b : Brace} (h : b.takes keyword = true) (braces : List Brace) :
    target? keyword (b :: braces) = some b := by
  rw [target?, if_pos h]

@[simp]
theorem target?_return_loop (i : Nat) (braces : List Brace) :
    target? .kwReturn (.loop i :: braces) = target? .kwReturn braces := rfl

theorem target?_procedure (h : keyword ≠ .kwReturn) (braces : List Brace) :
    target? keyword (.procedure :: braces) = none := by
  cases keyword <;> first | rfl | exact absurd rfl h

/-- A jump is misplaced if there is nowhere to go. -/
theorem target?_eq_none_iff (h : keyword = .kwBreak ∨ keyword = .kwContinue ∨ keyword = .kwReturn) :
    target? keyword braces = none ↔ Misplaced keyword braces := by
  induction braces with
  | nil => rcases h with rfl | rfl | rfl <;> simp [Misplaced]
  | cons b outer ih =>
    cases b with
    | block => rcases h with rfl | rfl | rfl <;> simpa [Misplaced] using ih
    | loop i =>
      rcases h with rfl | rfl | rfl
      · exact iff_of_false (by simp [target?, Brace.takes]) fun hno => hno i (by simp)
      · exact iff_of_false (by simp [target?, Brace.takes]) fun hno => hno i (by simp)
      · simpa [Misplaced] using ih
    | procedure => rcases h with rfl | rfl | rfl <;> simp [Misplaced, target?, Brace.takes]

end Targets

/-! ## The tokens before -/

/-- The braces that are open, the innermost ones first.  `ahead` is what the next ones belong to.  A
semicolon ends what was announced, but not those in the head of a loop: `depth` is the number of
open parentheses. -/
structure Nesting where
  braces : List Brace
  ahead : Brace
  depth : Nat
deriving DecidableEq

namespace Nesting

def outermost : Nesting := ⟨[], .block, 0⟩

def step (n : Nesting) (i : Nat) : Token → Nesting
  | .keyword .kwWhile | .keyword .kwDo | .keyword .kwFor => { n with ahead := .loop i }
  | .keyword .kwProcedure => { n with ahead := .procedure }
  | .punct .leftParen => { n with depth := n.depth + 1 }
  | .punct .rightParen => { n with depth := n.depth - 1 }
  | .punct .semicolon => if n.depth = 0 then { n with ahead := .block } else n
  | .punct .leftBrace => ⟨n.ahead :: n.braces, .block, 0⟩
  | .punct .rightBrace => ⟨n.braces.tail, .block, 0⟩
  | _ => n

theorem step_binary {op : BinaryOperator} {t : Token} (h : BinaryOperator.ofToken? t = some op)
    (n : Nesting) (i : Nat) : n.step i t = n := by
  rw [BinaryOperator.of_token h]
  cases op <;> rfl

theorem step_unary {op : UnaryOperator} {t : Token} (h : UnaryOperator.ofToken? t = some op)
    (n : Nesting) (i : Nat) :
    n.step i t = n := by
  rw [UnaryOperator.of_token h]
  cases op <;> rfl

theorem step_assignment {meaning : Assignment} {t : Token}
    (h : Assignment.ofToken? t = some meaning) (n : Nesting) (i : Nat) : n.step i t = n := by
  cases t with
  | punct p => cases p <;> first | rfl | cases h
  | _ => cases h

end Nesting

namespace Stream

/-- What stands around the token with the number `i`. -/
def nesting (source : String) : Nat → Nesting
  | 0 => .outermost
  | i + 1 => (nesting source i).step i (token source i)

end Stream

/-! ## Places -/

theorem lastLine_append (text : List Char) {more : List Char} (h : '\n' ∉ more) :
    lastLine (text ++ more) = lastLine text ++ more := by
  have hmore : ∀ c ∈ more.reverse, decide (c ≠ '\n') = true := by
    intro c hc
    have hne : c ≠ '\n' := fun heq => h (heq ▸ List.mem_reverse.mp hc)
    exact decide_eq_true hne
  rw [lastLine, List.reverse_append, List.takeWhile_append_of_pos hmore, List.reverse_append,
    List.reverse_reverse]
  rfl

/-- What comes later in a text has another place. -/
theorem Location.eq_nil_of_behind {text more : List Char}
    (h : behind (text ++ more) = behind text) : more = [] := by
  have hlines := congrArg Location.line h
  have hcolumns := congrArg Location.column h
  simp only [behind, List.count_append] at hlines hcolumns
  have hfeeds : more.count '\n' = 0 := by omega
  rw [lastLine_append text (List.count_eq_zero.mp hfeeds), byteLength_append] at hcolumns
  cases more with
  | nil => rfl
  | cons c rest =>
    have hsize := c.utf8Size_pos
    rw [byteLength_cons] at hcolumns
    omega

namespace Lexer.Past

variable {source before : List Char} {l l' : Lexer} {item : Item}

theorem next_behind (h : l.Past source before) (hn : l.next = (some item, l')) :
    ∃ between, before <+: between ∧ item.start.Exact between ∧ item.text ≠ [] ∧
      l'.Past source (between ++ item.text) := by
  fun_induction next l generalizing before with
  | case1 l hl => cases hn
  | case2 l c cs hl pattern tail hp text behind hr =>
    rename_i ih
    obtain ⟨between, hle, hrest⟩ := ih (h.behind hl hp l.warnings) hn
    exact ⟨between, (List.prefix_append _ _).trans hle, hrest⟩
  | case3 l c cs hl pattern tail hp text behind result warnings =>
    cases hn
    exact ⟨before, List.prefix_refl _, h.mark, List.cons_ne_nil c tail, h.behind hl hp _⟩

/-- Every item has a place of its own, and none is at the end of the text. -/
theorem places (h : l.Past source before) :
    (∀ item ∈ l.items.1,
      ∃ between more, item.start.location = .behind (before ++ between) ∧ more ≠ [] ∧
      source = before ++ between ++ more) ∧
    l.items.1.Pairwise fun a b => a.start.location ≠ b.start.location := by
  fun_induction Lexer.items l generalizing before with
  | case1 l l' hn => exact ⟨fun item hitem => absurd hitem List.not_mem_nil, .nil⟩
  | case2 l item l' hn others final hitems ih =>
    obtain ⟨_, ⟨between, rfl⟩, hstart, htext, hpast⟩ := h.next_behind hn
    rw [hitems] at ih
    obtain ⟨hothers, hpairs⟩ := ih hpast
    refine ⟨fun found hfound => ?_, List.pairwise_cons.mpr ⟨fun found hfound heq => ?_, hpairs⟩⟩
    · rcases List.mem_cons.mp hfound with rfl | hfound
      · refine ⟨between, found.text ++ l'.rest, hstart.location, by simp [htext], ?_⟩
        rw [← List.append_assoc]
        exact hpast.split
      · obtain ⟨later, more, hlocation, hmore, hsplit⟩ := hothers found hfound
        refine ⟨between ++ item.text ++ later, more, ?_, hmore, ?_⟩
        · simpa only [List.append_assoc] using hlocation
        · simpa only [List.append_assoc] using hsplit
    · obtain ⟨later, more, hlocation, _⟩ := hothers found hfound
      rw [hlocation, hstart.location, List.append_assoc] at heq
      have hnil := Location.eq_nil_of_behind heq.symm
      exact htext (List.append_eq_nil_iff.mp hnil).1

end Lexer.Past

namespace Stream

variable {source : String}

theorem exists_item {t : Token} {location : Location} (h : (t, location) ∈ tokens source) :
    ∃ item ∈ items source, item.start.location = location := by
  obtain ⟨item, hitem, htoken⟩ := List.mem_filterMap.mp h
  unfold Lexer.Item.token? at htoken
  split at htoken <;> cases htoken
  exact ⟨item, hitem, rfl⟩

theorem tokens_apart (source : String) : (tokens source).Pairwise fun a b => a.2 ≠ b.2 := by
  refine (Lexer.Past.ofSource source).places.2.filterMap _ fun a b hne t ht u hu => ?_
  unfold Lexer.Item.token? at ht hu
  split at ht <;> cases ht
  split at hu <;> cases hu
  exact hne

theorem ne_ending {t : Token} {location : Location} (h : (t, location) ∈ tokens source) :
    location ≠ ending source := by
  obtain ⟨item, hitem, rfl⟩ := exists_item h
  obtain ⟨between, more, hlocation, hmore, hsplit⟩ :=
    (Lexer.Past.ofSource source).places.1 item hitem
  have hend : ending source = .behind source.toList :=
    (Mark.Exact.start.afterAll source.toList).location
  rw [hend, hlocation, hsplit]
  exact fun heq => hmore (Location.eq_nil_of_behind heq.symm)

/-- Where a token stands no other one stands, and the text does not end there. -/
theorem location_inj {i j : Nat} (hi : token source i ≠ .endOfInput)
    (h : (lexeme source j).location = (lexeme source i).location) : j = i := by
  unfold token at hi
  unfold lexeme at hi h
  split at hi
  swap
  · exact absurd rfl hi
  · next t location hti =>
    rw [hti] at h
    split at h
    · next u place htj =>
      obtain ⟨hlti, hgeti⟩ := List.getElem?_eq_some_iff.mp hti
      obtain ⟨hltj, hgetj⟩ := List.getElem?_eq_some_iff.mp htj
      have hpairs := List.pairwise_iff_getElem.mp (tokens_apart source)
      rcases Nat.lt_trichotomy i j with hlt | rfl | hlt
      · refine absurd ?_ (hpairs i j hlti hltj hlt)
        rw [hgeti, hgetj]
        exact h.symm
      · rfl
      · refine absurd ?_ (hpairs j i hltj hlti hlt)
        rw [hgeti, hgetj]
        exact h
    · exact absurd h.symm (ne_ending (List.mem_of_getElem? hti))

end Stream

end Replay
