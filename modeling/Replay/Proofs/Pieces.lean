import Replay.Proofs.Rendering
import Replay.Proofs.Tape
/-!
Reading a text piece by piece.

A piece is recognised without a look at the text before it, and as a rule without a look at more
than the next character behind it.  So the tokens at the front of a text are known before the rest
of it is, and a text can be read in parts.
-/

namespace Replay
namespace Lexer

/-- The tokens among the next `n` pieces, and the lexer behind them.  Each of these pieces has to be
a token or trivia. -/
def pieces : Nat → Lexer → Option (List Token × Lexer)
  | 0, l => some ([], l)
  | _ + 1, ⟨[], _, _⟩ => none
  | n + 1, ⟨c :: cs, m, warnings⟩ =>
    let (pattern, tail) := recognise c cs
    match read m pattern (c :: tail) with
    | .skipped => pieces n ⟨cs.drop tail.length, markBehind m pattern (c :: tail), warnings⟩
    | .item (.ok token) more =>
      (pieces n ⟨cs.drop tail.length, markBehind m pattern (c :: tail), warnings ++ more⟩).map
        fun r =>
        (token :: r.1, r.2)
    | .item (.error _) _ => none

def results (l : Lexer) : List (Except Fault Token) := l.items.1.map Item.result

theorem results_of_pieces {n : Nat} {l l' : Lexer} {tokens : List Token}
    (h : l.pieces n = some (tokens, l')) :
    l.results = tokens.map .ok ++ l'.results := by
  fun_induction pieces n l generalizing tokens with
  | case1 l =>
    cases h
    rfl
  | case2 => cases h
  | case3 n c cs m warnings pattern tail hp hr ih =>
    rw [← ih h, results, results, items_of_next_eq (next_of_skipped rfl hp hr)]
  | case4 n c cs m warnings pattern tail hp token more hr ih =>
    obtain ⟨⟨others, final⟩, hothers, heq⟩ := Option.map_eq_some_iff.mp h
    cases heq
    rw [results, items_of_next_some (next_of_item rfl hp hr), List.map_cons, List.map_cons,
      List.cons_append]
    exact congrArg _ (ih hothers)
  | case5 => cases h

theorem results_blank {c : Char} (h : isBlank c = true) (cs : List Char) (m : Mark)
    (warnings : List Warning) :
    results ⟨c :: cs, m, warnings⟩ = results ⟨cs, m.along [c], warnings⟩ := by
  rw [results, results, items_of_next_eq (next_blank h cs m warnings)]

theorem results_integer {n : Int64} (h : 0 ≤ n) {d : Char} (hd : d.isDigit = false)
    (hx : d ≠ 'x' ∧ d ≠ 'X')
    (hpoint : d ≠ '.') (cs : List Char) (m : Mark) (warnings : List Warning) :
    ∃ m', results ⟨Nat.toDigits 10 n.toNatClampNeg ++ d :: cs, m, warnings⟩ =
      .ok (.integer n) :: results ⟨d :: cs, m', warnings⟩ := by
  obtain ⟨c, tail, htext, hpiece, hread⟩ := integer_before h
  have hnext :=
    next_of_item (l := ⟨c :: (tail ++ d :: cs), m, warnings⟩) rfl (hpiece hd hx hpoint cs) (hread m)
  rw [List.drop_left, List.append_nil] at hnext
  rw [htext, List.cons_append, results, items_of_next_some hnext]
  exact ⟨_, rfl⟩

end Lexer

namespace Cursor

/-- A cursor that has read a text to its end has all of its tokens, and the end. -/
theorem tokens_fill {c : Cursor} {tokens : List Token} (h : c.lexer.results = tokens.map .ok) :
    (c.fill (tokens.length + 1)).cache.toList.map Lexeme.token =
      c.cache.toList.map Lexeme.token ++ (tokens ++ [.endOfInput]) := by
  induction tokens generalizing c with
  | nil =>
    cases hn : c.lexer.next with
    | mk item lexer =>
      cases item with
      | none => simp [fill, readOne, hn]
      | some item =>
        rw [Lexer.results, Lexer.items_of_next_some hn] at h
        cases h
  | cons token tokens ih =>
    cases hn : c.lexer.next with
    | mk item lexer =>
      cases item with
      | none =>
        rw [Lexer.results, Lexer.items_of_next_none hn] at h
        cases h
      | some item =>
        rw [Lexer.results, Lexer.items_of_next_some hn, List.map_cons, List.map_cons] at h
        obtain ⟨hresult, hrest⟩ := List.cons.inj h
        have hread : c.readOne = (.ok ⟨token, item.start.location, c.cache.size⟩,
            ⟨lexer, c.cache.push ⟨token, item.start.location, c.cache.size⟩, c.position⟩) := by
          simp only [readOne, hn, hresult]
        rw [List.length_cons, fill, hread]
        simp only
        rw [ih (c := ⟨lexer, _, _⟩) hrest]
        simp

end Cursor
end Replay
