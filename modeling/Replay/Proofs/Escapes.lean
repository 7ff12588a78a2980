import Replay.Proofs.Decoding
import Replay.Proofs.Rendering
/-!
What a quoted literal stands for.

A literal is found by looking at backslashes and the characters behind them; its text is then gone
through once more for the escapes, some of which are longer than that.  The two agree: no escape is
cut off by the end of the literal without being rejected for another reason first.
-/

namespace Replay

/-! ## Literals -/

inductive LiteralBody (quote : Char) : List Char → Prop where
  | nil : LiteralBody quote []
  | plain {c : Char} {cs : List Char} :
    c ≠ quote → c ≠ Text.backslash → c ≠ '\n' → LiteralBody quote cs → LiteralBody quote (c :: cs)
  | pair {c : Char} {cs : List Char} :
    c ≠ '\n' → LiteralBody quote cs → LiteralBody quote (Text.backslash :: c :: cs)

/-! ## No escape is cut off -/

/-- The characters of a byte are not backslashes, so each of them stands for itself in the literal
too. -/
theorem Piece.Accepted.ne_backslash {a b : Char} (h : Accepted [a, b]) :
    a ≠ Text.backslash ∧ b ≠ Text.backslash := by
  have hslash : ¬HexDigit Text.backslash := by decide
  constructor
  · intro ha
    rw [ha] at h
    exact h.1.elim hslash (by decide)
  · intro hb
    rw [hb] at h
    exact hslash h.2

namespace LiteralBody

variable {quote c : Char} {cs text : List Char}

theorem behind_plain (h : LiteralBody quote (c :: cs)) (hc : c ≠ Text.backslash) :
    LiteralBody quote cs := by
  cases h with
  | plain _ _ _ hcs => exact hcs
  | pair => exact absurd rfl hc

theorem behind_pair (h : LiteralBody quote (Text.backslash :: c :: cs)) : LiteralBody quote cs := by
  cases h with
  | plain _ hslash => exact absurd rfl hslash
  | pair _ hcs => exact hcs

theorem not_lone : ¬LiteralBody quote [Text.backslash] := by
  intro h
  cases h with
  | plain _ hslash => exact absurd rfl hslash

/-- Along the pieces: behind an accepted byte the literal goes on with a piece of its own, and
behind another one nothing is looked at. -/
theorem not_dangling (h : LiteralBody quote text) : firstFlaw? text ≠ some .dangling := by
  unfold firstFlaw?
  fun_induction pieces text with
  | case1 => simp
  | case2 a b cs ih =>
    by_cases hd : Piece.Accepted [a, b]
    · have hcs := (h.behind_pair.behind_plain (Piece.Accepted.ne_backslash hd).1).behind_plain
        (Piece.Accepted.ne_backslash hd).2
      simpa [List.findSome?_cons, Piece.flaw?, hd] using ih hcs
    · simp [Piece.flaw?, hd]
  | case3 cs hcs =>
    by_cases hd : Piece.Accepted cs <;> simp [Piece.flaw?, hd]
  | case4 => exact absurd h not_lone
  | case5 c cs _ _ ih => exact ih h.behind_pair
  | case6 c cs _ _ hlone hpair ih =>
    have hc : c ≠ Text.backslash := by
      intro hc
      cases cs with
      | nil => exact hlone hc rfl
      | cons c' cs => exact hpair c' cs hc rfl
    exact ih (h.behind_plain hc)

/-- The lexer finds the quote that closes the literal. -/
theorem quotedTail?_eq (h : LiteralBody quote text) (hquote : quote ≠ Text.backslash)
    (rest : List Char) :
    Lexer.quotedTail? quote (text ++ quote :: rest) = some (text ++ [quote]) := by
  induction h with
  | nil =>
    rw [List.nil_append, Lexer.quotedTail?, if_pos rfl]
    · rfl
    · exact hquote
  | plain hc hslash hline _ ih =>
    rw [List.cons_append, Lexer.quotedTail?_plain ⟨hline, hslash, hc⟩, ih]; rfl
  | pair hline _ ih =>
    rw [List.cons_append, List.cons_append, Lexer.quotedTail?_escape hline, ih]; rfl

end LiteralBody

theorem firstFlaw?_eq_none_iff {quote : Char} {text : List Char} (h : LiteralBody quote text) :
    firstFlaw? text = none ↔ ∀ digits, .byte digits ∈ pieces text → Piece.Accepted digits := by
  constructor
  · intro hnone digits hmem
    have hflaw := List.findSome?_eq_none_iff.mp hnone _ hmem
    by_cases hd : Piece.Accepted digits
    · exact hd
    · simp [Piece.flaw?, hd] at hflaw
  · intro hall
    cases hfirst : firstFlaw? text with
    | none => rfl
    | some flaw =>
      obtain ⟨p, hp, hflaw⟩ := List.exists_of_findSome?_eq_some hfirst
      cases p with
      | plain c => cases hflaw
      | escape c => cases hflaw
      | byte digits => simp [Piece.flaw?, hall digits hp] at hflaw
      | dangling =>
        cases hflaw
        exact absurd hfirst h.not_dangling

namespace Lexer

/-! ## The literals of a script -/

theorem unescape?_eq_some_iff {quote : Char} {text : List Char}
    (h : LiteralBody quote text) (m : Mark) (chars : List Char) (warnings : List Warning) :
    unescape? m text = some (chars, warnings) ↔
      (∀ digits, .byte digits ∈ pieces text → Piece.Accepted digits) ∧
        chars = (pieces text).map Piece.meaning ∧ warnings = warningsFrom m (pieces text) := by
  rw [← firstFlaw?_eq_none_iff h, unescape?_eq, decoded?, firstFlaw?]
  cases (pieces text).findSome? Piece.flaw? with
  | none => simp [eq_comm]
  | some flaw => simp

theorem body_quoted (quote : Char) (text : List Char) :
    body (quote :: (text ++ [quote])) = text := by
  rw [body, List.drop_succ_cons, List.drop_zero, List.dropLast_concat]

variable {l : Lexer} {quote : Char} {text : List Char}

/-- A literal is one piece. -/
theorem next_quoted (kind : Pattern) (rest : List Char) (h : LiteralBody quote text)
    (hslash : quote ≠ Text.backslash) (hl : l.rest = quote :: (text ++ quote :: rest))
    (hstart : ∀ cs, recognise quote cs = quoted quote kind cs)
    (hkind : kind.breaks = false) {result : Except Fault Token} {warnings : List Warning}
    (hr : read l.mark kind (quote :: (text ++ [quote])) = .item result warnings) :
    l.next = (some ⟨l.mark, quote :: (text ++ [quote]), result⟩,
      ⟨rest, l.mark.along (quote :: (text ++ [quote])), l.warnings ++ warnings⟩) := by
  have hpiece : recognise quote (text ++ quote :: rest) = (kind, text ++ [quote]) := by
    rw [hstart, quoted, h.quotedTail?_eq hslash]
  rw [next_of_item hl hpiece hr, markBehind, hkind]
  have hrest : text ++ quote :: rest = text ++ [quote] ++ rest := by simp
  rw [hrest, List.drop_left]
  rfl

/-- Between single quotes there is a token if one character is left. -/
theorem readCharacter_quoted (m : Mark) (quote : Char) (text : List Char) :
    ∃ result, readCharacter m (quote :: (text ++ [quote])) =
      .item result (((unescape? m text).map Prod.snd).getD []) ∧
      (∀ token, result = .ok token ↔
        ∃ c, token = .character c ∧ (unescape? m text).map Prod.fst = some [c]) ∧
      ∀ fault, result = .error fault → fault = .malformed .character := by
  unfold readCharacter
  rw [body_quoted]
  cases unescape? m text with
  | none => exact ⟨_, rfl, by simp, by simp [eq_comm]⟩
  | some decoded =>
    obtain ⟨chars, warnings⟩ := decoded
    cases chars with
    | nil => exact ⟨_, rfl, by simp, by simp [eq_comm]⟩
    | cons c chars =>
      cases chars with
      | nil => exact ⟨_, rfl, by simp [eq_comm], by simp⟩
      | cons c' chars => exact ⟨_, rfl, by simp, by simp [eq_comm]⟩

/-- Between double quotes any text is a token. -/
theorem readString_quoted (m : Mark) (quote : Char) (text : List Char) :
    ∃ result, readString m (quote :: (text ++ [quote])) =
      .item result (((unescape? m text).map Prod.snd).getD []) ∧
      (∀ token, result = .ok token ↔
        ∃ chars, token = .string (String.ofList chars) ∧
        (unescape? m text).map Prod.fst = some chars) ∧
      ∀ fault, result = .error fault → fault = .malformed .string := by
  unfold readString
  rw [body_quoted]
  cases unescape? m text with
  | none => exact ⟨_, rfl, by simp, by simp [eq_comm]⟩
  | some decoded =>
    obtain ⟨chars, warnings⟩ := decoded
    exact ⟨_, rfl, by simp [eq_comm], by simp⟩

end Lexer

theorem Piece.accepted_iff_twoDigits {digits : List Char} (h : ∀ b, digits ≠ ['+', b]) :
    Accepted digits ↔ TwoDigits digits := by
  unfold Accepted TwoDigits
  split
  · next a b =>
    have ha : a ≠ '+' := by
      rintro rfl
      exact h b rfl
    simp [ha]
  · rfl

/-- A literal is decoded piece by piece.  It has a decoding if every byte in it is given by two
hexadecimal digits or by a plus sign and one, and then each escape stands for what the table says,
or else for its own character with a warning.  No backslash is left without a character.  Between
single quotes there has to be one character in the end. -/
theorem quoted_literals_decoded {quote : Char}
    (hquote : quote = Text.singleQuote ∨ quote = Text.doubleQuote)
    {text : List Char} (h : LiteralBody quote text) (l : Lexer) (rest : List Char)
    (hl : l.rest = quote :: (text ++ quote :: rest)) :
    (pieces text).flatMap Piece.text = text ∧
    firstFlaw? text ≠ some .dangling ∧
    (∀ m chars warnings, Lexer.unescape? m text = some (chars, warnings) ↔
      (∀ digits, .byte digits ∈ pieces text → Piece.Accepted digits) ∧
        chars = (pieces text).map Piece.meaning ∧ warnings = warningsFrom m (pieces text)) ∧
    ((∀ b, .byte ['+', b] ∉ pieces text) → ∀ m, (Lexer.unescape? m text).isSome ↔
      ∀ digits, .byte digits ∈ pieces text → Piece.TwoDigits digits) ∧
    ∃ result,
      l.next = (some ⟨l.mark, quote :: (text ++ [quote]), result⟩,
        ⟨rest, l.mark.along (quote :: (text ++ [quote])),
          l.warnings ++ ((Lexer.unescape? (l.mark.along [quote]) text).map Prod.snd).getD []⟩) ∧
      (quote = Text.singleQuote →
        (∀ token, result = .ok token ↔
          ∃ c, token = .character c ∧
          (Lexer.unescape? (l.mark.along [quote]) text).map Prod.fst = some [c]) ∧
        ∀ fault, result = .error fault → fault = .malformed .character) ∧
      (quote = Text.doubleQuote →
        (∀ token, result = .ok token ↔
          ∃ chars, token = .string (String.ofList chars) ∧
            (Lexer.unescape? (l.mark.along [quote]) text).map Prod.fst = some chars) ∧
        ∀ fault, result = .error fault → fault = .malformed .string) := by
  have hdecoded := Lexer.unescape?_eq_some_iff h
  refine ⟨pieces_text text, h.not_dangling, hdecoded, fun hplus m => ?_, ?_⟩
  · have hdigits : ∀ digits, .byte digits ∈ pieces text →
        (Piece.Accepted digits ↔ Piece.TwoDigits digits) :=
      fun digits hmem => Piece.accepted_iff_twoDigits fun b hb => hplus b (hb ▸ hmem)
    rw [Option.isSome_iff_exists]
    constructor
    · rintro ⟨decoded, hsome⟩ digits hmem
      exact (hdigits digits hmem).mp (((hdecoded m _ _).mp hsome).1 digits hmem)
    · intro hall
      exact ⟨_, (hdecoded m _ _).mpr
        ⟨fun digits hmem => (hdigits digits hmem).mpr (hall digits hmem), rfl, rfl⟩⟩
  · have hne : Text.singleQuote ≠ Text.doubleQuote := by decide
    rcases hquote with rfl | rfl
    · obtain ⟨result, hread, hok, herror⟩ :=
        Lexer.readCharacter_quoted (l.mark.along [Text.singleQuote]) Text.singleQuote text
      exact ⟨result, Lexer.next_quoted .character rest h (by decide) hl (fun cs => rfl) rfl hread,
        fun _ => ⟨hok, herror⟩, fun hdouble => absurd hdouble hne⟩
    · obtain ⟨result, hread, hok, herror⟩ :=
        Lexer.readString_quoted (l.mark.along [Text.doubleQuote]) Text.doubleQuote text
      exact ⟨result, Lexer.next_quoted .string rest h (by decide) hl (fun cs => rfl) rfl hread,
        fun hsingle => absurd hsingle.symm hne, fun _ => ⟨hok, herror⟩⟩

/-- A byte, and an escape that is not in the table, right before the closing quote. -/
theorem quoted_literals_decoded_byte :
    (Lexer.ofSource "\"\\x4A\\q\"").rest =
      Text.doubleQuote :: ("\\x4A\\q".toList ++ Text.doubleQuote :: []) ∧
      Lexer.unescape? .start "\\x4A\\q".toList = some (['J', 'q'], [⟨'q', ⟨1, 5⟩⟩]) := by
  have hbody : LiteralBody Text.doubleQuote "\\x4A\\q".toList :=
    .pair (by decide) (.plain (by decide) (by decide) (by decide)
      (.plain (by decide) (by decide) (by decide) (.pair (by decide) .nil)))
  have hrest : (Lexer.ofSource "\"\\x4A\\q\"").rest =
      Text.doubleQuote :: ("\\x4A\\q".toList ++ Text.doubleQuote :: []) := by decide
  refine ⟨hrest, ?_⟩
  have hdecoded :=
    (quoted_literals_decoded (.inr rfl) hbody _ [] hrest).2.2.1 .start ['J', 'q'] [⟨'q', ⟨1, 5⟩⟩]
  have hpieces : pieces "\\x4A\\q".toList = [.byte ['4', 'A'], .escape 'q'] := rfl
  rw [hdecoded, hpieces]
  refine ⟨fun digits hmem => ?_, by decide, by decide⟩
  simp only [List.mem_cons, Piece.byte.injEq, reduceCtorEq, List.not_mem_nil, or_false] at hmem
  rw [hmem]
  decide

/-- A plus sign is taken for the first digit. -/
theorem plus_sign_taken_for_digit :
    pieces "\\x+5".toList = [.byte ['+', '5']] ∧ ¬Piece.TwoDigits ['+', '5'] ∧
      (Lexer.ofSource "'\\x+5'").next.1 =
        some ⟨.start, "'\\x+5'".toList, .ok (.character '\x05')⟩ := by
  have hbody : LiteralBody Text.singleQuote "\\x+5".toList :=
    .pair (by decide)
      (.plain (by decide) (by decide) (by decide) (.plain (by decide) (by decide) (by decide) .nil))
  have hplus : ¬HexDigit '+' := by decide
  refine ⟨rfl, fun h => hplus h.1, ?_⟩
  rw [Lexer.next_quoted .character [] hbody (by decide) (by decide) (fun cs => rfl) rfl rfl]
  rfl

end Replay
