import Replay.Proofs.Locations
/-!
Where a block comment ends.

A star in a comment takes the next character with it, unless that is a slash.  So the comment is
closed by the first star with a slash behind it only if the stars before that one make pairs.  If
one of them is left over it takes the closing star for itself, and the comment goes on in what was
meant to be the script.
-/

namespace Replay

def blockComment (inner : List Char) : List Char :=
  '/' :: '*' :: (inner ++ ['*', '/'])

/-- How many stars the text ends with. -/
def starsBehind (text : List Char) : Nat :=
  (text.reverse.takeWhile (· = '*')).length

/-! ## What is put in front of a text -/

/-- Where a mark gets to if `front` is put in front of the text.  On the first line it is behind the
last line of `front`. -/
def Mark.shifted (front : List Char) (m : Mark) : Mark :=
  let base := Mark.start.afterAll front
  ⟨base.offset + m.offset, base.line + m.line - 1,
    if m.line = 1 then base.lineStart else base.offset + m.lineStart⟩

def Location.shifted (front : List Char) (l : Location) : Location :=
  let base := Mark.start.afterAll front
  ⟨base.line + l.line - 1, if l.line = 1 then base.offset - base.lineStart + l.column else l.column⟩

def Warning.shifted (front : List Char) (w : Warning) : Warning :=
  { w with location := w.location.shifted front }

namespace Lexer

def Item.shifted (front : List Char) (item : Item) : Item :=
  { item with start := item.start.shifted front }

def shifted (front : List Char) (l : Lexer) : Lexer :=
  ⟨l.rest, l.mark.shifted front, l.warnings.map (Warning.shifted front)⟩

end Lexer

namespace Mark

variable {m : Mark} {before : List Char} (front : List Char)

theorem start_shifted : Mark.start.shifted front = Mark.start.afterAll front := by
  simp [shifted, Mark.start]

theorem along_shifted (text : List Char) :
    (m.shifted front).along text = (m.along text).shifted front := by
  simp only [shifted, along, Nat.add_assoc]
  rfl

theorem Exact.after_shifted (h : m.Exact before) (c : Char) :
    (m.shifted front).after c = (m.after c).shifted front := by
  have hline := h.line
  by_cases hc : c = '\n'
  · have hlater : m.line + 1 ≠ 1 := by omega
    simp only [Mark.after, hc, if_true, shifted, if_neg hlater, Mark.mk.injEq]
    omega
  · rw [after_of_ne _ hc, after_of_ne _ hc, along_shifted]

theorem Exact.afterAll_shifted (h : m.Exact before) (text : List Char) :
    (m.shifted front).afterAll text = (m.afterAll text).shifted front := by
  induction text generalizing m before with
  | nil => rfl
  | cons c text ih =>
    show ((m.shifted front).after c).afterAll text = ((m.after c).afterAll text).shifted front
    rw [h.after_shifted, ih (h.after c)]

/-- On the first line columns are counted from the last line of `front`. -/
theorem Exact.location_shifted (h : m.Exact before) :
    (m.shifted front).location = m.location.shifted front := by
  have hbase := (Exact.start.afterAll front).started
  have hstarted := h.started
  by_cases hfirst : m.line = 1
  · have hcount : before.count '\n' = 0 := by
      have hline := h.line
      omega
    have hlast : lastLine before = before := by
      have hall : ∀ c ∈ before.reverse, decide (c ≠ '\n') = true := fun c hc => by
        have hne : c ≠ '\n' :=
          fun heq => List.count_eq_zero.mp hcount (heq ▸ List.mem_reverse.mp hc)
        simpa using hne
      have htake : (before.reverse ++ []).takeWhile (· ≠ '\n') = before.reverse ++ [] :=
        List.takeWhile_append_of_pos hall
      rw [List.append_nil] at htake
      rw [lastLine, htake, List.reverse_reverse]
    have hzero : m.lineStart = 0 := by
      have hcolumn := h.column
      have hoffset := h.offset
      rw [hlast] at hcolumn
      omega
    simp only [Mark.location, shifted, Location.shifted, hfirst, if_true, hzero,
      Location.mk.injEq, true_and]
    omega
  · have hfirst' : m.location.line ≠ 1 := hfirst
    simp only [Location.shifted, if_neg hfirst']
    simp only [Mark.location, shifted, if_neg hfirst, Location.mk.injEq, true_and]
    omega

end Mark

namespace Lexer

variable (front : List Char)

theorem unescape?_shifted {m : Mark} {before text : List Char} (h : m.Exact before)
    (htext : '\n' ∉ text) :
    unescape? (m.shifted front) text =
      (unescape? m text).map fun r => (r.1, r.2.map (Warning.shifted front)) := by
  fun_induction unescape? m text generalizing before with
  | case1 m => rfl
  | case2 m a b cs ih =>
    obtain ⟨hhead, hcs⟩ : '\n' ∉ ['\x5c', 'x', a, b] ∧ '\n' ∉ cs := by simpa [and_assoc] using htext
    rw [unescape?, Mark.along_shifted, ih (h.along hhead) hcs]
    cases byteEscape? a b with
    | none => rfl
    | some c => cases unescape? (m.along ['\x5c', 'x', a, b]) cs <;> rfl
  | case3 m tail htail =>
    rw [unescape?]
    · rfl
    · exact htail
  | case4 m => rfl
  | case5 m c cs hx hnil ih =>
    obtain ⟨hhead, hcs⟩ : '\n' ∉ ['\x5c', c] ∧ '\n' ∉ cs := by simpa [and_assoc] using htext
    rw [unescape?, Mark.along_shifted, ih (h.along hhead) hcs, h.location_shifted]
    · cases unescape? (m.along ['\x5c', c]) cs with
      | none => rfl
      | some r => cases simpleEscape? c <;> rfl
    · exact hx
    · exact hnil
  | case6 m c cs hx hx' hnil hslash ih =>
    obtain ⟨hhead, hcs⟩ : '\n' ∉ [c] ∧ '\n' ∉ cs := by simpa using htext
    rw [unescape?, Mark.along_shifted, ih (h.along hhead) hcs]
    · cases unescape? (m.along [c]) cs <;> rfl
    · exact hx
    · exact hx'
    · exact hnil
    · exact hslash

/-- A reading is the same wherever the piece is; warnings move with it. -/
def Reading.shifted : Reading → Reading
  | .skipped => .skipped
  | .item result warnings => .item result (warnings.map (Warning.shifted front))

theorem readNumber_shifted {α : Type} (kind : LiteralKind) (token : α → Token) (value : Option α) :
    (readNumber kind token value).shifted front = readNumber kind token value := by
  cases value <;> rfl

theorem read_shifted {m : Mark} {before : List Char} (h : m.Exact before)
    {pattern : Pattern} {c : Char}
    {tail : List Char} (hline : pattern.breaks = true ∨ '\n' ∉ c :: tail) :
    read (m.shifted front) pattern (c :: tail) = (read m pattern (c :: tail)).shifted front := by
  have hquoted : pattern.breaks = false →
    unescape? ((m.shifted front).along [c]) (body (c :: tail)) =
      (unescape? (m.along [c]) (body (c :: tail))).map fun r =>
      (r.1, r.2.map (Warning.shifted front)) := by
    intro hbreaks
    obtain ⟨hc, htail⟩ : '\n' ∉ [c] ∧ '\n' ∉ tail := by
      simpa using hline.resolve_left (by simp [hbreaks])
    rw [Mark.along_shifted]
    exact unescape?_shifted front (h.along hc) fun hmem =>
      htail ((List.dropLast_prefix tail).subset hmem)
  cases pattern with
  | trivia t => rfl
  | decimal => exact (readNumber_shifted front _ _ _).symm
  | hexadecimal => exact (readNumber_shifted front _ _ _).symm
  | real => exact (readNumber_shifted front _ _ _).symm
  | character =>
    simp only [read, readCharacter, List.take_succ_cons, List.take_zero, hquoted rfl]
    cases unescape? (m.along [c]) (body (c :: tail)) with
    | none => rfl
    | some r =>
      obtain ⟨text, warnings⟩ := r
      rcases text with _ | ⟨d, _ | ⟨e, text⟩⟩ <;> rfl
  | string =>
    simp only [read, readString, List.take_succ_cons, List.take_zero, hquoted rfl]
    cases unescape? (m.along [c]) (body (c :: tail)) <;> rfl
  | word => rfl
  | punct p => rfl
  | illegal => rfl

theorem markBehind_shifted {m : Mark} {before : List Char} (h : m.Exact before) {c : Char}
    {cs tail : List Char} {pattern : Pattern} (hp : recognise c cs = (pattern, tail)) :
    markBehind (m.shifted front) pattern (c :: tail) =
      (markBehind m pattern (c :: tail)).shifted front := by
  rw [markBehind_eq _ hp, markBehind_eq _ hp, h.afterAll_shifted]

/-- What is in front of the text changes where the next item is, and nothing else. -/
theorem next_shifted {source before : List Char} {l : Lexer} (h : l.Past source before) :
    (l.shifted front).next = (l.next.1.map (Item.shifted front), l.next.2.shifted front) := by
  fun_induction next l generalizing before with
  | case1 l hl =>
    rw [next]
    split
    · rfl
    · next hcons => cases hl.symm.trans hcons
  | case2 l c cs hl pattern tail hp text behind hr =>
    rename_i ih
    have hread := read_shifted front h.mark (recognise_onLine c cs)
    rw [hp, hr] at hread
    rw [next_of_skipped (l := l.shifted front) hl hp hread, ← ih (h.behind hl hp l.warnings)]
    simp only [shifted, markBehind_shifted front h.mark hp]
    rfl
  | case3 l c cs hl pattern tail hp text behind result warnings =>
    rename_i hr
    have hread := read_shifted front h.mark (recognise_onLine c cs)
    rw [hp, hr] at hread
    rw [next_of_item (l := l.shifted front) hl hp hread]
    simp only [shifted, markBehind_shifted front h.mark hp, List.map_append]
    rfl

theorem items_shifted {source before : List Char} {l : Lexer} (h : l.Past source before) :
    (l.shifted front).items = (l.items.1.map (Item.shifted front), l.items.2.shifted front) := by
  fun_induction items l generalizing before with
  | case1 l l' hn =>
    have hnext := next_shifted front h
    rw [hn] at hnext
    exact items_of_next_none hnext
  | case2 l item l' hn others final hitems ih =>
    have hnext := next_shifted front h
    rw [hn] at hnext
    obtain ⟨between, _, hpast, _⟩ := h.next_some hn
    rw [items_of_next_some hnext, ih hpast, hitems]
    rfl

/-! ## The first star with a slash behind it -/

/-- A star at the front counts if there are only stars behind it. -/
theorem starsBehind_cons (c : Char) (text : List Char) :
    starsBehind (c :: text) =
      if starsBehind text = text.length ∧
      c = '*' then starsBehind text + 1 else starsBehind text := by
  unfold starsBehind
  rw [List.reverse_cons, List.takeWhile_append, List.length_reverse]
  by_cases hall : (text.reverse.takeWhile (· = '*')).length = text.length
  · by_cases hc : c = '*'
    · simp [hall, hc]
    · simp [hall, hc]
  · simp [hall]

theorem starsBehind_of_ne {c : Char} (h : c ≠ '*') (text : List Char) :
    starsBehind (c :: text) = starsBehind text := by
  rw [starsBehind_cons, if_neg fun hstar => h hstar.2]

theorem starsBehind_le (text : List Char) : starsBehind text ≤ text.length := by
  have hle := (List.takeWhile_prefix (l := text.reverse) (· = '*')).length_le
  rwa [List.length_reverse] at hle

/-- A star and what it takes with it do not change whether the stars make pairs. -/
theorem starsBehind_pair (c : Char) (text : List Char) :
    starsBehind ('*' :: c :: text) % 2 = starsBehind text % 2 := by
  have hle := starsBehind_le text
  by_cases hc : c = '*'
  · by_cases hall : starsBehind text = text.length
    · have hone : starsBehind (c :: text) = starsBehind text + 1 := by
        rw [starsBehind_cons, if_pos ⟨hall, hc⟩]
      rw [starsBehind_cons '*', hone, List.length_cons, if_pos ⟨by omega, rfl⟩]
      omega
    · have hnone : starsBehind (c :: text) = starsBehind text := by
        rw [starsBehind_cons, if_neg fun h => hall h.1]
      rw [starsBehind_cons '*', hnone, List.length_cons, if_neg (by omega)]
  · rw [starsBehind_cons '*', starsBehind_of_ne hc, List.length_cons, if_neg (by omega)]

/-- The comment is closed by the first star with a slash behind it, or it goes on behind that
slash. -/
theorem blockCommentTail?_first {inner : List Char} (h : ¬['*', '/'] <:+: inner)
    (rest : List Char) :
    blockCommentTail? (inner ++ '*' :: '/' :: rest) =
      if starsBehind inner % 2 = 0 then some (inner ++ ['*', '/'])
      else (blockCommentTail? rest).map (inner ++ '*' :: '/' :: ·) := by
  have hbelow (front : List Char) {text : List Char} (hno : ¬['*', '/'] <:+: front ++ text) :
      ¬['*', '/'] <:+: text :=
    fun hin => hno (hin.trans (List.suffix_append _ _).isInfix)
  fun_induction blockCommentTail? inner with
  | case1 => rfl
  | case2 =>
    have hslash : blockCommentTail? ('/' :: rest) = (blockCommentTail? rest).map ('/' :: ·) := by
      rw [blockCommentTail?]
      decide
    show (blockCommentTail? ('/' :: rest)).map ('*' :: '*' :: ·) =
      (blockCommentTail? rest).map ('*' :: '*' :: '/' :: ·)
    rw [hslash, Option.map_map]
    rfl
  | case3 cs => exact absurd (List.prefix_append ['*', '/'] cs).isInfix h
  | case4 c cs hc ih =>
    rw [List.cons_append, List.cons_append, blockCommentTail?, if_neg hc, ih (hbelow ['*', c] h),
      starsBehind_pair]
    split
    · rfl
    · rw [Option.map_map]
      rfl
  | case5 c cs hc ih =>
    rw [List.cons_append, blockCommentTail?, ih (hbelow [c] h), starsBehind_of_ne hc]
    · split
      · rfl
      · rw [Option.map_map]
        rfl
    · exact hc

theorem comment?_first {inner : List Char} (h : ¬['*', '/'] <:+: inner) (rest : List Char) :
    comment? ('*' :: (inner ++ '*' :: '/' :: rest)) =
      if starsBehind inner % 2 = 0 then some (.trivia .blockComment, '*' :: (inner ++ ['*', '/']))
      else (blockCommentTail? rest).map fun tail =>
      (.trivia .blockComment, '*' :: (inner ++ '*' :: '/' :: tail)) := by
  rw [comment?, blockCommentTail?_first h]
  split
  · rfl
  · rw [Option.map_map]
    rfl

/-- A text that starts with a comment is read from behind it. -/
theorem items_behind (tail : List Char) {rest : List Char}
    (h : recognise '/' (tail ++ rest) = (.trivia .blockComment, tail)) :
    (ofSource (String.ofList ('/' :: tail ++ rest))).items =
      ((ofSource (String.ofList rest)).items.1.map (Item.shifted ('/' :: tail)),
        (ofSource (String.ofList rest)).items.2.shifted ('/' :: tail)) := by
  rw [← items_shifted _ (Past.ofSource _)]
  refine items_of_next_eq ?_
  rw [next_of_skipped String.toList_ofList h rfl, markBehind_eq _ h]
  simp only [ofSource, shifted, Mark.start_shifted, String.toList_ofList, List.drop_left]
  rfl

/-- A slash that starts no comment is a sign, and the text behind it is read for itself. -/
theorem items_slash {text : List Char} (h : recognise '/' text = (.punct .slash, [])) :
    (ofSource (String.ofList ('/' :: text))).items =
      (⟨.start, ['/'], .ok (.punct .slash)⟩ :: (ofSource (String.ofList text)).items.1.map
        (Item.shifted ['/']),
        (ofSource (String.ofList text)).items.2.shifted ['/']) := by
  have hnext : (ofSource (String.ofList ('/' :: text))).next =
      (some ⟨.start, ['/'], .ok (.punct .slash)⟩,
        (ofSource (String.ofList text)).shifted ['/']) := by
    rw [next_of_item String.toList_ofList h rfl, markBehind_eq _ h]
    simp only [ofSource, shifted, Mark.start_shifted, String.toList_ofList]
    rfl
  rw [items_of_next_some hnext, items_shifted _ (Past.ofSource _)]

theorem recognise_slash (cs : List Char) : recognise '/' cs = (comment? cs).getD (sign '/' cs) := by
  have hblank : isBlank '/' = false := by decide
  have hstart : isWordStart '/' = false := by decide
  have hdigit : '/'.isDigit = false := by decide
  cases hc : comment? cs <;>
    simp [recognise, hc, hblank, hstart, hdigit, Text.singleQuote, Text.doubleQuote]

end Lexer

/-- If the stars before the closing one make pairs, the comment is closed there: what follows is
read as if it stood alone, further behind.  If one of them is left over, what follows is taken for a
part of the comment, up to where that is closed; and if it never is, there is no comment but a slash
with other signs behind it. -/
theorem block_comment_closing (inner rest : List Char) (h : ¬['*', '/'] <:+: inner) :
    (starsBehind inner % 2 = 0 →
      (Lexer.ofSource (String.ofList (blockComment inner ++ rest))).items =
        ((Lexer.ofSource (String.ofList rest)).items.1.map
          (Lexer.Item.shifted (blockComment inner)),
          (Lexer.ofSource (String.ofList rest)).items.2.shifted (blockComment inner))) ∧
    (starsBehind inner % 2 = 1 →
      (∀ taken left, rest = taken ++ left → Lexer.blockCommentTail? rest = some taken →
        (Lexer.ofSource (String.ofList (blockComment inner ++ rest))).items =
          ((Lexer.ofSource (String.ofList left)).items.1.map
            (Lexer.Item.shifted (blockComment inner ++ taken)),
            (Lexer.ofSource (String.ofList left)).items.2.shifted (blockComment inner ++ taken))) ∧
      (Lexer.blockCommentTail? rest = none →
        (Lexer.ofSource (String.ofList (blockComment inner ++ rest))).items =
          (⟨.start, ['/'], .ok (.punct .slash)⟩ ::
              (Lexer.ofSource (String.ofList ((blockComment inner ++ rest).drop 1))).items.1.map
                (Lexer.Item.shifted ['/']),
            (Lexer.ofSource (String.ofList ((blockComment inner ++ rest).drop 1))).items.2.shifted
            ['/']))) := by
  have hcomment := Lexer.comment?_first h rest
  have htext : blockComment inner ++ rest = '/' :: '*' :: (inner ++ '*' :: '/' :: rest) := by
    simp [blockComment]
  refine ⟨fun heven => ?_, fun hodd => ?_⟩
  · rw [if_pos heven] at hcomment
    refine Lexer.items_behind ('*' :: (inner ++ ['*', '/'])) ?_
    have hsplit : '*' :: (inner ++ ['*', '/']) ++ rest = '*' :: (inner ++ '*' :: '/' :: rest) := by
      simp
    rw [hsplit, Lexer.recognise_slash, hcomment, Option.getD_some]
  · have hne : starsBehind inner % 2 ≠ 0 := by omega
    rw [if_neg hne] at hcomment
    refine ⟨fun taken left hrest htaken => ?_, fun hnone => ?_⟩
    · rw [htaken, Option.map_some] at hcomment
      have hsplit : blockComment inner ++ rest =
          '/' :: ('*' :: (inner ++ '*' :: '/' :: taken)) ++ left := by
        simp [blockComment, hrest]
      have hfront : blockComment inner ++ taken = '/' :: '*' :: (inner ++ '*' :: '/' :: taken) := by
        simp [blockComment]
      rw [hsplit, hfront]
      refine Lexer.items_behind _ ?_
      have htail : '*' :: (inner ++ '*' :: '/' :: taken) ++ left =
          '*' :: (inner ++ '*' :: '/' :: rest) := by
        simp [hrest]
      rw [htail, Lexer.recognise_slash, hcomment, Option.getD_some]
    · rw [hnone, Option.map_none] at hcomment
      rw [htext]
      refine Lexer.items_slash ?_
      rw [Lexer.recognise_slash, hcomment, Option.getD_none]
      rfl

/-- Two stars before the closing one make a pair. -/
theorem block_comment_closing_pair :
    starsBehind ['*', '*'] % 2 = 0 ∧
      (Lexer.ofSource (String.ofList (blockComment ['*', '*'] ++ ['x']))).items =
        ((Lexer.ofSource (String.ofList ['x'])).items.1.map
          (Lexer.Item.shifted (blockComment ['*', '*'])),
          (Lexer.ofSource (String.ofList ['x'])).items.2.shifted (blockComment ['*', '*'])) :=
  ⟨by decide, (block_comment_closing ['*', '*'] ['x'] (by decide)).1 (by decide)⟩

/-- One star before the closing one takes it away: a name that stands behind the comment is read as
a part of it. -/
theorem name_behind_comment_taken :
    ¬['*', '/'] <:+: ['*'] ∧
    blockComment ['*'] ++ ['x', '/', '*', ' ', '*', '/'] = "/***/x/* */".toList ∧
      (Lexer.ofSource "x/* */").items.1.map (·.text) = [['x']] ∧
      (Lexer.ofSource "/***/x/* */").items.1.map (·.text) = [] := by
  refine ⟨by decide, by decide, by decide +kernel, by decide +kernel⟩

end Replay
