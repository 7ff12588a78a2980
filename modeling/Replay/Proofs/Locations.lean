import Replay.Proofs.Decoding
import Replay.Proofs.Stream
/-!
Where things are in a text.

A location is read off the mark: the line it has counted to, and how far it is from where it has
seen that line start.  The text is not looked at again for this, so the mark has to be right
whatever has been read: behind line feeds and comments, behind pieces that are illegal, and in the
middle of a literal, where an escape is warned about.
-/

namespace Replay

/-! ## Places in a text -/

def lastLine (text : List Char) : List Char :=
  (text.reverse.takeWhile (· ≠ '\n')).reverse

/-- The place right behind a text.  Line feeds make lines, and bytes make columns. -/
def Location.behind (before : List Char) : Location :=
  ⟨1 + before.count '\n', 1 + byteLength (lastLine before)⟩

theorem lastLine_feed (text : List Char) : lastLine (text ++ ['\n']) = [] := by
  simp [lastLine]

theorem lastLine_snoc (text : List Char) {c : Char} (h : c ≠ '\n') :
    lastLine (text ++ [c]) = lastLine text ++ [c] := by
  simp [lastLine, h]

/-- The mark is right behind `before`.  Its line has started already, so the column is not cut off
at the first one. -/
structure Mark.Exact (m : Mark) (before : List Char) : Prop where
  offset : m.offset = byteLength before
  started : m.lineStart ≤ m.offset
  location : m.location = .behind before

namespace Mark.Exact

variable {m : Mark} {before : List Char}

theorem start : Mark.start.Exact [] := ⟨rfl, Nat.le_refl 0, rfl⟩

theorem line (h : m.Exact before) : m.line = 1 + before.count '\n' :=
  congrArg Location.line h.location

theorem column (h : m.Exact before) : m.lineStart + byteLength (lastLine before) = m.offset := by
  have hcolumn : m.offset - m.lineStart + 1 = 1 + byteLength (lastLine before) :=
    congrArg Location.column h.location
  have hstarted := h.started
  omega

theorem after (h : m.Exact before) (c : Char) : (m.after c).Exact (before ++ [c]) := by
  have hoffset := h.offset
  have hstarted := h.started
  have hline := h.line
  have hcolumn := h.column
  by_cases hc : c = '\n'
  · subst hc
    have hafter : m.after '\n' = ⟨m.offset + 1, m.line + 1, m.offset + 1⟩ := rfl
    have hsize : '\n'.utf8Size = 1 := rfl
    rw [hafter]
    refine ⟨?_, Nat.le_refl _, ?_⟩
    · simp [hoffset, hsize]
    · simp only [Mark.location, Location.behind, lastLine_feed, hline, List.count_append,
        List.count_singleton_self, byteLength_nil, Location.mk.injEq]
      omega
  · rw [after_of_ne m hc]
    refine ⟨?_, ?_, ?_⟩
    · simp [Mark.along, hoffset]
    · simp only [Mark.along]
      omega
    · have hcount : [c].count '\n' = 0 := List.count_eq_zero.mpr (by simpa using Ne.symm hc)
      simp only [Mark.location, Mark.along, Location.behind, lastLine_snoc before hc, hline,
        List.count_append, hcount, byteLength_append, Location.mk.injEq]
      omega

theorem afterAll (h : m.Exact before) (text : List Char) :
    (m.afterAll text).Exact (before ++ text) := by
  induction text generalizing m before with
  | nil => rwa [List.append_nil]
  | cons c text ih =>
    have hrest := ih (h.after c)
    rwa [List.append_assoc] at hrest

theorem along (h : m.Exact before) {text : List Char} (htext : '\n' ∉ text) :
    (m.along text).Exact (before ++ text) := by
  rw [along_eq_afterAll m htext]
  exact h.afterAll text

end Mark.Exact

namespace Lexer

/-! ## Warnings -/

/-- Only what stands between quotes has escapes in it. -/
def Item.quoted (item : Item) : Bool :=
  match item.result with
  | .ok (.character _) | .ok (.string _) => true
  | .error (.malformed .character) | .error (.malformed .string) => true
  | _ => false

/-- The warnings about an item: one for each escape that is not in the table, in their order, and
none if a byte in it is malformed. -/
def Item.warnings (item : Item) : List Warning :=
  if item.quoted ∧ firstFlaw? (body item.text) = none then
    warningsFrom (item.start.along (item.text.take 1)) (pieces (body item.text))
  else []

namespace Item

variable {item : Item}

theorem warnings_plain (h : item.quoted = false) : item.warnings = [] := by
  rw [warnings, if_neg (by simp [h])]

theorem warnings_decoded {chars : List Char} {found : List Warning} (hquoted : item.quoted = true)
    (h : unescape? (item.start.along (item.text.take 1)) (body item.text) = some (chars, found)) :
    item.warnings = found := by
  obtain ⟨hflaw, rfl⟩ := unescape?_eq_some h
  rw [warnings, if_pos ⟨hquoted, hflaw⟩]

theorem warnings_flawed
    (h : unescape? (item.start.along (item.text.take 1)) (body item.text) = none) :
    item.warnings = [] := by
  rw [warnings, if_neg fun hno => firstFlaw?_ne_none h hno.2]

/-- A warning is raised by an escape, behind the quote and the pieces before it. -/
theorem raised_of_mem {w : Warning} (h : w ∈ item.warnings) :
    ∃ earlier later, pieces (body item.text) = earlier ++ .escape w.escape :: later ∧
      escapeTable.lookup w.escape = none ∧
      (∃ rest, item.text =
        item.text.take 1 ++ earlier.flatMap Piece.text ++ Text.backslash :: w.escape :: rest) ∧
      w.location =
        (item.start.along (item.text.take 1 ++ earlier.flatMap Piece.text)).location := by
  unfold warnings at h
  split at h
  · obtain ⟨earlier, later, hpieces, hlookup, hlocation⟩ := mem_warningsFrom h
    refine ⟨earlier, later, hpieces, hlookup, ?_, ?_⟩
    · obtain ⟨last, hlast⟩ : body item.text <+: item.text.drop 1 := List.dropLast_prefix _
      have hbody := pieces_text (body item.text)
      rw [hpieces, List.flatMap_append, List.flatMap_cons] at hbody
      refine ⟨later.flatMap Piece.text ++ last, ?_⟩
      calc item.text
          = item.text.take 1 ++ (body item.text ++ last) := by
            rw [hlast, List.take_append_drop]
        _ = _ := by
            rw [← hbody]
            simp [Piece.text]
    · rw [hlocation, Mark.along_append]
  · cases h

end Item

theorem readNumber_eq {α : Type} {kind : LiteralKind} {token : α → Token} {value : Option α}
    {result : Except Fault Token} {warnings : List Warning}
    (h : readNumber kind token value = .item result warnings) :
    warnings = [] ∧ ((∃ a, result = .ok (token a)) ∨ result = .error (.malformed kind)) := by
  cases value with
  | none =>
    cases h
    exact ⟨rfl, .inr rfl⟩
  | some a =>
    cases h
    exact ⟨rfl, .inl ⟨a, rfl⟩⟩

theorem read_warnings {m : Mark} {pattern : Pattern} {text : List Char}
    {result : Except Fault Token} {warnings : List Warning}
    (h : read m pattern text = .item result warnings) :
    pattern.breaks = false ∧ Item.warnings ⟨m, text, result⟩ = warnings := by
  have hplain : ∀ {warnings : List Warning}, Item.quoted ⟨m, text, result⟩ = false →
      warnings = [] → Item.warnings ⟨m, text, result⟩ = warnings := by
    rintro _ hquoted rfl
    exact Item.warnings_plain hquoted
  cases pattern with
  | trivia t => cases h
  | decimal =>
    obtain ⟨rfl, ⟨a, rfl⟩ | rfl⟩ := readNumber_eq h <;> exact ⟨rfl, hplain rfl rfl⟩
  | hexadecimal =>
    obtain ⟨rfl, ⟨a, rfl⟩ | rfl⟩ := readNumber_eq h <;> exact ⟨rfl, hplain rfl rfl⟩
  | real =>
    obtain ⟨rfl, ⟨a, rfl⟩ | rfl⟩ := readNumber_eq h <;> exact ⟨rfl, hplain rfl rfl⟩
  | character =>
    refine ⟨rfl, ?_⟩
    simp only [read, readCharacter] at h
    split at h <;> cases h
    · exact Item.warnings_decoded rfl ‹_›
    · exact Item.warnings_decoded rfl ‹_›
    · exact Item.warnings_flawed ‹_›
  | string =>
    refine ⟨rfl, ?_⟩
    simp only [read, readString] at h
    split at h <;> cases h
    · exact Item.warnings_decoded rfl ‹_›
    · exact Item.warnings_flawed ‹_›
  | word =>
    cases h
    refine ⟨rfl, hplain ?_ rfl⟩
    unfold readWord
    dsimp only
    split <;> rfl
  | punct p => cases h; exact ⟨rfl, hplain rfl rfl⟩
  | illegal => cases h; exact ⟨rfl, hplain rfl rfl⟩

/-! ## Reading on -/

structure Past (source before : List Char) (l : Lexer) : Prop where
  split : source = before ++ l.rest
  mark : l.mark.Exact before

/-- The text of the item comes right behind `before`, and its mark is there. -/
structure Item.Stands (source before : List Char) (item : Item) : Prop where
  split : ∃ after, source = before ++ item.text ++ after
  start : item.start.Exact before
  onLine : '\n' ∉ item.text

namespace Past

variable {source before : List Char} {l l' : Lexer} {item : Item}

theorem ofSource (source : String) : (Lexer.ofSource source).Past source.toList [] := ⟨rfl, .start⟩

/-- One piece further. -/
theorem behind (h : l.Past source before) {c : Char} {cs tail : List Char} {pattern : Pattern}
    (hl : l.rest = c :: cs) (hp : recognise c cs = (pattern, tail)) (warnings : List Warning) :
    Past source (before ++ c :: tail) ⟨cs.drop tail.length, markBehind l.mark pattern (c :: tail),
      warnings⟩ := by
  have htail : tail <+: cs := by simpa only [hp] using recognise_le c cs
  refine ⟨?_, ?_⟩
  · rw [h.split, hl, List.append_assoc, List.cons_append, List.prefix_iff_eq_append.mp htail]
  · rw [markBehind_eq l.mark hp]
    exact h.mark.afterAll _

theorem next_some (h : l.Past source before) (hn : l.next = (some item, l')) :
    ∃ between, item.start.Exact between ∧ l'.Past source (between ++ item.text) ∧
      '\n' ∉ item.text ∧ l'.warnings = l.warnings ++ item.warnings := by
  fun_induction next l generalizing before with
  | case1 l hl => cases hn
  | case2 l c cs hl pattern tail hp text behind hr =>
    rename_i ih
    exact ih (h.behind hl hp l.warnings) hn
  | case3 l c cs hl pattern tail hp text behind result warnings =>
    rename_i hr
    cases hn
    obtain ⟨hbreaks, hwarnings⟩ := read_warnings hr
    have hline := recognise_onLine c cs
    rw [hp] at hline
    have honLine : '\n' ∉ c :: tail := hline.resolve_left (by simp [hbreaks])
    exact ⟨before, h.mark, h.behind hl hp _, honLine, by rw [hwarnings]⟩

theorem next_none (h : l.Past source before) (hn : l.next = (none, l')) :
    l'.Past source source ∧ l'.warnings = l.warnings := by
  fun_induction next l generalizing before with
  | case1 l hl =>
    cases hn
    have hsplit : source = before := by rw [h.split, hl, List.append_nil]
    subst hsplit
    exact ⟨h, rfl⟩
  | case2 l c cs hl pattern tail hp text behind hr =>
    rename_i ih
    exact ih (h.behind hl hp l.warnings) hn
  | case3 => cases hn

/-- What holds of the next item holds of all of them, and at the end the text is read. -/
theorem items (h : l.Past source before) :
    (∀ item ∈ l.items.1, ∃ between, item.Stands source between) ∧
      l.items.2.warnings = l.warnings ++ l.items.1.flatMap Item.warnings ∧
      l.items.2.mark.Exact source := by
  fun_induction Lexer.items l generalizing before with
  | case1 l l' hn =>
    obtain ⟨hpast, hwarnings⟩ := h.next_none hn
    refine ⟨fun item hitem => absurd hitem List.not_mem_nil, ?_, hpast.mark⟩
    rw [hwarnings, List.flatMap_nil, List.append_nil]
  | case2 l item l' hn others final hitems ih =>
    obtain ⟨between, hstart, hpast, honLine, hnew⟩ := h.next_some hn
    rw [hitems] at ih
    obtain ⟨hothers, hwarnings, hfinal⟩ := ih hpast
    refine ⟨fun found hfound => ?_, ?_, hfinal⟩
    · rcases List.mem_cons.mp hfound with rfl | hfound
      · exact ⟨between, ⟨l'.rest, hpast.split⟩, hstart, honLine⟩
      · exact hothers found hfound
    · rw [hwarnings, hnew, List.flatMap_cons, List.append_assoc]

end Past

/-- There is no token for the end of a text in the text. -/
theorem read_ne_endOfInput {m : Mark} {pattern : Pattern} {text : List Char}
    {warnings : List Warning} :
    read m pattern text ≠ .item (.ok .endOfInput) warnings := by
  intro h
  have hnumber : ∀ {α : Type} {kind : LiteralKind} (token : α → Token) {value : Option α},
      (∀ a, token a ≠ .endOfInput) →
      readNumber kind token value ≠ .item (.ok .endOfInput) warnings := by
    intro α kind token value hne h
    obtain ⟨_, ⟨a, ha⟩ | ha⟩ := readNumber_eq h
    · exact hne a (Except.ok.inj ha).symm
    · cases ha
  cases pattern with
  | trivia t => cases h
  | decimal => exact hnumber .integer (fun _ h => by cases h) h
  | hexadecimal => exact hnumber .integer (fun _ h => by cases h) h
  | real => exact hnumber .real (fun _ h => by cases h) h
  | character =>
    simp only [read, readCharacter] at h
    split at h <;> cases h
  | string =>
    simp only [read, readString] at h
    split at h <;> cases h
  | word =>
    simp only [read, readWord] at h
    split at h <;> cases h
  | punct p => cases h
  | illegal => cases h

theorem next_ne_endOfInput {l l' : Lexer} {item : Item} (h : l.next = (some item, l')) :
    item.result ≠ .ok .endOfInput := by
  fun_induction next l with
  | case1 l hl => cases h
  | case2 l c cs hl pattern tail hp text behind hr ih => exact ih h
  | case3 l c cs hl pattern tail hp text behind result warnings hr =>
    cases h
    rintro rfl
    exact read_ne_endOfInput hr

theorem items_ne_endOfInput {l : Lexer} : ∀ item ∈ l.items.1, item.result ≠ .ok .endOfInput := by
  fun_induction items l with
  | case1 l l' hn => exact fun item hitem => absurd hitem List.not_mem_nil
  | case2 l item l' hn others final hitems ih =>
    rw [hitems] at ih
    intro found hfound
    rcases List.mem_cons.mp hfound with rfl | hfound
    · exact next_ne_endOfInput hn
    · exact ih found hfound

end Lexer

namespace Stream

theorem tokens_ne_endOfInput {source : String} {token : Token} {location : Location}
    (h : (token, location) ∈ tokens source) : token ≠ .endOfInput := by
  obtain ⟨item, hitem, htoken⟩ := List.mem_filterMap.mp h
  have hne := Lexer.items_ne_endOfInput item hitem
  unfold Lexer.Item.token? at htoken
  split at htoken
  · next t hresult =>
    cases htoken
    rintro rfl
    exact hne hresult
  · cases htoken

/-- The end of the text is found behind all of it. -/
theorem lexeme_end {source : String} {i : Nat} (h : (lexeme source i).token = .endOfInput) :
    (lexeme source i).location = ending source := by
  unfold lexeme at h ⊢
  split
  · next token location hi =>
    rw [hi] at h
    exact absurd h (tokens_ne_endOfInput (List.mem_of_getElem? hi))
  · rfl

end Stream

theorem Cursor.Tracks.answer_lexeme {source : String} {reported : List (Nat × ParseError)}
    {c d : Cursor} {query : Cursor.Query} {l : Lexeme} (h : c.Tracks source reported)
    (ha : c.answer query = (.lexeme l, d)) :
    ∃ i, l = Stream.lexeme source i := by
  have hrefines := h.refinesStream
  cases query with
  | next =>
    simp only [Cursor.answer] at ha
    split at ha <;> cases ha
    exact ⟨_, (hrefines.next_lexeme ‹_›).1⟩
  | peek =>
    simp only [Cursor.answer] at ha
    split at ha <;> cases ha
    exact ⟨_, (hrefines.peek_lexeme ‹_›).1⟩
  | current =>
    simp only [Cursor.answer] at ha
    split at ha <;> cases ha
    exact ⟨_, (hrefines.current_lexeme ‹_›).1⟩
  | rollback =>
    simp only [Cursor.answer] at ha
    split at ha <;> cases ha
  | seek p =>
    simp only [Cursor.answer] at ha
    split at ha <;> cases ha

/-- Every item, every warning and the end of the text are located where they are: on the line after
as many line feeds as there are before them, and as many bytes behind the last one.  There are the
warnings of the items and no others, and each is at the backslash of the escape that it is about. -/
theorem locations_exact (source : String) :
    (∀ item ∈ Stream.items source, ∃ before after,
      source.toList = before ++ item.text ++ after ∧ item.start.Exact before) ∧
    (Lexer.ofSource source).items.2.warnings =
      (Stream.items source).flatMap Lexer.Item.warnings ∧
    (∀ w ∈ (Lexer.ofSource source).items.2.warnings, ∃ item ∈ Stream.items source,
      ∃ before inner rest after earlier later,
        source.toList = before ++ item.text ++ after ∧
        item.text = inner ++ Text.backslash :: w.escape :: rest ∧
        inner = item.text.take 1 ++ earlier.flatMap Piece.text ∧
        pieces (Lexer.body item.text) = earlier ++ .escape w.escape :: later ∧
        escapeTable.lookup w.escape = none ∧
        (item.start.along inner).Exact (before ++ inner) ∧
        w.location = .behind (before ++ inner)) ∧
    (Lexer.ofSource source).items.2.mark.Exact source.toList ∧
    ∀ queries query l d,
      (Cursor.answers queries (Cursor.ofSource source)).2.answer query = (.lexeme l, d) →
      l.token = .endOfInput → l.location = .behind source.toList := by
  obtain ⟨hitems, hwarnings, hend⟩ := (Lexer.Past.ofSource source).items
  refine ⟨fun item hitem => ?_, hwarnings, fun w hw => ?_, hend, fun queries query l d ha hl => ?_⟩
  · obtain ⟨before, ⟨after, hsplit⟩, hstart, _⟩ := hitems item hitem
    exact ⟨before, after, hsplit, hstart⟩
  · rw [hwarnings] at hw
    obtain ⟨item, hitem, hw⟩ := List.mem_flatMap.mp hw
    obtain ⟨before, ⟨after, hsplit⟩, hstart, honLine⟩ := hitems item hitem
    obtain ⟨earlier, later, hpieces, hlookup, ⟨rest, htext⟩, hlocation⟩ :=
      Lexer.Item.raised_of_mem hw
    have hexact : (item.start.along (item.text.take 1 ++ earlier.flatMap Piece.text)).Exact _ :=
      hstart.along fun hmem => honLine (htext ▸ List.mem_append_left _ hmem)
    exact ⟨item, hitem, before, _, rest, after, earlier, later, hsplit, htext, rfl, hpieces,
      hlookup, hexact, hlocation.trans hexact.location⟩
  · obtain ⟨i, rfl⟩ := ((Cursor.Tracks.start source).answers queries).answer_lexeme ha
    rw [Stream.lexeme_end hl]
    exact (Mark.Exact.start.afterAll source.toList).location

/-- A character that takes two bytes is illegal behind a comment that ends on the second line.  In
the string behind it a backslash is escaped before a letter, and then that letter is. -/
theorem locations_exact_secondLine :
    let source := "/*\n*/é\"\\\\q\\q\""
    (Stream.items source).map (fun item => item.start.location) = [⟨2, 3⟩, ⟨2, 5⟩] ∧
      (Lexer.ofSource source).items.2.warnings = [⟨'q', ⟨2, 9⟩⟩] ∧
      ∃ item ∈ Stream.items source, ∃ before inner rest after earlier later,
        source.toList = before ++ item.text ++ after ∧
        item.text = inner ++ Text.backslash :: 'q' :: rest ∧
        inner = item.text.take 1 ++ earlier.flatMap Piece.text ∧
        pieces (Lexer.body item.text) = earlier ++ .escape 'q' :: later ∧
        escapeTable.lookup 'q' = none ∧
        (item.start.along inner).Exact (before ++ inner) ∧
        ⟨2, 9⟩ = Location.behind (before ++ inner) := by
  intro source
  have hwarnings : (Lexer.ofSource source).items.2.warnings = [⟨'q', ⟨2, 9⟩⟩] := by decide +kernel
  have hw : ⟨'q', ⟨2, 9⟩⟩ ∈ (Lexer.ofSource source).items.2.warnings :=
    hwarnings ▸ List.mem_singleton_self _
  exact ⟨by decide +kernel, hwarnings, (locations_exact source).2.2.1 _ hw⟩

end Replay
