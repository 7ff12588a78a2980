import Replay.Lexer
/-!
What the lexer takes from the text.

A piece is the beginning of what is left, so nothing is skipped between two pieces and nothing is
read twice.  The mark is moved over exactly the characters of the piece, and at the end it stands
behind the last character.  Lines are counted in two kinds of pieces only, and there is no line feed
in a piece of another kind.
-/

namespace Replay

/-! ## Bytes and lines -/

@[simp] theorem byteLength_nil : byteLength [] = 0 := rfl

@[simp] theorem byteLength_cons (c : Char) (text : List Char) :
    byteLength (c :: text) = c.utf8Size + byteLength text := by
  have hshift : ∀ (text : List Char) (n : Nat),
      text.foldl (fun n c => n + c.utf8Size) n = n + text.foldl (fun n c => n + c.utf8Size) 0 := by
    intro text
    induction text with
    | nil => exact fun _ => rfl
    | cons d text ih =>
      intro n
      rw [List.foldl_cons, List.foldl_cons, ih, ih (0 + _)]
      omega
  rw [byteLength, List.foldl_cons, hshift, Nat.zero_add, byteLength]

@[simp] theorem byteLength_append (xs ys : List Char) :
    byteLength (xs ++ ys) = byteLength xs + byteLength ys := by
  induction xs with
  | nil => simp
  | cons c xs ih =>
    simp only [List.cons_append, byteLength_cons, ih]
    omega

namespace Mark

theorem along_cons (m : Mark) (c : Char) (text : List Char) :
    m.along (c :: text) = (m.along [c]).along text := by
  simp only [along, byteLength_cons, byteLength_nil, Mark.mk.injEq, and_true]
  omega

theorem along_append (m : Mark) (text later : List Char) :
    m.along (text ++ later) = (m.along text).along later := by
  simp only [along, byteLength_append, Nat.add_assoc]

theorem after_of_ne (m : Mark) {c : Char} (h : c ≠ '\n') : m.after c = m.along [c] := by
  simp [after, along, h]

/-- On a line the characters do not have to be looked at one by one. -/
theorem along_eq_afterAll (m : Mark) {text : List Char} (h : '\n' ∉ text) :
    m.along text = m.afterAll text := by
  induction text generalizing m with
  | nil => rfl
  | cons c text ih =>
    obtain ⟨hc, htext⟩ := not_or.mp (mt List.mem_cons.mpr h)
    rw [along_cons, ih _ htext, ← after_of_ne m (Ne.symm hc)]
    rfl

theorem notMem_of_dropWhile_eq_nil {text : List Char} (h : text.reverse.dropWhile (· ≠ '\n') = []) :
    '\n' ∉ text := by
  intro hmem
  have hsplit := List.takeWhile_append_dropWhile (p := (· ≠ '\n')) (l := text.reverse)
  rw [h, List.append_nil] at hsplit
  have hall := List.all_takeWhile (p := (· ≠ '\n')) (l := text.reverse)
  rw [hsplit, List.all_eq_true] at hall
  simpa using hall '\n' (List.mem_reverse.mpr hmem)

/-- A line feed at the front counts if it is not the last one, and starts the line if it is. -/
theorem alongLines_cons (m : Mark) (c : Char) (text : List Char) :
    m.alongLines (c :: text) = (m.after c).alongLines text := by
  have hfeed : '\n'.utf8Size = 1 := rfl
  unfold alongLines
  rw [List.reverse_cons, List.dropWhile_append]
  cases hlast : text.reverse.dropWhile (· ≠ '\n') with
  | cons d upToLast =>
    by_cases hc : c = '\n'
    · subst hc
      simp [after, hfeed]
      omega
    · simp [after, hc]
      omega
  | nil =>
    have hcount : text.count '\n' = 0 := List.count_eq_zero.mpr (notMem_of_dropWhile_eq_nil hlast)
    by_cases hc : c = '\n'
    · subst hc
      simp [after, along, hfeed, hcount]
      omega
    · simp [after, along, hc]
      omega

/-- It is enough to find the last line feed. -/
theorem alongLines_eq_afterAll (m : Mark) (text : List Char) :
    m.alongLines text = m.afterAll text := by
  induction text generalizing m with
  | nil => rfl
  | cons c text ih => exact (alongLines_cons m c text).trans (ih _)

end Mark

namespace Lexer

/-! ## Pieces are beginnings -/

theorem fraction?_le {cs tail : List Char} (h : fraction? cs = some tail) : tail <+: cs := by
  unfold fraction? at h
  split at h
  · split at h
    · cases h
      exact List.prefix_cons_inj '.' |>.mpr (List.takeWhile_prefix _)
    · cases h
  · cases h

theorem hexTail?_le {cs tail : List Char} (h : hexTail? cs = some tail) : tail <+: cs := by
  unfold hexTail? at h
  split at h
  · split at h
    · cases h
      exact (List.prefix_cons_inj _).mpr (List.takeWhile_prefix _)
    · cases h
  · cases h

theorem number_le (c : Char) (cs : List Char) : (number c cs).2 <+: cs := by
  unfold number
  split
  · rename_i tail hhex
    split at hhex
    · exact hexTail?_le hhex
    · cases hhex
  · split
    · rename_i fraction hfraction
      -- The digits and the fraction behind them are next to each other in the text.
      have hsplit : cs.takeWhile Char.isDigit ++ cs.dropWhile Char.isDigit = cs :=
        List.takeWhile_append_dropWhile
      have hrest :=
        (List.prefix_append_right_inj (cs.takeWhile Char.isDigit)).mpr (fraction?_le hfraction)
      rwa [hsplit] at hrest
    · exact List.takeWhile_prefix _

theorem quotedTail?_le {quote : Char} {cs tail : List Char} (h : quotedTail? quote cs = some tail) :
    tail <+: cs := by
  fun_induction quotedTail? quote cs generalizing tail with
  | case1 => cases h
  | case2 => cases h
  | case3 => cases h
  | case4 c cs hc ih =>
    obtain ⟨inner, hinner, rfl⟩ := Option.map_eq_some_iff.mp h
    exact (List.prefix_cons_inj _).mpr ((List.prefix_cons_inj _).mpr (ih hinner))
  | case5 =>
    cases h
    exact List.prefix_iff_eq_append.mpr rfl
  | case6 => cases h
  | case7 c cs hc hquote hline ih =>
    obtain ⟨inner, hinner, rfl⟩ := Option.map_eq_some_iff.mp h
    exact (List.prefix_cons_inj _).mpr (ih hinner)

theorem blockCommentTail?_le {cs tail : List Char} (h : blockCommentTail? cs = some tail) :
    tail <+: cs := by
  fun_induction blockCommentTail? cs generalizing tail with
  | case1 => cases h
  | case2 => cases h
  | case3 cs =>
    cases h
    exact ⟨cs, rfl⟩
  | case4 c cs hc ih =>
    obtain ⟨inner, hinner, rfl⟩ := Option.map_eq_some_iff.mp h
    exact (List.prefix_cons_inj _).mpr ((List.prefix_cons_inj _).mpr (ih hinner))
  | case5 c cs hc ih =>
    obtain ⟨inner, hinner, rfl⟩ := Option.map_eq_some_iff.mp h
    exact (List.prefix_cons_inj _).mpr (ih hinner)

theorem comment?_le {cs tail : List Char} {pattern : Pattern}
    (h : comment? cs = some (pattern, tail)) :
    tail <+: cs := by
  unfold comment? at h
  split at h
  · cases h
    exact (List.prefix_cons_inj _).mpr (List.takeWhile_prefix _)
  · obtain ⟨inner, hinner, heq⟩ := Option.map_eq_some_iff.mp h
    cases heq
    exact (List.prefix_cons_inj _).mpr (blockCommentTail?_le hinner)
  · cases h

theorem sign_le (c : Char) (cs : List Char) : (sign c cs).2 <+: cs := by
  unfold sign
  split
  · rename_i p spelling hsign
    have hfound := List.find?_some hsign
    obtain ⟨rest, hrest⟩ : spelling <+: c :: cs := List.isPrefixOf_iff_prefix.mp hfound
    cases spelling with
    | nil => exact List.nil_prefix
    | cons d tail =>
      cases hrest
      exact List.prefix_append tail rest
  · exact List.nil_prefix

theorem quoted_le (quote : Char) (kind : Pattern) (cs : List Char) :
    (quoted quote kind cs).2 <+: cs := by
  unfold quoted
  split
  · exact quotedTail?_le ‹_›
  · exact List.takeWhile_prefix _

/-- What belongs to a piece is what comes next. -/
theorem recognise_le (c : Char) (cs : List Char) : (recognise c cs).2 <+: cs := by
  unfold recognise
  split
  · exact List.takeWhile_prefix _
  split
  · exact List.nil_prefix
  split
  · exact number_le c cs
  split
  · exact List.takeWhile_prefix _
  split
  · exact quoted_le _ _ cs
  split
  · exact quoted_le _ _ cs
  split
  · rename_i comment hcomment
    split at hcomment
    · exact comment?_le hcomment
    · cases hcomment
  · exact sign_le c cs

/-! ## Pieces within a line -/

theorem notMem_takeWhile {p : Char → Bool} (h : p '\n' = false) (cs : List Char) :
    '\n' ∉ cs.takeWhile p := by
  intro hmem
  have hall := List.all_eq_true.mp (List.all_takeWhile (p := p) (l := cs)) '\n' hmem
  rw [h] at hall
  cases hall

theorem fraction?_onLine {cs tail : List Char} (h : fraction? cs = some tail) : '\n' ∉ tail := by
  unfold fraction? at h
  split at h
  · split at h
    · cases h
      simpa using notMem_takeWhile (p := Char.isDigit) rfl _
    · cases h
  · cases h

theorem hexTail?_onLine {cs tail : List Char} (h : hexTail? cs = some tail) : '\n' ∉ tail := by
  unfold hexTail? at h
  split at h
  · next x cs =>
    split at h
    · next hx =>
      cases h
      have hne : '\n' ≠ x := by
        rintro rfl
        simp at hx
      exact mt List.mem_cons.mp (not_or.mpr ⟨hne, notMem_takeWhile (p := isHexDigit) rfl _⟩)
    · cases h
  · cases h

theorem number_onLine (c : Char) (cs : List Char) : '\n' ∉ (number c cs).2 := by
  have hdigits : '\n' ∉ cs.takeWhile Char.isDigit := notMem_takeWhile rfl cs
  unfold number
  split
  · next tail hhex =>
    split at hhex
    · exact hexTail?_onLine hhex
    · cases hhex
  · split
    · next fraction hfraction =>
      exact mt List.mem_append.mp (not_or.mpr ⟨hdigits, fraction?_onLine hfraction⟩)
    · exact hdigits

/-- A backslash takes anything with it but a line feed. -/
theorem quotedTail?_onLine {quote : Char} (hquote : quote ≠ '\n') {cs tail : List Char}
    (h : quotedTail? quote cs = some tail) : '\n' ∉ tail := by
  fun_induction quotedTail? quote cs generalizing tail with
  | case1 => cases h
  | case2 => cases h
  | case3 => cases h
  | case4 c cs hline ih =>
    obtain ⟨inner, hinner, rfl⟩ := Option.map_eq_some_iff.mp h
    simp [ih hinner, Ne.symm hline]
  | case5 cs hc =>
    cases h
    simpa using Ne.symm hquote
  | case6 => cases h
  | case7 c cs hc hquote hline ih =>
    obtain ⟨inner, hinner, rfl⟩ := Option.map_eq_some_iff.mp h
    simp [ih hinner, Ne.symm hline]

theorem quoted_onLine {quote : Char} (hquote : quote ≠ '\n') (kind : Pattern) (cs : List Char) :
    '\n' ∉ (quoted quote kind cs).2 := by
  unfold quoted
  split
  · exact quotedTail?_onLine hquote ‹_›
  · exact notMem_takeWhile (by simp) cs

theorem sign_onLine (c : Char) (cs : List Char) : '\n' ∉ (sign c cs).2 := by
  have hsigns : ∀ s ∈ signs, '\n' ∉ s.2.drop 1 := by decide
  unfold sign
  split
  · next p spelling hsign => exact hsigns _ (List.mem_of_find?_eq_some hsign)
  · exact List.not_mem_nil

theorem comment?_onLine {cs tail : List Char} {pattern : Pattern}
    (h : comment? cs = some (pattern, tail)) :
    pattern.breaks = true ∨ '\n' ∉ tail := by
  unfold comment? at h
  split at h
  · next text =>
    cases h
    have htail : '\n' ∉ lineCommentTail text := notMem_takeWhile (by simp) text
    exact .inr (by simpa using htail)
  · obtain ⟨inner, _, heq⟩ := Option.map_eq_some_iff.mp h
    cases heq
    exact .inl rfl
  · cases h

/-- No other piece goes beyond its line: not a quoted literal, which a line feed leaves unclosed,
and not what is illegal. -/
theorem recognise_onLine (c : Char) (cs : List Char) :
    (recognise c cs).1.breaks = true ∨ '\n' ∉ c :: (recognise c cs).2 := by
  have hhead : ∀ {tail : List Char}, c ≠ '\n' → '\n' ∉ tail → '\n' ∉ c :: tail := fun hc htail =>
    mt List.mem_cons.mp (not_or.mpr ⟨Ne.symm hc, htail⟩)
  unfold recognise
  split
  · next hblank =>
    exact .inr (hhead (fun hc => by rw [hc] at hblank; cases hblank) (notMem_takeWhile rfl cs))
  split
  · exact .inl rfl
  next hc =>
  split
  · exact .inr (hhead hc (number_onLine c cs))
  split
  · exact .inr (hhead hc (notMem_takeWhile rfl cs))
  split
  · exact .inr (hhead hc (quoted_onLine hc _ cs))
  split
  · exact .inr (hhead hc (quoted_onLine hc _ cs))
  split
  · next comment hcomment =>
    split at hcomment
    · exact (comment?_onLine hcomment).imp_right (hhead hc)
    · cases hcomment
  · exact .inr (hhead hc (sign_onLine c cs))

/-- So the mark behind a piece is the same as if each of its characters had been looked at. -/
theorem markBehind_eq (m : Mark) {c : Char} {cs tail : List Char} {pattern : Pattern}
    (h : recognise c cs = (pattern, tail)) :
    markBehind m pattern (c :: tail) = m.afterAll (c :: tail) := by
  have hline := recognise_onLine c cs
  rw [h] at hline
  unfold markBehind
  split
  · exact m.alongLines_eq_afterAll _
  · next hbreaks => exact m.along_eq_afterAll (hline.resolve_left hbreaks)

/-! ## The next piece -/

section

variable {l : Lexer} {c : Char} {cs tail : List Char} {pattern : Pattern}

theorem next_of_skipped (hl : l.rest = c :: cs) (hp : recognise c cs = (pattern, tail))
    (hr : read l.mark pattern (c :: tail) = .skipped) :
    l.next = next ⟨cs.drop tail.length, markBehind l.mark pattern (c :: tail), l.warnings⟩ := by
  rw [next]
  split
  · next hnil => cases hnil.symm.trans hl
  · next c' cs' hcons =>
    cases hcons.symm.trans hl
    simp only [hp, hr]

theorem next_of_item {result : Except Fault Token} {warnings : List Warning} (hl : l.rest = c :: cs)
    (hp : recognise c cs = (pattern, tail))
    (hr : read l.mark pattern (c :: tail) = .item result warnings) :
    l.next = (some ⟨l.mark, c :: tail, result⟩,
      ⟨cs.drop tail.length, markBehind l.mark pattern (c :: tail), l.warnings ++ warnings⟩) := by
  rw [next]
  split
  · next hnil => cases hnil.symm.trans hl
  · next c' cs' hcons =>
    cases hcons.symm.trans hl
    simp only [hp, hr]

end

/-! ## The text that is left -/

def finalMark (l : Lexer) : Mark := l.mark.afterAll l.rest

/-- Taking a piece off the text and moving the mark over it does not change where the text ends. -/
theorem finalMark_behind (m : Mark) (warnings : List Warning) {c : Char} {cs tail : List Char}
    {pattern : Pattern} (h : recognise c cs = (pattern, tail)) :
    finalMark ⟨cs.drop tail.length, markBehind m pattern (c :: tail), warnings⟩ =
      m.afterAll (c :: cs) := by
  have htail : tail <+: cs := by simpa only [h] using recognise_le c cs
  have hcs : tail ++ cs.drop tail.length = cs := List.prefix_iff_eq_append.mp htail
  simp only [finalMark, markBehind_eq m h, Mark.afterAll]
  rw [← List.foldl_append, List.cons_append, hcs]

theorem finalMark_next {l l' : Lexer} {item : Option Item} (h : l.next = (item, l')) :
    l'.finalMark = l.finalMark := by
  fun_induction next l with
  | case1 l hl =>
    cases h
    rfl
  | case2 l c cs hl pattern tail hp text behind hr ih =>
    rw [ih h, finalMark_behind l.mark l.warnings hp, finalMark, hl]
  | case3 l c cs hl pattern tail hp text behind result warnings hr =>
    cases h
    have hfinal := finalMark_behind l.mark (l.warnings ++ warnings) hp
    rw [← hl] at hfinal
    exact hfinal

/-- If there is no item left there is no text left. -/
theorem rest_of_next_none {l l' : Lexer} (h : l.next = (none, l')) : l'.rest = [] := by
  fun_induction next l with
  | case1 l hl =>
    cases h
    exact hl
  | case2 l c cs hl pattern tail hp text behind hr ih => exact ih h
  | case3 l c cs hl pattern tail hp text behind result warnings hr => cases h

theorem mark_of_next_none {l l' : Lexer} (h : l.next = (none, l')) : l'.mark = l.finalMark := by
  rw [← finalMark_next h, finalMark, rest_of_next_none h]
  rfl

/-! ## All items -/

theorem items_of_next_none {l l' : Lexer} (h : l.next = (none, l')) : l.items = ([], l') := by
  rw [items]
  split
  · rename_i l₁ hl₁
    cases h.symm.trans hl₁
    rfl
  · rename_i item l₁ hl₁
    cases h.symm.trans hl₁

theorem items_of_next_some {l l' : Lexer} {item : Item} (h : l.next = (some item, l')) :
    l.items = (item :: l'.items.1, l'.items.2) := by
  rw [items]
  split
  · rename_i l₁ hl₁
    cases h.symm.trans hl₁
  · rename_i item₁ l₁ hl₁
    cases h.symm.trans hl₁
    rfl

theorem items_of_next_eq {l l' : Lexer} (h : l.next = l'.next) : l.items = l'.items := by
  cases hn : l'.next with
  | mk item behind =>
    cases item with
    | none => rw [items_of_next_none hn, items_of_next_none (h.trans hn)]
    | some item => rw [items_of_next_some hn, items_of_next_some (h.trans hn)]

theorem items_of_rest_nil {l : Lexer} (h : l.rest = []) : l.items = ([], l) := by
  refine items_of_next_none ?_
  rw [next]
  split
  · rfl
  · rename_i c cs hcs
    rw [h] at hcs
    cases hcs

end Lexer
end Replay
