import Replay.Proofs.Comments
import Replay.Proofs.Rendering
/-!
The items of a text, and what is between them.

Items and gaps alternate, and put together again they are the text.  A gap has nothing in it but
white space and comments, so whatever else is in a text is in an item, and in one item only.
-/

namespace Replay

/-! ## Slices -/

/-- The bytes from `start` to `stop` are the text, and no character is cut in two. -/
structure IsSlice (source : String) (start stop : Nat) (text : List Char) : Prop where
  starts : String.Pos.Raw.IsValid source ⟨start⟩
  stops : String.Pos.Raw.IsValid source ⟨stop⟩
  bytes : source.toByteArray.extract start stop = (String.ofList text).toByteArray

theorem byteLength_eq (text : List Char) : byteLength text = (String.ofList text).utf8ByteSize := by
  induction text with
  | nil => rfl
  | cons c text ih =>
    have hsplit : String.ofList (c :: text) = String.singleton c ++ String.ofList text := by
      rw [String.singleton_eq_ofList, ← String.ofList_append, List.singleton_append]
    rw [byteLength_cons, ih, hsplit, String.utf8ByteSize_append, String.utf8ByteSize_singleton]

theorem byteLength_pos {text : List Char} (h : text ≠ []) : 0 < byteLength text := by
  obtain ⟨c, rest, rfl⟩ := List.exists_cons_of_ne_nil h
  rw [byteLength_cons]
  exact Nat.add_pos_left c.utf8Size_pos _

theorem IsSlice.of_split {source : String} {before text after : List Char}
    (h : source.toList = before ++ text ++ after) :
    IsSlice source (byteLength before) (byteLength (before ++ text)) text := by
  have hsource : source = String.ofList before ++ String.ofList text ++ String.ofList after := by
    rw [← String.ofList_append, ← String.ofList_append, ← h, String.ofList_toList]
  have hbefore : byteLength before = (String.ofList before).toByteArray.size := byteLength_eq before
  have htext : byteLength text = (String.ofList text).toByteArray.size := byteLength_eq text
  refine ⟨?_, ?_, ?_⟩
  · refine String.Pos.Raw.isValid_iff_exists_append.mpr
      ⟨String.ofList before, String.ofList (text ++ after), ?_, ?_⟩
    · rw [hsource, String.ofList_append, String.append_assoc]
    · rw [byteLength_eq]
      rfl
  · refine String.Pos.Raw.isValid_iff_exists_append.mpr
      ⟨String.ofList (before ++ text), String.ofList after, ?_, ?_⟩
    · rw [hsource, String.ofList_append]
    · rw [byteLength_eq]
      rfl
  · rw [hsource, String.toByteArray_append, String.toByteArray_append, byteLength_append,
      hbefore, htext, ByteArray.append_assoc]
    exact (ByteArray.extract_append_size_add (i := 0)).trans (ByteArray.extract_append_eq_left rfl)

/-! ## Gaps -/

/-- What a block comment has inside.  A star takes the next character with it, and that is not a
slash. -/
inductive Inside : List Char → Prop where
  | nil : Inside []
  | plain {c : Char} {text : List Char} : c ≠ '*' → Inside text → Inside (c :: text)
  | star {c : Char} {text : List Char} : c ≠ '/' → Inside text → Inside ('*' :: c :: text)

/-- The text is over, or its line is. -/
def EndsLine (text : List Char) : Prop :=
  ∀ c ∈ text.head?, c = '\n' ∨ c = '\r'

/-- White space and comments only, with `after` behind them.  A line comment goes on to the end of
its line. -/
inductive IsGap (after : List Char) : List Char → Prop where
  | nil : IsGap after []
  | space {gap : List Char} (s : Space) : IsGap after gap → IsGap after (s.char :: gap)
  | lineComment {gap : List Char} (r : Remark) :
    EndsLine (gap ++ after) → IsGap after gap → IsGap after ('/' :: '/' :: (r.text ++ gap))
  | blockComment {inner gap : List Char} :
    Inside inner → IsGap after gap → IsGap after (Replay.blockComment inner ++ gap)

namespace Lexer

section Gaps

variable {gap after : List Char}

theorem isGap_blank {text : List Char} (h : ∀ c ∈ text, isBlank c = true) (hgap : IsGap after gap) :
    IsGap after (text ++ gap) := by
  induction text with
  | nil => exact hgap
  | cons c text ih =>
    obtain ⟨hc, htext⟩ := List.forall_mem_cons.mp h
    have hspace : ∃ s : Space, s.char = c := by
      rcases isBlank_cases hc with rfl | rfl | rfl | rfl
      · exact ⟨.space, rfl⟩
      · exact ⟨.tab, rfl⟩
      · exact ⟨.carriageReturn, rfl⟩
      · exact ⟨.formFeed, rfl⟩
    obtain ⟨s, rfl⟩ := hspace
    exact .space s (ih htext)

/-- A line comment takes all of its line. -/
theorem endsLine_of_lineCommentTail {text rest : List Char}
    (h : text = lineCommentTail text ++ rest) : EndsLine rest := by
  have hrest : rest = text.dropWhile fun c => c ≠ '\n' && c ≠ '\r' :=
    List.append_cancel_left (h.symm.trans List.takeWhile_append_dropWhile.symm)
  intro c hc
  have hhead := List.head?_dropWhile_not (fun c => c ≠ '\n' && c ≠ '\r') text
  rw [← hrest, Option.mem_def.mp hc] at hhead
  by_cases hline : c = '\n'
  · exact .inl hline
  · exact .inr (by simpa [hline] using hhead)

/-- The rest of a comment is what it has inside, and its end. -/
theorem inside_of_blockCommentTail? {cs tail : List Char} (h : blockCommentTail? cs = some tail) :
    ∃ inner, Inside inner ∧ tail = inner ++ ['*', '/'] := by
  fun_induction blockCommentTail? cs generalizing tail with
  | case1 => cases h
  | case2 => cases h
  | case3 cs =>
    cases h
    exact ⟨[], .nil, rfl⟩
  | case4 c cs hc ih =>
    obtain ⟨rest, hrest, rfl⟩ := Option.map_eq_some_iff.mp h
    obtain ⟨inner, hinner, rfl⟩ := ih hrest
    exact ⟨'*' :: c :: inner, .star hc hinner, rfl⟩
  | case5 c cs hc ih =>
    obtain ⟨rest, hrest, rfl⟩ := Option.map_eq_some_iff.mp h
    obtain ⟨inner, hinner, rfl⟩ := ih hrest
    exact ⟨c :: inner, .plain hc hinner, rfl⟩

theorem isGap_comment {cs tail : List Char} {pattern : Pattern}
    (h : comment? cs = some (pattern, tail)) (hcs : cs = tail ++ (gap ++ after))
    (hgap : IsGap after gap) : IsGap after ('/' :: tail ++ gap) := by
  unfold comment? at h
  split at h
  · next text =>
    cases h
    have hends := endsLine_of_lineCommentTail (List.cons.inj hcs).2
    refine .lineComment ⟨lineCommentTail text, fun c hc => ?_⟩ hends hgap
    have hall := List.all_eq_true.mp List.all_takeWhile c hc
    simpa using hall
  · obtain ⟨rest, hrest, heq⟩ := Option.map_eq_some_iff.mp h
    cases heq
    obtain ⟨inner, hinner, rfl⟩ := inside_of_blockCommentTail? hrest
    exact .blockComment hinner hgap
  · cases h

theorem number_ne_trivia (c : Char) (cs : List Char) (t : Trivia) :
    (number c cs).1 ≠ .trivia t := by
  unfold number
  split
  · exact fun h => by cases h
  · split <;> exact fun h => by cases h

theorem quoted_ne_trivia {kind : Pattern} {t : Trivia} (h : kind ≠ .trivia t) (quote : Char)
    (cs : List Char) :
    (quoted quote kind cs).1 ≠ .trivia t := by
  unfold quoted
  split
  · exact h
  · exact fun h => by cases h

theorem sign_ne_trivia (c : Char) (cs : List Char) (t : Trivia) : (sign c cs).1 ≠ .trivia t := by
  unfold sign
  split <;> exact fun h => by cases h

theorem isGap_of_trivia {c : Char} {cs tail : List Char} {t : Trivia}
    (h : recognise c cs = (.trivia t, tail)) (hcs : cs = tail ++ (gap ++ after))
    (hgap : IsGap after gap) : IsGap after (c :: tail ++ gap) := by
  unfold recognise at h
  split at h
  · next hblank =>
    cases h
    refine isGap_blank (fun d hd => ?_) hgap
    rcases List.mem_cons.mp hd with rfl | hd
    · exact hblank
    · exact List.all_eq_true.mp List.all_takeWhile d hd
  split at h
  · next hline =>
    cases h
    subst hline
    exact .space .newline hgap
  split at h
  · exact absurd (congrArg Prod.fst h) (number_ne_trivia c cs t)
  split at h
  · cases h
  split at h
  · exact absurd (congrArg Prod.fst h) (quoted_ne_trivia (fun h => by cases h) c cs)
  split at h
  · exact absurd (congrArg Prod.fst h) (quoted_ne_trivia (fun h => by cases h) c cs)
  split at h
  · next comment hcomment =>
    subst h
    split at hcomment
    · next hslash =>
      subst hslash
      exact isGap_comment hcomment hcs hgap
    · cases hcomment
  · exact absurd (congrArg Prod.fst h) (sign_ne_trivia c cs t)

/-- Nothing else is passed over. -/
theorem trivia_of_skipped {m : Mark} {text : List Char} {pattern : Pattern}
    (h : read m pattern text = .skipped) :
    ∃ t, pattern = .trivia t := by
  have hnumber : ∀ {α : Type} {kind : LiteralKind} {token : α → Token} {value : Option α},
      readNumber kind token value ≠ .skipped := by
    intro α kind token value h
    cases value <;> cases h
  cases pattern with
  | trivia t => exact ⟨t, rfl⟩
  | decimal => exact absurd h hnumber
  | hexadecimal => exact absurd h hnumber
  | real => exact absurd h hnumber
  | character =>
    simp only [read, readCharacter] at h
    split at h <;> cases h
  | string =>
    simp only [read, readString] at h
    split at h <;> cases h
  | word => cases h
  | punct p => cases h
  | illegal => cases h

theorem isGap_of_skipped {m : Mark} {c : Char} {cs tail : List Char} {pattern : Pattern}
    (hp : recognise c cs = (pattern, tail)) (hr : read m pattern (c :: tail) = .skipped)
    (hcs : cs = tail ++ (gap ++ after)) (hgap : IsGap after gap) :
    IsGap after (c :: tail ++ gap) := by
  obtain ⟨t, rfl⟩ := trivia_of_skipped hr
  exact isGap_of_trivia hp hcs hgap

end Gaps

/-! ## Items and gaps -/

def Item.stop (item : Item) : Nat := item.start.offset + byteLength item.text

/-- Behind `before` the text has these items, with gaps between them. -/
inductive Laid (source : List Char) : List Char → List Item → Prop where
  | nil {before gap : List Char} : IsGap [] gap → source = before ++ gap → Laid source before []
  | cons {before gap after : List Char} {item : Item} {items : List Item} :
    IsGap (item.text ++ after) gap → source = before ++ gap ++ (item.text ++ after) →
    item.start.offset = byteLength (before ++ gap) → item.text ≠ [] →
    Laid source (before ++ gap ++ item.text) items → Laid source before (item :: items)

/-- Behind the last item there is only a gap. -/
theorem rest_isGap {l l' : Lexer} (hn : l.next = (none, l')) : IsGap [] l.rest := by
  fun_induction next l with
  | case1 l hl =>
    rw [hl]
    exact .nil
  | case2 l c cs hl pattern tail hp text behind hr ih =>
    have htail : tail <+: cs := by simpa only [hp] using recognise_le c cs
    have hcs : tail ++ cs.drop tail.length = cs := List.prefix_iff_eq_append.mp htail
    have hgap := isGap_of_skipped hp hr (by rw [List.append_nil, hcs]) (ih hn)
    rwa [List.cons_append, hcs, ← hl] at hgap
  | case3 => cases hn

namespace Past

variable {source before : List Char} {l l' : Lexer} {item : Item}

theorem next_laid (h : l.Past source before) (hn : l.next = (some item, l')) :
    ∃ gap, IsGap (item.text ++ l'.rest) gap ∧ item.start.Exact (before ++ gap) ∧ item.text ≠ [] ∧
      l'.Past source (before ++ gap ++ item.text) := by
  fun_induction next l generalizing before with
  | case1 l hl => cases hn
  | case2 l c cs hl pattern tail hp text behind hr =>
    rename_i ih
    obtain ⟨gap, hgap, hstart, htext, hpast⟩ := ih (h.behind hl hp l.warnings) hn
    have hsource : before ++ (c :: cs) =
        before ++ (c :: (tail ++ (gap ++ (item.text ++ l'.rest)))) := by
      rw [← hl, ← h.split, hpast.split]
      simp only [List.append_assoc, List.cons_append]
    have hcs := (List.cons.inj (List.append_cancel_left hsource)).2
    rw [List.append_assoc before] at hstart hpast
    exact ⟨c :: tail ++ gap, isGap_of_skipped hp hr hcs hgap, hstart, htext, hpast⟩
  | case3 l c cs hl pattern tail hp text behind result warnings =>
    cases hn
    refine ⟨[], .nil, ?_, List.cons_ne_nil c tail, ?_⟩
    · rw [List.append_nil]
      exact h.mark
    · rw [List.append_nil]
      exact h.behind hl hp _

theorem laid (h : l.Past source before) : Laid source before l.items.1 := by
  fun_induction Lexer.items l generalizing before with
  | case1 l l' hn => exact .nil (rest_isGap hn) h.split
  | case2 l item l' hn others final hitems ih =>
    obtain ⟨gap, hgap, hstart, htext, hpast⟩ := h.next_laid hn
    have hsource := hpast.split
    rw [List.append_assoc (before ++ gap)] at hsource
    rw [hitems] at ih
    exact .cons hgap hsource hstart.offset htext (ih hpast)

end Past

theorem rest_items (l : Lexer) : l.items.2.rest = [] := by
  fun_induction Lexer.items l with
  | case1 l l' hn => exact rest_of_next_none hn
  | case2 l item l' hn others final hitems ih =>
    rw [hitems] at ih
    exact ih

namespace Laid

variable {source before : List Char} {items : List Item}

theorem length_le (h : Laid source before items) :
    before.length + items.length ≤ source.length := by
  induction h with
  | nil _ hsource => simp [hsource]
  | cons _ _ _ htext _ ih =>
    have hpos := List.length_pos_iff.mpr htext
    simp only [List.length_append, List.length_cons] at ih ⊢
    omega

theorem le_start (h : Laid source before items) :
    ∀ item ∈ items, byteLength before ≤ item.start.offset := by
  induction h with
  | nil _ _ => exact fun item hitem => absurd hitem List.not_mem_nil
  | cons _ _ hstart _ _ ih =>
    intro found hfound
    rcases List.mem_cons.mp hfound with rfl | hfound
    · rw [hstart, byteLength_append]
      exact Nat.le_add_right _ _
    · have hle := ih found hfound
      simp only [byteLength_append] at hle
      omega

theorem stop_eq {gap : List Char} {item : Item}
    (h : item.start.offset = byteLength (before ++ gap)) :
    item.stop = byteLength (before ++ gap ++ item.text) := by
  rw [Item.stop, h, byteLength_append (before ++ gap)]

theorem pairwise (h : Laid source before items) :
    items.Pairwise fun a b => a.stop ≤ b.start.offset := by
  induction h with
  | nil _ _ => exact .nil
  | cons _ _ hstart _ hitems ih =>
    refine List.pairwise_cons.mpr ⟨fun later hlater => ?_, ih⟩
    rw [stop_eq hstart]
    exact hitems.le_start later hlater

theorem item (h : Laid source before items) : ∀ item ∈ items, item.text ≠ [] ∧ ∃ front after,
    source = front ++ item.text ++ after ∧ item.start.offset = byteLength front := by
  induction h with
  | nil _ _ => exact fun item hitem => absurd hitem List.not_mem_nil
  | cons _ hsource hstart htext _ ih =>
    intro found hfound
    rcases List.mem_cons.mp hfound with rfl | hfound
    · exact ⟨htext, _, _, hsource.trans (List.append_assoc _ _ _).symm, hstart⟩
    · exact ih found hfound

/-- A byte that is in no item is in a gap, and the gap goes as far as to the next items. -/
theorem gap (h : Laid source before items) {i : Nat} (hbefore : byteLength before ≤ i)
    (hi : i < byteLength source)
    (hfree : ∀ item ∈ items, ¬(item.start.offset ≤ i ∧ i < item.stop)) :
    ∃ front gap after, source = front ++ gap ++ after ∧ IsGap after gap ∧
      byteLength front ≤ i ∧ i < byteLength (front ++ gap) ∧
      (∀ item ∈ items, item.stop ≤ byteLength front ∨
        byteLength (front ++ gap) ≤ item.start.offset) ∧
      (front = before ∨ ∃ item ∈ items, item.stop = byteLength front) ∧
      (after = [] ∨ ∃ item ∈ items, item.start.offset = byteLength (front ++ gap)) := by
  induction h with
  | @nil before gap hgap hsource =>
    refine ⟨before, gap, [], by rw [List.append_nil, hsource], hgap, hbefore, hsource ▸ hi, ?_,
      .inl rfl, .inl rfl⟩
    exact fun item hitem => absurd hitem List.not_mem_nil
  | @cons before gap after item items hgap hsource hstart htext hitems ih =>
    obtain ⟨hitem, hothers⟩ := List.forall_mem_cons.mp hfree
    have hstop := stop_eq hstart
    have hwithin : item.start.offset ≤ item.stop := Nat.le_add_right _ _
    by_cases hbehind : item.stop ≤ i
    · -- The item is left behind, and the gap is further on.
      obtain ⟨front, more, after, hsource, hmore, hfront, hback, hapart, hleft, hright⟩ :=
        ih (hstop ▸ hbehind) hothers
      have hedge : ∃ found ∈ item :: items, found.stop = byteLength front := by
        rcases hleft with rfl | ⟨found, hfound, hedge⟩
        · exact ⟨item, List.mem_cons_self, hstop⟩
        · exact ⟨found, List.mem_cons_of_mem _ hfound, hedge⟩
      have hpassed : item.stop ≤ byteLength front := by
        rcases hleft with rfl | ⟨found, hfound, hedge⟩
        · exact Nat.le_of_eq hstop
        · have hle := hitems.le_start found hfound
          rw [← hstop] at hle
          rw [← hedge]
          exact Nat.le_trans hle (Nat.le_add_right _ _)
      refine ⟨front, more, after, hsource, hmore, hfront, hback, ?_, .inr hedge, ?_⟩
      · exact List.forall_mem_cons.mpr ⟨.inl hpassed, hapart⟩
      · exact hright.imp_right fun ⟨found, hfound, hedge⟩ =>
          ⟨found, List.mem_cons_of_mem _ hfound, hedge⟩
    · -- The byte is before the item, so it is in the first gap.
      have hearlier : i < byteLength (before ++ gap) := by omega
      refine ⟨before, gap, item.text ++ after, hsource, hgap, hbefore, hearlier, ?_, .inl rfl, ?_⟩
      · refine List.forall_mem_cons.mpr
          ⟨.inr (Nat.le_of_eq hstart.symm), fun found hfound => .inr ?_⟩
        have hle := hitems.le_start found hfound
        rw [byteLength_append (before ++ gap)] at hle
        exact Nat.le_trans (Nat.le_add_right _ _) hle
      · exact .inr ⟨item, List.mem_cons_self, hstart⟩

end Laid

end Lexer

/-- The bytes from `start` to `stop` are in no item, and those at either side are. -/
structure MaximalGap (source : String) (start stop : Nat) (text : List Char) : Prop where
  slice : IsSlice source start stop text
  fillers : ∃ after, IsSlice source stop source.utf8ByteSize after ∧ IsGap after text
  free : ∀ item ∈ Stream.items source, item.stop ≤ start ∨ stop ≤ item.start.offset
  left : start = 0 ∨ ∃ item ∈ Stream.items source, item.stop = start
  right : stop = source.utf8ByteSize ∨ ∃ item ∈ Stream.items source, item.start.offset = stop

/-- The lexer comes to the end of every text, and no part of it is lost, found twice or made up.
Every item is a slice of the text that is not empty, and the next one comes behind it.  A byte that
is in no item is in a gap between items that has nothing in it but white space and comments. -/
theorem items_and_gaps (source : String) :
    ((Lexer.ofSource source).items.2.rest = [] ∧ (Stream.items source).length ≤ source.length) ∧
    (∀ item ∈ Stream.items source, item.start.offset < item.stop ∧
      IsSlice source item.start.offset item.stop item.text) ∧
    (Stream.items source).Pairwise (fun a b => a.stop ≤ b.start.offset) ∧
    ∀ i < source.utf8ByteSize,
      (∀ item ∈ Stream.items source, ¬(item.start.offset ≤ i ∧ i < item.stop)) →
      ∃ start stop text, start ≤ i ∧ i < stop ∧ MaximalGap source start stop text := by
  have hlaid := (Lexer.Past.ofSource source).laid
  refine ⟨⟨Lexer.rest_items _, ?_⟩, fun item hitem => ?_, hlaid.pairwise, fun i hi hfree => ?_⟩
  · have hle := hlaid.length_le
    rwa [List.length_nil, Nat.zero_add, String.length_toList] at hle
  · obtain ⟨htext, front, after, hsource, hstart⟩ := hlaid.item item hitem
    have hslice := IsSlice.of_split hsource
    rw [byteLength_append, ← hstart] at hslice
    exact ⟨Nat.lt_add_of_pos_right (byteLength_pos htext), hslice⟩
  · have hsize : byteLength source.toList = source.utf8ByteSize := by
      rw [byteLength_eq, String.ofList_toList]
    obtain ⟨front, gap, after, hsource, hgap, hfront, hback, hapart, hleft, hright⟩ :=
      hlaid.gap (Nat.zero_le i) (hsize ▸ hi) hfree
    have hafter := IsSlice.of_split (hsource.trans (List.append_nil _).symm)
    rw [← hsource, hsize] at hafter
    refine ⟨_, _, gap, hfront, hback, IsSlice.of_split hsource, ⟨after, hafter, hgap⟩,
      hapart, ?_, ?_⟩
    · exact hleft.imp_left fun hnil => by rw [hnil, byteLength_nil]
    · refine hright.imp_left fun hnil => ?_
      rw [← hsize, hsource, hnil, List.append_nil]

/-- The third byte is in the middle of a comment, and it is the first half of a character.  What
looks like the start of a comment in another one, at the twelfth byte, is not closed at the end of
the text: there is a quote before that, which is never closed. -/
theorem items_and_gaps_accent :
    let source := "/*é*/x // /*\r'a // */"
    (Stream.items source).map (fun item => (item.start.offset, item.stop)) = [(6, 7), (14, 22)] ∧
      (∃ item ∈ Stream.items source,
        item.start.offset = 14 ∧ IsSlice source 14 item.stop item.text) ∧
      (∃ start stop text, start ≤ 2 ∧ 2 < stop ∧ MaximalGap source start stop text) ∧
      ∃ start stop text, start ≤ 11 ∧ 11 < stop ∧ MaximalGap source start stop text := by
  intro source
  obtain ⟨-, hitems, -, hgaps⟩ := items_and_gaps source
  have hquote : ∃ item ∈ Stream.items source, item.start.offset = 14 := by decide +kernel
  obtain ⟨item, hitem, hstart⟩ := hquote
  refine ⟨by decide +kernel, ⟨item, hitem, hstart, hstart ▸ (hitems item hitem).2⟩, ?_, ?_⟩
  · exact hgaps 2 (by decide +kernel) (by decide +kernel)
  · exact hgaps 11 (by decide +kernel) (by decide +kernel)

end Replay
