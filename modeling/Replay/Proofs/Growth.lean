import Replay.Proofs.Exec
/-!
Cursors that have read further.

Two cursors over one script differ in their positions and in how many tokens they have read so far.
`Grown c d` says that `d` is what `c` becomes by reading more tokens, wherever the two stand.
Reading on is deterministic, so what a cursor sees at a position does not depend on how much has
been read already.
-/

namespace Replay

namespace Lexer

theorem length_rest_le_of_next {l l' : Lexer} (h : l.next = (none, l')) :
    l'.rest.length ≤ l.rest.length := by
  fun_induction next l with
  | case1 l hl =>
    cases h
    exact Nat.le_refl _
  | case2 l c cs hl pattern tail hp text behind hr ih =>
    have hle := ih h
    simp only [behind, List.length_drop] at hle
    rw [hl, List.length_cons]
    omega
  | case3 l c cs hl pattern tail hp text behind result warnings hr => cases h

end Lexer

namespace Cursor

def place (c : Cursor) (position : Nat) : Cursor := { c with position }

@[simp] theorem place_lexer (c : Cursor) (p : Nat) : (c.place p).lexer = c.lexer := rfl
@[simp] theorem place_cache (c : Cursor) (p : Nat) : (c.place p).cache = c.cache := rfl
@[simp] theorem place_position (c : Cursor) (p : Nat) : (c.place p).position = p := rfl
@[simp] theorem place_place (c : Cursor) (p q : Nat) : (c.place p).place q = c.place q := rfl
@[simp] theorem place_self (c : Cursor) : c.place c.position = c := rfl

/-- The position is one of the tokens read so far, or right behind them. -/
def Inside (c : Cursor) : Prop := c.position ≤ c.cache.size

/-! ## Reading one token -/

theorem readOne_place (c : Cursor) (p : Nat) :
    (c.place p).readOne = (c.readOne.1, c.readOne.2.place p) := by
  obtain ⟨lexer, cache, position⟩ := c
  unfold readOne place
  simp only []
  cases lexer.next with
  | mk item lexer' =>
    cases item with
    | none => rfl
    | some item =>
      simp only []
      cases item.result <;> rfl

/-- What reading one more token comes to: the end of the text, a token, or a piece that is no
token. -/
inductive ReadsOne (c : Cursor) : Except ParseError Lexeme × Cursor → Prop where
  | ended {lexer : Lexer} {l : Lexeme} :
    c.lexer.next = (none, lexer) → l = ⟨.endOfInput, lexer.mark.location, c.cache.size⟩ →
    ReadsOne c (.ok l, ⟨lexer, c.cache.push l, c.position⟩)
  | token {item : Lexer.Item} {lexer : Lexer} {token : Token} {l : Lexeme} :
    c.lexer.next = (some item, lexer) → item.result = .ok token →
    l = ⟨token, item.start.location, c.cache.size⟩ →
    ReadsOne c (.ok l, ⟨lexer, c.cache.push l, c.position⟩)
  | fault {item : Lexer.Item} {lexer : Lexer} {fault : Lexer.Fault} :
    c.lexer.next = (some item, lexer) → item.result = .error fault →
    ReadsOne c (.error (faultError item fault), ⟨lexer, c.cache, c.position⟩)

theorem readsOne {c d : Cursor} {r : Except ParseError Lexeme} (h : c.readOne = (r, d)) :
    c.ReadsOne (r, d) := by
  rw [← h]
  unfold readOne
  cases hn : c.lexer.next with
  | mk item lexer =>
    cases item with
    | none =>
      simp only [hn]
      exact .ended hn rfl
    | some item =>
      cases hr : item.result with
      | ok token =>
        simp only [hn, hr]
        exact .token hn hr rfl
      | error fault =>
        simp only [hn, hr]
        exact .fault hn hr

theorem readOne_ok {c d : Cursor} {l : Lexeme} (h : c.readOne = (.ok l, d)) :
    d.cache = c.cache.push l ∧ d.position = c.position ∧
      d.lexer.rest.length ≤ c.lexer.rest.length := by
  cases readsOne h with
  | ended hn _ => exact ⟨rfl, rfl, Lexer.length_rest_le_of_next hn⟩
  | token hn _ _ => exact ⟨rfl, rfl, Nat.le_of_lt (Lexer.length_rest_lt_of_next hn)⟩

/-- A piece that is not a token is gone once it is reported. -/
theorem readOne_error {c d : Cursor} {e : ParseError} (h : c.readOne = (.error e, d)) :
    d.cache = c.cache ∧ d.position = c.position ∧
      d.lexer.rest.length < c.lexer.rest.length := by
  cases readsOne h with
  | fault hn _ => exact ⟨rfl, rfl, Lexer.length_rest_lt_of_next hn⟩

/-! ## Reading on -/

inductive Grown : Cursor → Cursor → Prop where
  | same (c : Cursor) (p : Nat) : Grown c (c.place p)
  | more {c c₁ d : Cursor} {l : Lexeme} : c.readOne = (.ok l, c₁) → Grown c₁ d → Grown c d

namespace Grown

theorem refl (c : Cursor) : Grown c c := same c c.position

theorem placed {c d : Cursor} (h : Grown c d) (p q : Nat) : Grown (c.place p) (d.place q) := by
  induction h with
  | same c r => exact same (c.place p) q
  | more hr _ ih =>
    exact more (by rw [readOne_place, hr]) ih

theorem place_right {c d : Cursor} (h : Grown c d) (q : Nat) : Grown c (d.place q) :=
  h.placed c.position q

theorem place_left {c d : Cursor} (h : Grown c d) (p : Nat) : Grown (c.place p) d :=
  h.placed p d.position

theorem trans {c d e : Cursor} (h : Grown c d) (h' : Grown d e) : Grown c e := by
  induction h with
  | same c p => exact h'.place_left c.position
  | more hr _ ih => exact more hr (ih h')

theorem of_readOne {c d : Cursor} {l : Lexeme} (h : c.readOne = (.ok l, d)) : Grown c d :=
  more h (refl d)

theorem cache_le {c d : Cursor} (h : Grown c d) : c.cache.toList <+: d.cache.toList := by
  induction h with
  | same c p => exact List.prefix_refl _
  | @more c c₁ d l hr _ ih =>
    have hpush : c₁.cache.toList = c.cache.toList ++ [l] := by
      rw [(readOne_ok hr).1, Array.toList_push]
    exact (hpush ▸ List.prefix_append _ _).trans ih

theorem size_le {c d : Cursor} (h : Grown c d) : c.cache.size ≤ d.cache.size := by
  have hle := h.cache_le.length_le
  simpa using hle

/-- If nothing was read there is nothing but the position to tell the two apart. -/
theorem eq_place_of_size_le {c d : Cursor} (h : Grown c d) (hs : d.cache.size ≤ c.cache.size) :
    d = c.place d.position := by
  cases h with
  | same p => rfl
  | more hr h' =>
    have hlt := h'.size_le
    rw [(readOne_ok hr).1, Array.size_push] at hlt
    omega

theorem antisymm {c d : Cursor} (h : Grown c d) (h' : Grown d c) : d = c.place d.position :=
  h.eq_place_of_size_le h'.size_le

/-- A cursor with less tokens reads the next one of the other. -/
theorem next_read {c d : Cursor} (h : Grown c d) (hs : c.cache.size < d.cache.size) :
    ∃ l c₁, c.readOne = (.ok l, c₁) ∧ Grown c₁ d := by
  cases h with
  | same p => exact absurd hs (Nat.lt_irrefl _)
  | more hr h' => exact ⟨_, _, hr, h'⟩

end Grown

/-! ## Looking at the token at the position -/

theorem getElem?_of_cache_le {c d : Cursor} {i : Nat} (h : c.cache.toList <+: d.cache.toList)
    (hi : i < c.cache.size) : d.cache[i]? = c.cache[i]? := by
  have hi' : i < c.cache.toList.length := by simpa using hi
  rw [← Array.getElem?_toList, List.prefix_iff_getElem?.mp h i hi', ← List.getElem?_eq_getElem hi',
    Array.getElem?_toList]

theorem peek_cached {c : Cursor} {l : Lexeme} (h : c.cache[c.position]? = some l) :
    c.peek = (.ok l, c) := by
  simp only [peek, h]

theorem peek_at_end {c : Cursor} (h : c.cache.size ≤ c.position) : c.peek = c.readOne := by
  have hn : c.cache[c.position]? = none := Array.getElem?_eq_none h
  simp only [peek, hn]

theorem peek_position (c : Cursor) : c.peek.2.position = c.position := by
  unfold peek
  cases c.cache[c.position]? with
  | some l => rfl
  | none =>
    simp only []
    cases h : c.readOne with
    | mk result d =>
      cases result with
      | ok l => exact (readOne_ok h).2.1
      | error e => exact (readOne_error h).2.1

/-- The two ways in which a token is looked at: it is known already, or it is the next one to be
read. -/
theorem peek_cases {c : Cursor} (hc : c.Inside) :
    (∃ l, c.cache[c.position]? = some l ∧ c.peek = (.ok l, c)) ∨
      (c.position = c.cache.size ∧ c.peek = c.readOne) := by
  rcases Nat.lt_or_ge c.position c.cache.size with hlt | hge
  · have hl := Array.getElem?_eq_getElem hlt
    exact .inl ⟨_, hl, peek_cached hl⟩
  · exact .inr ⟨Nat.le_antisymm hc hge, peek_at_end hge⟩

theorem peek_ok {c d : Cursor} {l : Lexeme} (hc : c.Inside) (h : c.peek = (.ok l, d)) :
    Grown c d ∧ d.position = c.position ∧ c.position < d.cache.size := by
  rcases peek_cases hc with ⟨l', hl, hp⟩ | ⟨hpos, hp⟩
  · rw [hp] at h
    cases h
    exact ⟨.refl _, rfl, (Array.getElem?_eq_some_iff.mp hl).1⟩
  · rw [hp] at h
    obtain ⟨hcache, hp', _⟩ := readOne_ok h
    refine ⟨.of_readOne h, hp', ?_⟩
    rw [hcache, Array.size_push, hpos]
    exact Nat.lt_succ_self _

/-- The token that was looked at is where it was looked for. -/
theorem peek_getElem? {c d : Cursor} {l : Lexeme} (hc : c.Inside) (h : c.peek = (.ok l, d)) :
    d.cache[c.position]? = some l := by
  rcases peek_cases hc with ⟨l', hl, hp⟩ | ⟨hpos, hp⟩
  · cases hp.symm.trans h
    exact hl
  · rw [hp] at h
    rw [(readOne_ok h).1, hpos, Array.getElem?_push_size]

theorem peek_error {c d : Cursor} {e : ParseError} (hc : c.Inside) (h : c.peek = (.error e, d)) :
    c.position = c.cache.size ∧ c.readOne = (.error e, d) := by
  rcases peek_cases hc with ⟨l', hl, hp⟩ | ⟨hpos, hp⟩
  · rw [hp] at h
    cases h
  · exact ⟨hpos, hp ▸ h⟩

/-- Looking at a token never gives tokens or text back. -/
theorem peek_monotone (c : Cursor) :
    c.cache.size ≤ c.peek.2.cache.size ∧ c.peek.2.lexer.rest.length ≤ c.lexer.rest.length := by
  unfold peek
  cases c.cache[c.position]? with
  | some l => exact ⟨Nat.le_refl _, Nat.le_refl _⟩
  | none =>
    simp only []
    cases h : c.readOne with
    | mk result d =>
      cases result with
      | ok l =>
        obtain ⟨hcache, _, hrest⟩ := readOne_ok h
        simp only [hcache, Array.size_push]
        exact ⟨Nat.le_succ _, hrest⟩
      | error e =>
        obtain ⟨hcache, _, hrest⟩ := readOne_error h
        simp only [hcache]
        exact ⟨Nat.le_refl _, Nat.le_of_lt hrest⟩

end Cursor
end Replay
