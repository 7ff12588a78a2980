import Replay.Proofs.Lockstep.Rules
/-!
Skipping, as a function of the cursor alone.

What skipping does to a state it does to the cursor, so it is described by where it leads from a
cursor, in a state that has nothing else in it.  Runs from cursors that have read differently far
are compared here: what is skipped does not depend on how much of the text has been read already.
-/

namespace Replay

open Exec

def Machine.bare (c : Cursor) : Machine :=
  ⟨c, ScopeTree.new, CallStack.new 0, ScopeTree.root, Sink.unlimited⟩

@[simp] theorem Machine.bare_cursor (c : Cursor) : (bare c).cursor = c := rfl

theorem Machine.bare_inj {c d : Cursor} (h : bare c = bare d) : c = d :=
  congrArg Machine.cursor h

/-- A computation that looks at nothing but tokens, whatever the states that are compared. -/
def Reader {β : Type} (Q : β → Prop) (s : Exec β) : Prop := ∀ L : Link, L.Tied 0 Q s s

/-- `s` leads from `c` to `d`, with the result `b`. -/
def Scans {β : Type} (s : Exec β) (b : β) (c d : Cursor) : Prop := s (.bare c) = .done b (.bare d)

/-- From `c` the text is not what `s` asks for. -/
def Rejects {β : Type} (s : Exec β) (c : Cursor) (e : ParseError) : Prop :=
  ∃ n, s (.bare c) = .fault (.parse e) n

/-- `d` is somewhere between `c` and the place to which `s` leads from `c`. -/
structure Within {β : Type} (s : Exec β) (c d : Cursor) : Prop where
  grown : c.Grown d
  grown_end : ∀ {b d'}, Scans s b c d' → d.Grown d'

/-! ## States and cursors -/

namespace Link

/-- The left-hand state is `m₀` and the right-hand one is `n₀`, except for the cursor that they
share. -/
def frame (m₀ n₀ : Machine) : Link where
  near m n := ∃ c, m = m₀.on c ∧ n = n₀.on c ∧ m₀.cursor.Grown c ∧ c.Inside
  failed m n :=
    ∃ c, m = m₀.on c ∧ n = n₀.on c ∧ m₀.cursor.cache.toList <+: c.cache.toList ∧ c.Inside
  lost _ := False
  inside := by
    rintro _ _ ⟨c, rfl, rfl, _, hc⟩
    exact ⟨hc, hc⟩
  position := by
    rintro _ _ ⟨c, rfl, rfl, _, _⟩
    rfl
  move := by
    rintro _ _ p ⟨c, rfl, rfl, hg, _⟩ hp _
    exact ⟨c.place p, rfl, rfl, hg.place_right p, hp⟩
  failed_of_near := by
    rintro _ _ ⟨c, rfl, rfl, hg, hc⟩
    exact ⟨c, rfl, rfl, hg.cache_le, hc⟩
  peek_ok := by
    rintro _ _ l d ⟨c, rfl, rfl, hg, hc⟩ hp
    obtain ⟨hg', hpos, hsize⟩ := Cursor.peek_ok hc hp
    exact .inr ⟨d, hp, d, rfl, rfl, hg.trans hg', Nat.le_of_lt (hpos ▸ hsize)⟩
  peek_error := by
    rintro _ _ e d ⟨c, rfl, rfl, hg, hc⟩ hp
    obtain ⟨hpos, hr⟩ := Cursor.peek_error hc hp
    obtain ⟨hcache, hpos', _⟩ := Cursor.readOne_error hr
    refine .inr ⟨d, hp, d, rfl, rfl, hcache ▸ hg.cache_le, ?_⟩
    rw [Cursor.Inside, hcache, hpos']
    exact hc
  lost_peek := False.elim
  lost_move := False.elim

theorem frame_start (m₀ n₀ : Machine) (h : m₀.cursor.Inside) :
    (frame m₀ n₀).near m₀ (n₀.on m₀.cursor) :=
  ⟨m₀.cursor, rfl, rfl, .refl _, h⟩

end Link

section Skim

variable {α : Type} {Q : α → Prop} {x s : Exec α} {m m' : Machine}

/-- A skipping rule that is done has moved the cursor to where its counterpart leads. -/
theorem Link.Tied.skim_done (h : (Link.frame m (.bare m.cursor)).Tied 0 Q x s)
    (hm : m.cursor.Inside) {a : α} (hx : x m = .done a m') :
    ∃ d, m' = m.on d ∧ m.cursor.Grown d ∧ d.Inside ∧ Q a ∧ Scans s a m.cursor d := by
  obtain ⟨hQ, hl | ⟨_, hs, d, hm', rfl, hg, hd⟩⟩ :=
    h.done (Link.frame_start _ _ hm) (Nat.zero_le _) hx
  · exact hl.elim
  · exact ⟨d, hm', hg, hd, hQ, hs⟩

/-- A skipping rule fails only for the text. -/
theorem Link.Tied.skim_fault (h : (Link.frame m (.bare m.cursor)).Tied 0 Q x s)
    (hm : m.cursor.Inside) {e : Error} (hx : x m = .fault e m') :
    ∃ p d, e = .parse p ∧ m' = m.on d ∧ m.cursor.cache.toList <+: d.cache.toList ∧ d.Inside ∧
      Rejects s m.cursor p := by
  rcases h.fault (Link.frame_start _ _ hm) (Nat.zero_le _) hx with
    hl | ⟨p, _, he, hs, d, hm', rfl, hg, hd⟩
  · exact hl.elim
  · exact ⟨p, d, he, hm', hg, hd, _, hs⟩

namespace Reader

theorem scans_grown (h : Reader Q s) {a : α} {c d : Cursor} (hc : c.Inside) (hs : Scans s a c d) :
    c.Grown d ∧ d.Inside ∧ Q a := by
  obtain ⟨d', hm', hg, hd, hQ, _⟩ := (h (.frame (.bare c) (.bare c))).skim_done hc hs
  cases Machine.bare_inj hm'
  exact ⟨hg, hd, hQ⟩

/-- In any state the counterpart of what happens to the cursor alone happens. -/
theorem run_done (h : Reader Q s) (hm : m.cursor.Inside) {a : α} {d : Cursor}
    (hs : Scans s a m.cursor d) :
    s m = .done a (m.on d) := by
  obtain ⟨_, hl | ⟨_, hs', d', hd', rfl, _⟩⟩ :=
    (h (.frame (.bare m.cursor) m)).done (Link.frame_start (.bare m.cursor) m hm) (Nat.zero_le _) hs
  · exact hl.elim
  · cases Machine.bare_inj hd'
    exact hs'

theorem run_fault (h : Reader Q s) (hm : m.cursor.Inside) {e : ParseError}
    (hs : Rejects s m.cursor e) :
    ∃ n, s m = .fault (.parse e) n := by
  obtain ⟨_, hs⟩ := hs
  rcases (h (.frame (.bare m.cursor) m)).fault (Link.frame_start (.bare m.cursor) m hm)
    (Nat.zero_le _) hs with hl | ⟨p, n, he, hs', _⟩
  · exact hl.elim
  · cases he
    exact ⟨n, hs'⟩

end Reader
end Skim

/-! ## Cursors that have read differently far -/

namespace Cursor

/-- `d` stands where `c` stands and has read further.  If it is not `c` it has read what `t` has
read. -/
structure Synced (t c d : Cursor) : Prop where
  position : c.position = d.position
  inside : c.Inside
  grown : c.Grown d
  tape : d = c ∨ d = t.place d.position

namespace Synced

variable {t c d : Cursor}

theorem self (t : Cursor) (hc : c.Inside) : Synced t c c := ⟨rfl, hc, .refl c, .inl rfl⟩

theorem start (hpos : c.position = d.position) (hc : c.Inside) (hg : c.Grown d) : Synced d c d :=
  ⟨hpos, hc, hg, .inr rfl⟩

theorem move (h : Synced t c d) {p : Nat} (hp : p ≤ c.cache.size) :
    Synced t (c.place p) (d.place p) where
  position := rfl
  inside := hp
  grown := h.grown.placed p p
  tape := by
    rcases h.tape with rfl | hd
    · exact .inl rfl
    · rw [hd]
      exact .inr rfl

theorem inside_right (h : Synced t c d) : d.Inside :=
  Nat.le_trans (h.position ▸ h.inside) h.grown.size_le

/-- Both see the same token, or the same piece that is none. -/
theorem peek (h : Synced t c d) :
    (∃ l c' d', c.peek = (.ok l, c') ∧ d.peek = (.ok l, d') ∧ Synced t c' d') ∨
      ∃ e c', c.peek = (.error e, c') ∧ d.peek = (.error e, c') := by
  rcases peek_cases h.inside with ⟨l, hl, hp⟩ | ⟨hpos, hp⟩
  · have hd : d.cache[d.position]? = some l := by
      rw [← h.position,
        getElem?_of_cache_le h.grown.cache_le (Array.getElem?_eq_some_iff.mp hl).1, hl]
    exact .inl ⟨l, c, d, hp, peek_cached hd, h⟩
  · rcases Nat.lt_or_ge c.cache.size d.cache.size with hlt | hge
    -- The token is new to `c` only.
    · obtain ⟨l, c₁, hr, hg⟩ := h.grown.next_read hlt
      obtain ⟨hcache, hpos₁, _⟩ := readOne_ok hr
      have hsize : c.cache.size < c₁.cache.size := by
        rw [hcache, Array.size_push]
        exact Nat.lt_succ_self _
      have hd : d.cache[d.position]? = some l := by
        rw [← h.position, hpos, getElem?_of_cache_le hg.cache_le hsize, hcache,
          Array.getElem?_push_size]
      refine .inl ⟨l, c₁, d, hp ▸ hr, peek_cached hd, hpos₁ ▸ h.position, ?_, hg, ?_⟩
      · rw [Inside, hpos₁, hpos]
        exact Nat.le_of_lt hsize
      · rcases h.tape with rfl | hd
        · exact absurd hlt (Nat.lt_irrefl _)
        · exact .inr hd
    -- Neither has read it, so they are the same.
    · have hd := h.grown.eq_place_of_size_le hge
      rw [← h.position, place_self] at hd
      subst hd
      cases hr : d.readOne with
      | mk result d' =>
        cases result with
        | ok l =>
          obtain ⟨hcache, hpos', _⟩ := readOne_ok hr
          refine .inl ⟨l, d', d', hp ▸ hr, hp ▸ hr, self t ?_⟩
          rw [Inside, hcache, hpos', Array.size_push, hpos]
          exact Nat.le_succ _
        | error e => exact .inr ⟨e, d', hp ▸ hr, hp ▸ hr⟩

end Synced
end Cursor

namespace Link

def behind (t : Cursor) : Link where
  near m n := ∃ c d, m = .bare c ∧ n = .bare d ∧ Cursor.Synced t c d
  failed _ _ := True
  lost _ := False
  inside := by
    rintro _ _ ⟨c, d, rfl, rfl, h⟩
    exact ⟨h.inside, h.inside_right⟩
  position := by
    rintro _ _ ⟨c, d, rfl, rfl, h⟩
    exact h.position
  move := by
    rintro _ _ p ⟨c, d, rfl, rfl, h⟩ hp _
    exact ⟨_, _, rfl, rfl, h.move hp⟩
  failed_of_near _ := trivial
  peek_ok := by
    rintro _ _ l c₁ ⟨c, d, rfl, rfl, h⟩ hp
    rcases h.peek with ⟨l', c', d', hc, hd, h'⟩ | ⟨e, c', hc, _⟩ <;> cases hc.symm.trans hp
    exact .inr ⟨d', hd, _, d', rfl, rfl, h'⟩
  peek_error := by
    rintro _ _ e c₁ ⟨c, d, rfl, rfl, h⟩ hp
    rcases h.peek with ⟨l', c', d', hc, _, _⟩ | ⟨e', c', hc, hd⟩ <;> cases hc.symm.trans hp
    exact .inr ⟨_, hd, trivial⟩
  lost_peek := False.elim
  lost_move := False.elim

def ahead (t : Cursor) : Link where
  near m n := ∃ c d, m = .bare d ∧ n = .bare c ∧ Cursor.Synced t c d
  failed _ _ := True
  lost _ := False
  inside := by
    rintro _ _ ⟨c, d, rfl, rfl, h⟩
    exact ⟨h.inside_right, h.inside⟩
  position := by
    rintro _ _ ⟨c, d, rfl, rfl, h⟩
    exact h.position.symm
  move := by
    rintro _ _ p ⟨c, d, rfl, rfl, h⟩ _ hp
    exact ⟨_, _, rfl, rfl, h.move hp⟩
  failed_of_near _ := trivial
  peek_ok := by
    rintro _ _ l d₁ ⟨c, d, rfl, rfl, h⟩ hp
    rcases h.peek with ⟨l', c', d', hc, hd, h'⟩ | ⟨e, c', _, hd⟩ <;> cases hd.symm.trans hp
    exact .inr ⟨c', hc, c', _, rfl, rfl, h'⟩
  peek_error := by
    rintro _ _ e d₁ ⟨c, d, rfl, rfl, h⟩ hp
    rcases h.peek with ⟨l', c', d', _, hd, _⟩ | ⟨e', c', hc, hd⟩ <;> cases hd.symm.trans hp
    exact .inr ⟨_, hc, trivial⟩
  lost_peek := False.elim
  lost_move := False.elim

/-- The left-hand run reads its way to `d`, and the right-hand one has all of that in its cache.  It
has nothing to follow with when the left-hand one reads on behind `d`. -/
def cached (d k : Cursor) (hk : d.cache.toList <+: k.cache.toList) : Link where
  near m n := ∃ c, m = .bare c ∧ n = .bare (k.place c.position) ∧ c.Inside ∧ c.Grown d
  failed _ _ := True
  lost m := d.cache.size < m.cursor.cache.size ∨ m.cursor.lexer.rest.length < d.lexer.rest.length
  inside := by
    rintro _ _ ⟨c, rfl, rfl, hc, hg⟩
    have hle := hk.length_le
    simp only [Array.length_toList] at hle
    exact ⟨hc, Nat.le_trans hc (Nat.le_trans hg.size_le hle)⟩
  position := by
    rintro _ _ ⟨c, rfl, rfl, _, _⟩
    rfl
  move := by
    rintro _ _ p ⟨c, rfl, rfl, hc, hg⟩ hp _
    exact ⟨c.place p, rfl, rfl, hp, hg.place_left p⟩
  failed_of_near _ := trivial
  peek_ok := by
    rintro _ _ l c₁ ⟨c, rfl, rfl, hc, hg⟩ hp
    have hin {c' : Cursor} (hg' : c'.Grown d) (hl : c'.cache[c.position]? = some l) :
        (k.place c.position).peek = (.ok l, k.place c.position) := by
      refine Cursor.peek_cached ?_
      have hlt := (Array.getElem?_eq_some_iff.mp hl).1
      exact (Cursor.getElem?_of_cache_le (hg'.cache_le.trans hk) hlt).trans hl
    rcases Cursor.peek_cases hc with ⟨l', hl, hp'⟩ | ⟨hpos, hp'⟩
    · cases hp'.symm.trans hp
      exact .inr ⟨_, hin hg hl, _, rfl, rfl, hc, hg⟩
    · have hr := hp'.symm.trans hp
      obtain ⟨hcache, hpos₁, _⟩ := Cursor.readOne_ok hr
      rcases Nat.lt_or_ge c.cache.size d.cache.size with hlt | hge
      · obtain ⟨l', c', hr', hg'⟩ := hg.next_read hlt
        cases hr'.symm.trans hr
        refine .inr ⟨_, hin hg' ?_, c₁, rfl, by rw [hpos₁]; rfl, ?_, hg'⟩
        · rw [hcache, hpos, Array.getElem?_push_size]
        · rw [Cursor.Inside, hcache, hpos₁, hpos, Array.size_push]
          exact Nat.le_succ _
      · refine .inl (.inl ?_)
        rw [Machine.on_cursor, hcache, Array.size_push]
        exact Nat.lt_succ_of_le hge
  peek_error := by
    rintro _ _ e c₁ ⟨c, rfl, rfl, hc, hg⟩ hp
    obtain ⟨_, hr⟩ := Cursor.peek_error hc hp
    rcases Nat.lt_or_ge c.cache.size d.cache.size with hlt | hge
    · obtain ⟨l', c', hr', _⟩ := hg.next_read hlt
      cases hr'.symm.trans hr
    · refine .inl (.inr ?_)
      rw [hg.eq_place_of_size_le hge]
      exact (Cursor.readOne_error hr).2.2
  lost_peek := by
    intro m hl
    obtain ⟨hsize, hrest⟩ := m.cursor.peek_monotone
    exact hl.imp (Nat.lt_of_lt_of_le · hsize) (Nat.lt_of_le_of_lt hrest)
  lost_move := id

end Link

namespace Reader

variable {β : Type} {Q : β → Prop} {s : Exec β} {b : β} {c c' d : Cursor} {e : ParseError}

/-- What is skipped from `c` is skipped from a cursor that has read further, but not too far. -/
theorem scans_ahead (h : Reader Q s) (hc : c.Inside) (hpos : c.position = c'.position)
    (hg : c.Grown c') (hg' : c'.Grown d) (hs : Scans s b c d) : Scans s b c' d := by
  obtain ⟨_, hl | ⟨_, hs', d₁, d₂, hd, rfl, hd₂⟩⟩ :=
    (h (.behind c')).done ⟨c, c', rfl, rfl, .start hpos hc hg⟩ (Nat.zero_le _) hs
  · exact hl.elim
  · cases Machine.bare_inj hd
    have heq : d₂ = d := by
      rcases hd₂.tape with heq | heq
      · exact heq
      · have hback : d₂.Grown d := heq ▸ hg'.place_left d₂.position
        rw [hd₂.grown.antisymm hback, ← hd₂.position, Cursor.place_self]
    exact heq ▸ hs'

/-- What is skipped from `c'` is skipped from a cursor that has read less, if the rest is not left
out there. -/
theorem scans_behind (h : Reader Q s) (hc : c.Inside) (hpos : c.position = c'.position)
    (hg : c.Grown c')
    (hend : ∀ {b d}, Scans s b c d → c'.Grown d) (hs : Scans s b c' d) : Scans s b c d := by
  obtain ⟨_, hl | ⟨_, hs', d₁, d₂, hd, rfl, hd₂⟩⟩ :=
    (h (.ahead c')).done ⟨c, c', rfl, rfl, .start hpos hc hg⟩ (Nat.zero_le _) hs
  · exact hl.elim
  · cases Machine.bare_inj hd
    have heq : d₁ = d := by
      rcases hd₂.tape with heq | heq
      · exact heq.symm
      · have hback : d.Grown d₁ := heq ▸ (hend hs').place_left d.position
        have heq' := hd₂.grown.antisymm hback
        rw [← hd₂.position, Cursor.place_self] at heq'
        exact heq'.symm
    exact heq ▸ hs'

theorem rejects_behind (h : Reader Q s) (hc : c.Inside) (hpos : c.position = c'.position)
    (hg : c.Grown c') (hs : Rejects s c' e) : Rejects s c e := by
  obtain ⟨_, hs⟩ := hs
  rcases (h (.ahead c')).fault ⟨c, c', rfl, rfl, .start hpos hc hg⟩ (Nat.zero_le _) hs with
    hl | ⟨p, n, he, hs', _⟩
  · exact hl.elim
  · cases he
    exact ⟨n, hs'⟩

/-- What has been skipped once is skipped in the same way from any cursor that has its tokens. -/
theorem scans_cached (h : Reader Q s) (hc : c.Inside) {k : Cursor}
    (hk : d.cache.toList <+: k.cache.toList) (hs : Scans s b c d) :
    Scans s b (k.place c.position) (k.place d.position) := by
  have hg := (h.scans_grown hc hs).1
  obtain ⟨_, hl | ⟨_, hs', d', hd, rfl, _⟩⟩ :=
    (h (.cached d k hk)).done ⟨c, rfl, rfl, hc, hg⟩ (Nat.zero_le _) hs
  · rcases hl with hl | hl <;> exact absurd hl (Nat.lt_irrefl _)
  · cases Machine.bare_inj hd
    exact hs'

end Reader
end Replay
