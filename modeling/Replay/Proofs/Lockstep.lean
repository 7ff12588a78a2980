import Replay.Proofs.Growth
/-!
Runs that go in step.

A rule that skips looks at nothing but the tokens, one after the other.  So if two states show the
same tokens now and after every token they have in common, the rule does the same from both of them.
A `Link` is such a correspondence of states; which one it is does not matter to the rules, and it is
used with several.

The left-hand run may leave the correspondence for good, by reading on where the right-hand one
cannot follow.  It is `lost` then, and nothing is said about the other.
-/

namespace Replay

open Exec

/-- A correspondence of states that is kept by looking at tokens and by moving the position.
`failed` relates what is left after a piece that is not a token. -/
structure Link where
  near : Machine → Machine → Prop
  failed : Machine → Machine → Prop
  lost : Machine → Prop
  inside : ∀ {m n}, near m n → m.cursor.Inside ∧ n.cursor.Inside
  position : ∀ {m n}, near m n → m.cursor.position = n.cursor.position
  move : ∀ {m n p}, near m n → p ≤ m.cursor.cache.size → p ≤ n.cursor.cache.size →
    near (m.on (m.cursor.place p)) (n.on (n.cursor.place p))
  failed_of_near : ∀ {m n}, near m n → failed m n
  peek_ok : ∀ {m n l c}, near m n → m.cursor.peek = (.ok l, c) →
    lost (m.on c) ∨ ∃ d, n.cursor.peek = (.ok l, d) ∧ near (m.on c) (n.on d)
  peek_error : ∀ {m n e c}, near m n → m.cursor.peek = (.error e, c) →
    lost (m.on c) ∨ ∃ d, n.cursor.peek = (.error e, d) ∧ failed (m.on c) (n.on d)
  lost_peek : ∀ {m}, lost m → lost (m.on m.cursor.peek.2)
  lost_move : ∀ {m p}, lost m → lost (m.on (m.cursor.place p))

/-- From corresponding states `y` does what `x` does, unless `x` runs out of fuel or gets lost.  The
position is at least `least`, so that many tokens may be given back.  `Q` is what is known of the
result. -/
structure Link.Tied (L : Link) {α : Type} (least : Nat) (Q : α → Prop) (x y : Exec α) : Prop where
  done : ∀ {m n a m'}, L.near m n → least ≤ m.cursor.position → x m = .done a m' →
    Q a ∧ (L.lost m' ∨ ∃ n', y n = .done a n' ∧ L.near m' n')
  fault : ∀ {m n e m'}, L.near m n → least ≤ m.cursor.position → x m = .fault e m' →
    L.lost m' ∨ ∃ p n', e = .parse p ∧ y n = .fault (.parse p) n' ∧ L.failed m' n'
  lost_done : ∀ {m a m'}, L.lost m → least ≤ m.cursor.position → x m = .done a m' → Q a ∧ L.lost m'
  lost_fault : ∀ {m e m'}, L.lost m → least ≤ m.cursor.position → x m = .fault e m' → L.lost m'

/-! ## Tokens, as seen by a computation -/

namespace Exec

theorem peek_run_ok {m : Machine} {l : Lexeme} {c : Cursor} (h : m.cursor.peek = (.ok l, c)) :
    peek m = .done l (m.on c) := by
  simp only [peek, onCursor, h]
  rfl

theorem peek_run_error {m : Machine} {e : ParseError} {c : Cursor}
    (h : m.cursor.peek = (.error e, c)) :
    peek m = .fault (.parse e) (m.on c) := by
  simp only [peek, onCursor, h]
  rfl

theorem next_run_ok {m : Machine} {l : Lexeme} {c : Cursor} (h : m.cursor.peek = (.ok l, c)) :
    next m = .done l (m.on (c.place (m.cursor.position + 1))) := by
  have hpos := m.cursor.peek_position
  simp only [next, onCursor, Cursor.next, h]
  rw [h] at hpos
  rw [← hpos]
  rfl

theorem next_run_error {m : Machine} {e : ParseError} {c : Cursor}
    (h : m.cursor.peek = (.error e, c)) :
    next m = .fault (.parse e) (m.on c) := by
  simp only [next, onCursor, Cursor.next, h]
  rfl

/-- Looking at a token succeeds or fails as it does for the cursor. -/
theorem peek_run (m : Machine) :
    (∃ l c, m.cursor.peek = (.ok l, c) ∧ peek m = .done l (m.on c)) ∨
      ∃ e c, m.cursor.peek = (.error e, c) ∧ peek m = .fault (.parse e) (m.on c) := by
  cases hp : m.cursor.peek with
  | mk result c =>
    cases result with
    | ok l => exact .inl ⟨l, c, rfl, peek_run_ok hp⟩
    | error e => exact .inr ⟨e, c, rfl, peek_run_error hp⟩

/-- Reading a token is looking at it and stepping over it. -/
theorem next_run (m : Machine) :
    (∃ l c, m.cursor.peek = (.ok l, c) ∧
      next m = .done l (m.on (c.place (m.cursor.position + 1)))) ∨
      ∃ e c, m.cursor.peek = (.error e, c) ∧ next m = .fault (.parse e) (m.on c) := by
  cases hp : m.cursor.peek with
  | mk result c =>
    cases result with
    | ok l => exact .inl ⟨l, c, rfl, next_run_ok hp⟩
    | error e => exact .inr ⟨e, c, rfl, next_run_error hp⟩

theorem rollback_run {m : Machine} (h : 0 < m.cursor.position) :
    rollback m = .done () (m.on (m.cursor.place (m.cursor.position - 1))) := by
  have hne : m.cursor.position ≠ 0 := Nat.ne_of_gt h
  simp only [rollback, moveCursor, Cursor.rollback, if_neg hne]
  rfl

theorem seek_run {m : Machine} {p : Nat} (h : p ≤ m.cursor.cache.size) :
    seek p m = .done () (m.on (m.cursor.place p)) := by
  simp only [seek, moveCursor, Cursor.seek, if_pos h]
  rfl

end Exec

namespace Link

/-- Both positions may go down. -/
theorem move_back (L : Link) {m n : Machine} (hn : L.near m n) :
    L.near (m.on (m.cursor.place (m.cursor.position - 1)))
      (n.on (n.cursor.place (m.cursor.position - 1))) := by
  obtain ⟨hm, hn'⟩ := L.inside hn
  refine L.move hn (Nat.le_trans (Nat.sub_le _ _) hm) (Nat.le_trans (Nat.sub_le _ _) ?_)
  rw [L.position hn]
  exact hn'

namespace Tied

variable {L : Link} {α β σ : Type} {P Q : α → Prop} {R : β → Prop} {k : Nat} {x y : Exec α}

/-! ## Sequences -/

theorem pure {a : α} (h : Q a) : L.Tied k Q (pure a) (pure a) where
  done hn _ hx := by
    cases hx
    exact ⟨h, .inr ⟨_, rfl, hn⟩⟩
  fault _ _ hx := by cases hx
  lost_done hl _ hx := by
    cases hx
    exact ⟨h, hl⟩
  lost_fault _ _ hx := by cases hx

theorem outOfFuel : L.Tied k Q outOfFuel y where
  done _ _ hx := by cases hx
  fault _ _ hx := by cases hx
  lost_done _ _ hx := by cases hx
  lost_fault _ _ hx := by cases hx

theorem failParse (cause : ParseCause) (location : Location) :
    L.Tied k Q (failParse cause location) (failParse cause location) where
  done _ _ hx := by cases hx
  fault hn _ hx := by
    cases hx
    exact .inr ⟨_, _, rfl, rfl, L.failed_of_near hn⟩
  lost_done _ _ hx := by cases hx
  lost_fault hl _ hx := by
    cases hx
    exact hl

theorem expectedToken (expected : Expectation) (found : Lexeme) :
    L.Tied k Q (expectedToken expected found) (expectedToken expected found) :=
  failParse _ _

theorem imp (h : L.Tied k P x y) (hPQ : ∀ a, P a → Q a) : L.Tied k Q x y where
  done hn hk hx := (h.done hn hk hx).imp_left (hPQ _)
  fault := h.fault
  lost_done hl hk hx := (h.lost_done hl hk hx).imp_left (hPQ _)
  lost_fault := h.lost_fault

theorem bind {f g : α → Exec β} (h : L.Tied k P x y) (hf : ∀ a, P a → L.Tied 0 R (f a) (g a)) :
    L.Tied k R (x >>= f) (y >>= g) where
  done hn hk hx := by
    obtain ⟨a, m₁, hx₁, hx₂⟩ := of_bind_done hx
    obtain ⟨hP, hl | ⟨n₁, hy, hn₁⟩⟩ := h.done hn hk hx₁
    · obtain ⟨hR, hl'⟩ := (hf a hP).lost_done hl (Nat.zero_le _) hx₂
      exact ⟨hR, .inl hl'⟩
    · rw [bind_done hy]
      exact (hf a hP).done hn₁ (Nat.zero_le _) hx₂
  fault hn hk hx := by
    rcases of_bind_fault hx with hx₁ | ⟨a, m₁, hx₁, hx₂⟩
    · rcases h.fault hn hk hx₁ with hl | ⟨p, n', he, hy, hF⟩
      · exact .inl hl
      · exact .inr ⟨p, n', he, bind_fault hy, hF⟩
    · obtain ⟨hP, hl | ⟨n₁, hy, hn₁⟩⟩ := h.done hn hk hx₁
      · exact .inl ((hf a hP).lost_fault hl (Nat.zero_le _) hx₂)
      · rw [bind_done hy]
        exact (hf a hP).fault hn₁ (Nat.zero_le _) hx₂
  lost_done hl hk hx := by
    obtain ⟨a, m₁, hx₁, hx₂⟩ := of_bind_done hx
    obtain ⟨hP, hl₁⟩ := h.lost_done hl hk hx₁
    exact (hf a hP).lost_done hl₁ (Nat.zero_le _) hx₂
  lost_fault hl hk hx := by
    rcases of_bind_fault hx with hx₁ | ⟨a, m₁, hx₁, hx₂⟩
    · exact h.lost_fault hl hk hx₁
    · obtain ⟨hP, hl₁⟩ := h.lost_done hl hk hx₁
      exact (hf a hP).lost_fault hl₁ (Nat.zero_le _) hx₂

/-- A rule that needs no token back can be used anywhere. -/
theorem anywhere (h : L.Tied 0 Q x y) : L.Tied k Q x y where
  done hn _ hx := h.done hn (Nat.zero_le _) hx
  fault hn _ hx := h.fault hn (Nat.zero_le _) hx
  lost_done hl _ hx := h.lost_done hl (Nat.zero_le _) hx
  lost_fault hl _ hx := h.lost_fault hl (Nat.zero_le _) hx

/-! ## Tokens -/

theorem peek : L.Tied k (fun _ => True) peek peek where
  done {m n a m'} hn _ hx := by
    rcases peek_run m with ⟨l, c, hp, hrun⟩ | ⟨e, c, hp, hrun⟩ <;> cases hrun.symm.trans hx
    rcases L.peek_ok hn hp with hl | ⟨d, hd, hn'⟩
    · exact ⟨trivial, .inl hl⟩
    · exact ⟨trivial, .inr ⟨_, peek_run_ok hd, hn'⟩⟩
  fault {m n e m'} hn _ hx := by
    rcases peek_run m with ⟨l, c, hp, hrun⟩ | ⟨e, c, hp, hrun⟩ <;> cases hrun.symm.trans hx
    rcases L.peek_error hn hp with hl | ⟨d, hd, hF⟩
    · exact .inl hl
    · exact .inr ⟨e, _, rfl, peek_run_error hd, hF⟩
  lost_done {m a m'} hl _ hx := by
    rcases peek_run m with ⟨l, c, hp, hrun⟩ | ⟨e, c, hp, hrun⟩ <;> cases hrun.symm.trans hx
    exact ⟨trivial, by simpa only [hp] using L.lost_peek hl⟩
  lost_fault {m e m'} hl _ hx := by
    rcases peek_run m with ⟨l, c, hp, hrun⟩ | ⟨e, c, hp, hrun⟩ <;> cases hrun.symm.trans hx
    simpa only [hp] using L.lost_peek hl

/-- After reading a token there is one more that may be given back. -/
theorem next_bind {f g : Lexeme → Exec β} (hf : ∀ l, L.Tied (k + 1) R (f l) (g l)) :
    L.Tied k R (Exec.next >>= f) (Exec.next >>= g) where
  done {m n b m'} hn hk hx := by
    obtain ⟨l, m₁, hx₁, hx₂⟩ := of_bind_done hx
    rcases next_run m with ⟨l, c, hp, hrun⟩ | ⟨e, c, hp, hrun⟩ <;> cases hrun.symm.trans hx₁
    rcases L.peek_ok hn hp with hl | ⟨d, hd, hn'⟩
    · obtain ⟨hR, hl'⟩ := (hf l).lost_done (L.lost_move hl) (Nat.succ_le_succ hk) hx₂
      exact ⟨hR, .inl hl'⟩
    · have hsize := (Cursor.peek_ok (L.inside hn).1 hp).2.2
      have hsize' := (Cursor.peek_ok (L.inside hn).2 hd).2.2
      rw [← L.position hn] at hsize'
      rw [bind_done (next_run_ok hd), ← L.position hn]
      exact (hf l).done (L.move hn' hsize hsize') (Nat.succ_le_succ hk) hx₂
  fault {m n e m'} hn hk hx := by
    rcases of_bind_fault hx with hx₁ | ⟨l, m₁, hx₁, hx₂⟩
    · rcases next_run m with ⟨l, c, hp, hrun⟩ | ⟨e, c, hp, hrun⟩ <;> cases hrun.symm.trans hx₁
      rcases L.peek_error hn hp with hl | ⟨d, hd, hF⟩
      · exact .inl hl
      · exact .inr ⟨e, _, rfl, bind_fault (next_run_error hd), hF⟩
    · rcases next_run m with ⟨l, c, hp, hrun⟩ | ⟨e, c, hp, hrun⟩ <;> cases hrun.symm.trans hx₁
      rcases L.peek_ok hn hp with hl | ⟨d, hd, hn'⟩
      · exact .inl ((hf l).lost_fault (L.lost_move hl) (Nat.succ_le_succ hk) hx₂)
      · have hsize := (Cursor.peek_ok (L.inside hn).1 hp).2.2
        have hsize' := (Cursor.peek_ok (L.inside hn).2 hd).2.2
        rw [← L.position hn] at hsize'
        rw [bind_done (next_run_ok hd), ← L.position hn]
        exact (hf l).fault (L.move hn' hsize hsize') (Nat.succ_le_succ hk) hx₂
  lost_done {m b m'} hl hk hx := by
    obtain ⟨l, m₁, hx₁, hx₂⟩ := of_bind_done hx
    rcases next_run m with ⟨l, c, hp, hrun⟩ | ⟨e, c, hp, hrun⟩ <;> cases hrun.symm.trans hx₁
    have hl' : L.lost (m.on c) := by simpa only [hp] using L.lost_peek hl
    exact (hf l).lost_done (L.lost_move hl') (Nat.succ_le_succ hk) hx₂
  lost_fault {m e m'} hl hk hx := by
    have hl' := L.lost_peek hl
    rcases of_bind_fault hx with hx₁ | ⟨l, m₁, hx₁, hx₂⟩
    · rcases next_run m with ⟨l, c, hp, hrun⟩ | ⟨e, c, hp, hrun⟩ <;> cases hrun.symm.trans hx₁
      simpa only [hp] using hl'
    · rcases next_run m with ⟨l, c, hp, hrun⟩ | ⟨e, c, hp, hrun⟩ <;> cases hrun.symm.trans hx₁
      rw [hp] at hl'
      exact (hf l).lost_fault (L.lost_move hl') (Nat.succ_le_succ hk) hx₂

theorem rollback_bind {f g : Unit → Exec β} (hf : L.Tied k R (f ()) (g ())) :
    L.Tied (k + 1) R (Exec.rollback >>= f) (Exec.rollback >>= g) where
  done {m n b m'} hn hk hx := by
    have hpos : 0 < m.cursor.position := by omega
    rw [bind_done (rollback_run hpos)] at hx
    rw [bind_done (rollback_run (L.position hn ▸ hpos)), ← L.position hn]
    exact hf.done (L.move_back hn)
      (by simp only [Machine.on_cursor, Cursor.place_position]; omega) hx
  fault {m n e m'} hn hk hx := by
    have hpos : 0 < m.cursor.position := by omega
    rw [bind_done (rollback_run hpos)] at hx
    rw [bind_done (rollback_run (L.position hn ▸ hpos)), ← L.position hn]
    exact hf.fault (L.move_back hn)
      (by simp only [Machine.on_cursor, Cursor.place_position]; omega) hx
  lost_done {m b m'} hl hk hx := by
    rw [bind_done (rollback_run (by omega))] at hx
    exact hf.lost_done (L.lost_move hl)
      (by simp only [Machine.on_cursor, Cursor.place_position]; omega) hx
  lost_fault {m e m'} hl hk hx := by
    rw [bind_done (rollback_run (by omega))] at hx
    exact hf.lost_fault (L.lost_move hl)
      (by simp only [Machine.on_cursor, Cursor.place_position]; omega) hx

theorem position_bind {f g : Nat → Exec β} (hf : ∀ p, L.Tied k R (f p) (g p)) :
    L.Tied k R (Exec.position >>= f) (Exec.position >>= g) where
  done {m n b m'} hn hk hx := by
    show R b ∧ (_ ∨ ∃ n', g n.cursor.position n = .done b n' ∧ _)
    rw [← L.position hn]
    exact (hf _).done hn hk hx
  fault {m n e m'} hn hk hx := by
    show _ ∨ ∃ p n', _ ∧ g n.cursor.position n = .fault (.parse p) n' ∧ _
    rw [← L.position hn]
    exact (hf _).fault hn hk hx
  lost_done hl hk hx := (hf _).lost_done hl hk hx
  lost_fault hl hk hx := (hf _).lost_fault hl hk hx

theorem next : L.Tied k (fun _ => True) Exec.next Exec.next := by
  rw [← bind_pure Exec.next]
  exact next_bind fun l => .pure trivial

theorem peekIs (p : Punct) : L.Tied k (fun _ => True) (peekIs p) (peekIs p) :=
  peek.bind fun _ _ => .pure trivial

theorem expect (p : Punct) : L.Tied k (fun _ => True) (expect p) (expect p) := by
  refine next.bind fun l _ => ?_
  split
  · exact .pure trivial
  · exact .expectedToken _ _

theorem expectKeyword (kw : Keyword) :
    L.Tied k (fun _ => True) (expectKeyword kw) (expectKeyword kw) := by
  refine next.bind fun l _ => ?_
  split
  · exact .pure trivial
  · exact .expectedToken _ _

theorem expectIdentifier : L.Tied k (fun _ => True) expectIdentifier expectIdentifier := by
  refine next.bind fun l _ => ?_
  split
  · exact .pure trivial
  · exact .expectedToken _ _

end Tied
end Link
end Replay
