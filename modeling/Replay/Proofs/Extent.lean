import Replay.Proofs.Acceptance
/-!
How far skipping goes.
-/

namespace Replay

open Exec

/-- A token that is not the end of the text is before it. -/
theorem Stream.lt_of_token {source : String} {i : Nat}
    (h : Cursor.counts (lexeme source i) = true) :
    i < (tokens source).length := by
  by_contra hge
  have hnone : (tokens source)[i]? = none := List.getElem?_eq_none (by omega)
  simp only [Cursor.counts, lexeme, hnone, Token.isEnd] at h
  cases h

/-- A cursor that has passed no end of the text is before it at most. -/
theorem Cursor.Passed.le_length {source : String} {reported : List (Nat × ParseError)} {c : Cursor}
    {start stop : Nat} (h : c.Passed start stop) (hc : Tracks source reported c)
    (hstart : start ≤ (Stream.tokens source).length) : stop ≤ (Stream.tokens source).length := by
  by_contra hgt
  obtain ⟨l, hl, hcounts⟩ := h (Stream.tokens source).length hstart (by omega)
  have hlt := (Array.getElem?_eq_some_iff.mp hl).1
  rw [hc.cache _ hlt] at hl
  cases hl
  exact absurd (Stream.lt_of_token hcounts) (Nat.lt_irrefl _)

/-- With enough fuel `X` comes to an end.  If it is done it has read a token at least and stands
before the end of the text; and if it has failed the cursor is right behind the end at most. -/
def EndsWithin {α : Type} (source : String) (X : Nat → Exec α) (m : Machine) : Prop :=
  (∃ a m', Converges X m (.done a m') ∧ m.cursor.position < m'.cursor.position ∧
    m'.cursor.position ≤ (Stream.tokens source).length) ∨
  ∃ e m', Converges X m (.fault (.parse e) m') ∧
    m'.cursor.position ≤ (Stream.tokens source).length + 1

theorem endsWithin_of_halts {α : Type} {source : String} {reported : List (Nat × ParseError)}
    {X : Nat → Exec α} {Q : α → Prop} {m : Machine} {k : Nat}
    (hX : Halts [] m.cursor.left (fun _ => 1) (X k)) (hscans : ScansOnly Q X m)
    (hm : Cursor.Tracks source reported m.cursor)
    (hbefore : m.cursor.position ≤ (Stream.tokens source).length) : EndsWithin source X m := by
  have hrun := hX.run hm.inside rfl (Nat.le_refl _)
  have hends := hX.ends hm.inside (Nat.le_refl _)
  obtain ⟨d, ⟨a, _, hdone⟩ | ⟨e, hfault⟩⟩ := hscans
  · rw [hdone.eq_of_run hends] at hrun
    obtain ⟨hleads, _, hpassed, hpos, _⟩ := hrun
    obtain ⟨_, hd⟩ := hleads.tracks hm
    exact .inl ⟨a, _, hdone, hpos, hpassed.le_length hd hbefore⟩
  · rw [hfault.eq_of_run hends] at hrun
    obtain ⟨hleads, hpassed⟩ := hrun
    obtain ⟨_, hd⟩ := hleads.tracks hm
    have hle := hpassed.le_length hd hbefore
    exact .inr ⟨e, _, hfault, by omega⟩

/-- From every place of a text, wherever the cursor has been before, skipping comes to an end within
the text: at most the first of the tokens that stand for its end is read, and only by a rule that
fails. -/
theorem skip_ends_within_text {source : String} (queries : List Cursor.Query) {m : Machine}
    (hcursor : m.cursor = (Cursor.answers queries (Cursor.ofSource source)).2)
    (hbefore : m.cursor.position ≤ (Stream.tokens source).length) :
    (Stream.token source (Stream.tokens source).length = .endOfInput ∧
      ∀ i < (Stream.tokens source).length, Stream.token source i ≠ .endOfInput) ∧
    EndsWithin source (Interpreter.step · .skip) m ∧
      EndsWithin source (Interpreter.expression · .skip) m := by
  have htracks := (Cursor.Tracks.start source).answers queries
  rw [← hcursor] at htracks
  have hin := htracks.inside
  have hhalting := Rules.within_halting (4 * m.cursor.left + 5)
  have hstatement := hhalting.statement (B := m.cursor.left) (Nat.le_refl _)
  have hexpression := hhalting.expression (B := m.cursor.left) (Nat.le_succ _)
  refine ⟨⟨Stream.token_end, fun i hi => Stream.token_ne_end hi⟩, ?_, ?_⟩
  · have hscans : ScansOnly (· = .normal) (Interpreter.step · .skip) m :=
      scansOnly_of_tied (fun hn => (Rules.within_inStep _ hn).statement) hin
        (hstatement.ends hin (Nat.le_refl _))
    exact endsWithin_of_halts hstatement hscans htracks hbefore
  · have hscans : ScansOnly (fun _ => True) (Interpreter.expression · .skip) m :=
      scansOnly_of_tied (fun hn => (Rules.within_inStep _ hn).expression) hin
        (hexpression.ends hin (Nat.le_refl _))
    exact endsWithin_of_halts hexpression hscans htracks hbefore

/-- A cursor that has read a part of a loop and is set back to the start of it, and one that is set
back to the value before the loop.  The closing brace is missing, and behind the loop there is a
character that is no part of a token, so only the value can be skipped. -/
theorem skip_ends_within_text_unclosed :
    let source := "var x = 1; while (x) \x7b break; # "
    let toLoop := [.next, .next, .peek, .next, .next, .next, .next, .rollback]
    let toValue := [.next, .next, .next, .next, .rollback]
    let placed := fun queries =>
      (Machine.start source 1 .unlimited).on (Cursor.answers queries (Cursor.ofSource source)).2
    (placed toLoop).cursor.position = 5 ∧ (placed toValue).cursor.position = 3 ∧
    (Stream.tokens source).length = 12 ∧
    (Interpreter.step 9 .skip (placed toLoop)).result? =
      some (.error (.parse ⟨.illegalCharacter "#", ⟨1, 31⟩⟩)) ∧
    EndsWithin source (Interpreter.step · .skip) (placed toLoop) ∧
    EndsWithin source (Interpreter.expression · .skip) (placed toLoop) ∧
    ((Interpreter.step 9 .skip >>= fun _ => position) (placed toValue)).result? = some (.ok 5) ∧
    ((Interpreter.expression 9 .skip >>= fun _ => position) (placed toValue)).result? =
      some (.ok 4) ∧
    EndsWithin source (Interpreter.step · .skip) (placed toValue) ∧
    EndsWithin source (Interpreter.expression · .skip) (placed toValue) := by
  intro source toLoop toValue placed
  have hloop : (placed toLoop).cursor.position = 5 := by decide +kernel
  have hvalue : (placed toValue).cursor.position = 3 := by decide +kernel
  have hlength : (Stream.tokens source).length = 12 := by decide +kernel
  have hfault : (Interpreter.step 9 .skip (placed toLoop)).result? =
      some (.error (.parse ⟨.illegalCharacter "#", ⟨1, 31⟩⟩)) := by decide +kernel
  have hstep : ((Interpreter.step 9 .skip >>= fun _ => position) (placed toValue)).result? =
      some (.ok 5) := by decide +kernel
  have hexpression : ((Interpreter.expression 9 .skip >>= fun _ => position)
      (placed toValue)).result? = some (.ok 4) := by decide +kernel
  have hbeforeLoop : (placed toLoop).cursor.position ≤ (Stream.tokens source).length := by
    rw [hloop, hlength]
    decide
  have hbeforeValue : (placed toValue).cursor.position ≤ (Stream.tokens source).length := by
    rw [hvalue, hlength]
    decide
  have hatLoop := skip_ends_within_text toLoop (Machine.on_cursor _ _) hbeforeLoop
  have hatValue := skip_ends_within_text toValue (Machine.on_cursor _ _) hbeforeValue
  exact ⟨hloop, hvalue, hlength, hfault, hatLoop.2.1, hatLoop.2.2, hstep, hexpression, hatValue.2⟩

end Replay
