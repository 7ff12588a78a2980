import Replay.Proofs.Converge
import Replay.Proofs.Halting.Rules
import Replay.Proofs.Reachable
/-!
Skipping is a scan.

From any state that is met, skipping a statement or an expression comes to an end: with the cursor
behind it, or with a parse error.  Nothing but the cursor is touched in either case.
-/

namespace Replay

open Exec

/-- With enough fuel `X` is done from `m`, or it rejects the text.  It does nothing to the state but
move the cursor, and if it is done its result is one of those in `Q`. -/
def ScansOnly {α : Type} (Q : α → Prop) (X : Nat → Exec α) (m : Machine) : Prop :=
  ∃ d, (∃ a, Q a ∧ Converges X m (.done a (m.on d))) ∨
  ∃ e, Converges X m (.fault (.parse e) (m.on d))

section

variable {α : Type} {Q : α → Prop} {X : Nat → Exec α} {m : Machine}

/-- Rules that go in step with rules that have more fuel, and that come to an end. -/
theorem scansOnly_of_tied (hX : ∀ {n k}, n ≤ k → (Link.frame m m).Tied 0 Q (X n) (X k))
    (hm : m.cursor.Inside) {k : Nat} (hk : X k m ≠ .outOfFuel) : ScansOnly Q X m := by
  have hstart : (Link.frame m m).near m m := Link.frame_start m m hm
  have hmono : ∀ {n k}, n ≤ k → X n m = .outOfFuel ∨ X k m = X n m := by
    intro n k hn
    cases hx : X n m with
    | outOfFuel => exact .inl rfl
    | done a m' =>
      obtain ⟨_, hl | ⟨_, hk, d, rfl, rfl, _⟩⟩ := (hX hn).done hstart (Nat.zero_le _) hx
      · exact hl.elim
      · exact .inr hk
    | fault e m' =>
      obtain hl | ⟨p, _, rfl, hk, d, rfl, rfl, _⟩ := (hX hn).fault hstart (Nat.zero_le _) hx
      · exact hl.elim
      · exact .inr hk
  have hc := Converges.of_mono hmono hk
  cases hx : X k m with
  | outOfFuel => exact absurd hx hk
  | done a m' =>
    obtain ⟨hQ, hl | ⟨_, _, d, rfl, _⟩⟩ := (hX (Nat.le_refl k)).done hstart (Nat.zero_le _) hx
    · exact hl.elim
    · exact ⟨d, .inl ⟨a, hQ, hx ▸ hc⟩⟩
  | fault e m' =>
    obtain hl | ⟨p, _, rfl, _, d, rfl, _⟩ := (hX (Nat.le_refl k)).fault hstart (Nat.zero_le _) hx
    · exact hl.elim
    · exact ⟨d, .inr ⟨p, hx ▸ hc⟩⟩

end

/-- Skipping has two ways to end, behind the text or with a parse error, and it changes nothing but
the cursor. -/
theorem skip_scans_only {source : String} {maxDepth : Nat} {out : Sink} {m : Machine}
    (h : Met source maxDepth out m) :
    ScansOnly (· = .normal) (Interpreter.step · .skip) m ∧
      ScansOnly (fun _ => True) (Interpreter.expression · .skip) m := by
  have hin := h.sound.inside
  have hhalting := Rules.within_halting (4 * m.cursor.left + 5)
  constructor
  · refine scansOnly_of_tied (k := 4 * m.cursor.left + 5)
      (fun hn => (Rules.within_inStep _ hn).statement) hin ?_
    exact (hhalting.statement (Nat.le_refl _)).ends hin (Nat.le_refl _)
  · refine scansOnly_of_tied (k := 4 * m.cursor.left + 5)
      (fun hn => (Rules.within_inStep _ hn).expression) hin ?_
    exact (hhalting.expression (Nat.le_succ _)).ends hin (Nat.le_refl _)

/-- The statement behind a declaration would fail if it were executed, and it is no expression. -/
theorem skip_scans_only_jump :
    ∃ n, Session "var x = 1; if (x) \x7b break; y = 2; \x7d" 1 .unlimited [] n ∧
      (Interpreter.step 9 .skip n).result? = some (.ok .normal) ∧
      (Interpreter.expression 9 .skip n).result? =
        some (.error (.parse ⟨.unexpectedToken (.keyword .kwIf), ⟨1, 12⟩⟩)) ∧
      ScansOnly (· = .normal) (Interpreter.step · .skip) n ∧
      ScansOnly (fun _ => True) (Interpreter.expression · .skip) n := by
  have hstep : (((Request.step .execute).perform (Rules.within 9) >>= fun _ =>
      Interpreter.step 9 .skip)
        (Machine.start "var x = 1; if (x) \x7b break; y = 2; \x7d" 1 .unlimited)).result? =
          some (.ok .normal) := by decide +kernel
  have hexpression : (((Request.step .execute).perform (Rules.within 9) >>= fun _ =>
      Interpreter.expression 9 .skip)
        (Machine.start "var x = 1; if (x) \x7b break; y = 2; \x7d" 1 .unlimited)).result? =
          some (.error (.parse ⟨.unexpectedToken (.keyword .kwIf), ⟨1, 12⟩⟩)) := by decide +kernel
  obtain ⟨m', hskip⟩ := Outcome.exists_of_result_ok hstep
  obtain ⟨_, n, hdeclared, _⟩ := of_bind_done hskip
  rw [bind_done hdeclared] at hstep hexpression
  have hsession := Session.done (.step .execute) 9 .start hdeclared
  exact ⟨n, hsession, hstep, hexpression, skip_scans_only hsession.met⟩

end Replay
