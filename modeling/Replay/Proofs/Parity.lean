import Replay.Proofs.Reachable
/-!
Executing and skipping follow one grammar.

What executes to its end is skipped to the same place, and what is rejected while it executes is
rejected when it is skipped, with the same error.  So a text that was skipped has no parse error
left in it, however often and from wherever it is executed later.
-/

namespace Replay

open Exec

section

variable {α β : Type} {R : Reading α β} {Q : β → Prop} {s : Exec β} {x : Exec α} {m m' : Machine}
  {e : ParseError}

theorem Honours.skip_done (h : Honours R none s m.cursor x m) (hs : Reader Q s)
    (hm : m.Sound) {a : α} (hx : x m = .done a m') (ha : R.complete a) :
    ∃ b, R.twin a b ∧ s m = .done b (m.on m'.cursor) := by
  obtain ⟨b, htwin, hscan⟩ := (h.done hx).scans ha
  exact ⟨b, htwin, hs.run_done hm.inside hscan⟩

theorem Honours.skip_fault (h : Honours R none s m.cursor x m) (hs : Reader Q s) (hm : m.Sound)
    (hx : x m = .fault (.parse e) m') : ∃ m'', s m = .fault (.parse e) m'' :=
  hs.run_fault hm.inside ((h.fault hx).parse rfl)

/-- Whatever bound the text was skipped with, a larger one will do as well. -/
theorem Honours.no_parse_error (h : Honours R none s m.cursor x m) (hm : m.Sound) {y : Exec β}
    {b : β} {n : Machine} (hy : (Link.frame m (.bare m.cursor)).Tied 0 Q y s)
    (hskip : y m = .done b n) : x m ≠ .fault (.parse e) m' := by
  intro hx
  obtain ⟨d, _, _, _, _, hscan⟩ := hy.skim_done hm.inside hskip
  obtain ⟨n', hreject⟩ := (h.fault hx).parse rfl
  cases hreject.symm.trans hscan

end

section Sessions

variable {source : String} {maxDepth : Nat} {out : Sink} {errors : List Error} {m : Machine}

/-- Skipping a statement or an expression that can be executed moves the cursor to where executing
it moves it, and changes nothing else. -/
theorem skip_done_of_execute_done (h : Session source maxDepth out errors m) (fuel : Nat) :
    (∀ {m'}, Interpreter.step fuel .execute m = .done .normal m' →
      Interpreter.step fuel .skip m = .done .normal (m.on m'.cursor)) ∧
    ∀ {value m'}, Interpreter.expression fuel .execute m = .done value m' →
      ∃ skipped, Interpreter.expression fuel .skip m = .done skipped (m.on m'.cursor) := by
  have hm := h.atRest.sound
  have hf := Rules.within_faithful (Nat.le_refl fuel)
  refine ⟨fun hx => ?_, fun hx => ?_⟩
  · obtain ⟨_, rfl, hs⟩ :=
      (hf.statement hm).skip_done (fun L => (Rules.within_reads fuel L).statement) hm hx rfl
    exact hs
  · obtain ⟨skipped, _, hs⟩ :=
      (hf.expression hm).skip_done (fun L => (Rules.within_reads fuel L).expression) hm hx trivial
    exact ⟨skipped, hs⟩

/-- A loop that is left in the middle of its body, and an operand that is not evaluated. -/
theorem skip_done_of_execute_done_jump :
    (∃ m', Interpreter.step 9 .execute (Machine.start "while (true) { break; }" 1 .unlimited) =
      .done .normal m' ∧
      Interpreter.step 9 .skip (Machine.start "while (true) { break; }" 1 .unlimited) =
        .done .normal ((Machine.start "while (true) { break; }" 1 .unlimited).on m'.cursor)) ∧
    ∃ m' skipped, Interpreter.expression 9 .execute (Machine.start "true || x" 1 .unlimited) =
        .done (.boolean true) m' ∧
      Interpreter.expression 9 .skip (Machine.start "true || x" 1 .unlimited) =
        .done skipped ((Machine.start "true || x" 1 .unlimited).on m'.cursor) := by
  have hloop : (Interpreter.step 9 .execute
      (Machine.start "while (true) { break; }" 1 .unlimited)).result? =
        some (.ok .normal) := by decide +kernel
  have hoperand : (Interpreter.expression 9 .execute
      (Machine.start "true || x" 1 .unlimited)).result? =
        some (.ok (.boolean true)) := by decide +kernel
  obtain ⟨m₁, hloop⟩ := Outcome.exists_of_result_ok hloop
  obtain ⟨m₂, hoperand⟩ := Outcome.exists_of_result_ok hoperand
  obtain ⟨skipped, hskipped⟩ := (skip_done_of_execute_done .start 9).2 hoperand
  exact ⟨⟨m₁, hloop, (skip_done_of_execute_done .start 9).1 hloop⟩, m₂, skipped, hoperand, hskipped⟩

/-- A parse error is one of the text, not of the way that execution takes through it. -/
theorem skip_fault_of_execute_parse_error (h : Session source maxDepth out errors m) :
    (∀ {fuel e m'}, Interpreter.step fuel .execute m = .fault (.parse e) m' →
      ∃ m'', Interpreter.step fuel .skip m = .fault (.parse e) m'') ∧
    (∀ {fuel e m'}, Interpreter.expression fuel .execute m = .fault (.parse e) m' →
      ∃ m'', Interpreter.expression fuel .skip m = .fault (.parse e) m'') ∧
    (∀ {fuel fuel' signal m' e m''}, Interpreter.step fuel .skip m = .done signal m' →
      Interpreter.step fuel' .execute m ≠ .fault (.parse e) m'') ∧
    (∀ {fuel fuel' value m' e m''}, Interpreter.expression fuel .skip m = .done value m' →
      Interpreter.expression fuel' .execute m ≠ .fault (.parse e) m'') ∧
    ∀ {n}, Met source maxDepth out n → ∀ {fuel fuel' name location value n' e n''},
      (Rules.within fuel).call name location .skip n = .done value n' →
      (Rules.within fuel').call name location .execute n ≠ .fault (.parse e) n'' := by
  have hm := h.atRest.sound
  refine ⟨fun {fuel e m'} hx => ?_, fun {fuel e m'} hx => ?_,
    fun {fuel fuel' signal m' e m''} hskip => ?_, fun {fuel fuel' value m' e m''} hskip => ?_,
    fun {n} hmet {fuel fuel' name location value n' e n''} hskip => ?_⟩
  · have hf := Rules.within_faithful (Nat.le_refl fuel)
    exact (hf.statement hm).skip_fault (fun L => (Rules.within_reads fuel L).statement) hm hx
  · have hf := Rules.within_faithful (Nat.le_refl fuel)
    exact (hf.expression hm).skip_fault (fun L => (Rules.within_reads fuel L).expression) hm hx
  · have hf := Rules.within_faithful (Nat.le_max_right fuel fuel')
    exact (hf.statement hm).no_parse_error hm
      (Rules.within_inStep _ (Nat.le_max_left fuel fuel')).statement hskip
  · have hf := Rules.within_faithful (Nat.le_max_right fuel fuel')
    exact (hf.expression hm).no_parse_error hm
      (Rules.within_inStep _ (Nat.le_max_left fuel fuel')).expression hskip
  · have hf := Rules.within_faithful (Nat.le_max_right fuel fuel')
    have hn := hmet.sound
    exact (hf.call name location hn).no_parse_error hn
      ((Rules.within_inStep _ (Nat.le_max_left fuel fuel')).call name location) hskip

/-- A statement that lacks a semicolon in a loop, and arguments for the procedure before them. -/
theorem skip_fault_of_execute_parse_error_loop :
    (∃ e m' m'', Interpreter.step 9 .execute
        (Machine.start "while (true) { break }" 1 .unlimited) = .fault (.parse e) m' ∧
      Interpreter.step 9 .skip (Machine.start "while (true) { break }" 1 .unlimited) =
        .fault (.parse e) m'') ∧
    ∃ n, Session "procedure f(a) \x7b return a + 1; \x7d (1)" 1 .unlimited [] n ∧
      ((Rules.within 9).call "f" ⟨1, 1⟩ .skip n).result? = some (.ok .noValue) ∧
      ((Rules.within 9).call "f" ⟨1, 1⟩ .execute n).result? = some (.ok (.integer 2)) ∧
      ∀ fuel e n', (Rules.within fuel).call "f" ⟨1, 1⟩ .execute n ≠ .fault (.parse e) n' := by
  have hloop : (Interpreter.step 9 .execute
      (Machine.start "while (true) { break }" 1 .unlimited)).result? = some (.error (.parse
        ⟨.expectedToken (.punct .semicolon) (.punct .rightBrace), ⟨1, 22⟩⟩)) := by decide +kernel
  have hskip : (((Request.step .execute).perform (Rules.within 9) >>= fun _ =>
      (Rules.within 9).call "f" ⟨1, 1⟩ .skip) (Machine.start
        "procedure f(a) \x7b return a + 1; \x7d (1)" 1 .unlimited)).result? =
          some (.ok .noValue) := by decide +kernel
  have hexecute : (((Request.step .execute).perform (Rules.within 9) >>= fun _ =>
      (Rules.within 9).call "f" ⟨1, 1⟩ .execute) (Machine.start
        "procedure f(a) \x7b return a + 1; \x7d (1)" 1 .unlimited)).result? =
          some (.ok (.integer 2)) := by decide +kernel
  obtain ⟨m₁, hloop⟩ := Outcome.exists_of_result_error hloop
  obtain ⟨m₂, hskipped⟩ := (skip_fault_of_execute_parse_error .start).1 hloop
  obtain ⟨n', hcall⟩ := Outcome.exists_of_result_ok hskip
  obtain ⟨_, n, hdefined, hcall⟩ := of_bind_done hcall
  rw [bind_done hdefined] at hskip hexecute
  have hsession := Session.done (.step .execute) 9 .start hdefined
  refine ⟨⟨_, m₁, m₂, hloop, hskipped⟩, n, hsession, hskip, hexecute, fun fuel e n' => ?_⟩
  exact (skip_fault_of_execute_parse_error hsession).2.2.2.2 hsession.met hcall

end Sessions
end Replay
