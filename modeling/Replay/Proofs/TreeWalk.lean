import Replay.Proofs.Follow.Script
import Replay.Proofs.Reachable
/-!
Running a text is walking its tree.

The interpreter has a cursor and no tree: it reads a loop once more to run it once more, and reads
what it does not run.  The walk has the tree and no cursor.  If the tokens of a text are those of a
script, both come to the same result with the same output, or neither comes to one.
-/

namespace Replay

open Exec

/-! ## What the two sides share -/

/-- Scopes are compared without their kinds, and every procedure has one of these definitions. -/
def View.written (tape : Cursor) (definitions : List Definition) : View where
  tape := tape
  alike t u := t.plain = u.plain
  known v := ∀ procedure, v = .procedure procedure → ∃ d ∈ definitions, d.entry = procedure.entry
  lookup_eq {t u} h id name := by rw [← ScopeTree.lookup_plain, h, ScopeTree.lookup_plain]
  assign_alike {t u} h id name value := by
    refine .of_plain (fun _ _ hplain => hplain) ?_
    rw [← ScopeTree.assign?_plain, h, ScopeTree.assign?_plain]
  plain {v} hkind procedure hv := by
    subst hv
    exact absurd rfl hkind

section

variable {tape : Cursor} {definitions : List Definition}

theorem View.written_blind : (View.written tape definitions).Blind := fun _ _ => Iff.rfl

theorem View.written_knows : (View.written tape definitions).Knows definitions := by
  intro d hd scope procedure hprocedure
  cases hprocedure
  exact ⟨d, hd, rfl⟩

/-- A procedure that there may be is found by where its definition is. -/
theorem View.written_find? {procedure : Procedure}
    (h : (View.written tape definitions).known (.procedure procedure)) :
    ∃ d ∈ definitions, definitions.find? (fun d => d.entry == procedure.entry) = some d := by
  obtain ⟨d, hd, hentry⟩ := h procedure rfl
  cases hfind : definitions.find? (fun d => d.entry == procedure.entry) with
  | none => exact absurd (beq_iff_eq.mpr hentry) (List.find?_eq_none.mp hfind d hd)
  | some found => exact ⟨found, List.mem_of_find?_eq_some hfind, rfl⟩

theorem View.written_start (source : String) (maxDepth : Nat) (out : Sink)
    (hg : (Cursor.ofSource source).Grown tape) :
    (View.written tape definitions).Agree 0 (.start source maxDepth out) (.start maxDepth out) :=
  ⟨⟨hg, rfl, rfl, rfl, rfl, rfl, .new⟩, Machine.start_sound source maxDepth out, rfl⟩

end

section

variable {p : Parens} {script : List (Stmt Unit)} {tape : Cursor} {definitions : List Definition}

/-- A call takes fuel, in the walk and in the interpreter, and then comes to a body that is written
somewhere. -/
theorem follows_written (hp : p.Suffices) (hs : tape.Spells 0 (scriptTokens p script))
    (hdefinitions : Stmt.listDefinitions (Stmt.markedList p tape.marks script 0) = definitions)
    (fuel : Nat) :
    (View.written tape definitions).Follows p fuel (invocation definitions fuel) fuel := by
  have hblind : (View.written tape definitions).Blind := View.written_blind
  subst hdefinitions
  induction fuel with
  | zero => exact ⟨hblind, hp, View.Invokes.zero _, Nat.le_refl 0⟩
  | succ fuel ih =>
    have hlaid := scriptTokens_laid ih script View.written_knows hs
    refine ⟨hblind, hp, View.Invokes.of_laid hblind fun hknown => ?_, Nat.le_refl _⟩
    obtain ⟨d, hd, hfind⟩ := View.written_find? hknown
    exact ⟨d, hfind, hlaid d hd⟩

/-- With fuel to spare, the interpreter does what the walk does. -/
theorem run_sim (hp : p.Suffices) {source : String} (hg : (Cursor.ofSource source).Grown tape)
    (hs : tape.Spells 0 (scriptTokens p script ++ [.endOfInput]))
    (hdefinitions : Stmt.listDefinitions (Stmt.markedList p tape.marks script 0) = definitions)
    (maxDepth : Nat) (out : Sink) (fuel : Nat) :
    (View.written tape definitions).Sim (fuel + 1) Interpreter.run
      (runScript fuel (Stmt.markedList p tape.marks script 0))
      ((View.written tape definitions).Same (0 + (scriptTokens p script).length))
      (.start source maxDepth out) (.start maxDepth out) := by
  obtain ⟨hs, hend, _⟩ := Cursor.spells_append.mp hs
  have hfollows := follows_written hp hs hdefinitions fuel
  have hagree : (View.written tape definitions).Agree 0 _ _ :=
    View.written_start source maxDepth out hg
  have hrun : Interpreter.run = fun k => loop (Rules.within k).scriptTurn (k - 0) () := by
    funext k
    rw [Nat.sub_zero]
    show loop (Rules.within k).scriptTurn (Rules.within k).fuel () = _
    rw [Rules.within_fuel]
  rw [hrun]
  subst hdefinitions
  exact Stmt.runsScript hfollows script View.written_knows hs hend hagree

end

/-! ## Results -/

theorem Outcome.ofResult_ne_outOfFuel {α : Type} (result : Except Error α) (m : Machine) :
    Outcome.ofResult result m ≠ .outOfFuel := by
  cases result <;> exact fun h => by cases h

theorem Outcome.ofResult_inj {α : Type} {result result' : Except Error α} {m m' : Machine}
    (h : Outcome.ofResult result m = .ofResult result' m') : result = result' ∧ m = m' := by
  cases result <;> cases result' <;> cases h <;> exact ⟨rfl, rfl⟩

/-- If the walk comes to a result, so does the interpreter, with the same output. -/
theorem View.Sim.comes {V : View} {n j : Nat} {X : Nat → Exec Unit} {y : Walk Unit} {m : Machine}
    {w w' : World}
    (h : V.Sim n X y (V.Same j) m w) {result : Except Error Unit} (hy : y w = some (result, w')) :
    ∃ m', Converges X m (.ofResult result m') ∧ m'.out = w'.out := by
  cases result with
  | ok a =>
    obtain ⟨_, m', hrun, _, hsame⟩ := h.done hy
    exact ⟨m', hrun, hsame.agree.out⟩
  | error e =>
    obtain ⟨m', hrun, hfails⟩ := h.fault hy
    exact ⟨m', hrun, hfails.out⟩

/-- If the tokens of a text are those of a script, running the text comes to a result and an output
exactly if walking the tree of the script does. -/
theorem run_iff_runScript {p : Parens} (hp : p.Suffices) {script : List (Stmt Unit)}
    {source : String} {k : Nat}
    (htokens : scriptTokens p script ++ [.endOfInput] <+:
      ((Cursor.ofSource source).fill k).cache.toList.map Lexeme.token)
    (maxDepth : Nat) (out : Sink) (result : Except Error Unit) (output : Sink) :
    (∃ fuel m, Interpreter.run fuel (.start source maxDepth out) = .ofResult result m ∧
      m.out = output) ↔
      ∃ fuel w, runScript fuel (Stmt.markedList p ((Cursor.ofSource source).fill k).marks script 0)
        (.start maxDepth out) = some (result, w) ∧ w.out = output := by
  have hs := Cursor.spells_of_drop (i := 0) htokens
  have hsim := run_sim hp ((Cursor.ofSource source).fill_grown k) hs rfl maxDepth out
  constructor
  · intro ⟨fuel, m, hrun, hout⟩
    have hended : Interpreter.run fuel (.start source maxDepth out) ≠ .outOfFuel :=
      hrun ▸ Outcome.ofResult_ne_outOfFuel result m
    -- The walk with as much fuel cannot be without a result: the interpreter would be, too.
    cases hwalk :
      runScript fuel (Stmt.markedList p ((Cursor.ofSource source).fill k).marks script 0)
        (.start maxDepth out) with
    | none => exact absurd ((hsim fuel).spent hwalk fuel (Nat.lt_succ_self fuel)) hended
    | some r =>
      obtain ⟨m', hcomes, hout'⟩ := (hsim fuel).comes hwalk
      obtain ⟨hresult, hm⟩ := Outcome.ofResult_inj (hrun.symm.trans (hcomes.eq_of_run hended))
      refine ⟨fuel, r.2, ?_, ?_⟩
      · rw [hwalk, hresult]
      · rw [← hout', ← hm, hout]
  · intro ⟨fuel, w, hwalk, hout⟩
    obtain ⟨m, hcomes, hout'⟩ := (hsim fuel).comes hwalk
    obtain ⟨fuel', hrun⟩ := hcomes.exists_run
    exact ⟨fuel', m, hrun, hout'.trans hout⟩

/-- `procedure f(n) { return n; } for (var i = 0; i < 2; i += 1) { eval f(i); continue; }` -/
def countedCalls : List (Stmt Unit) :=
  [.procedure () "f" () [⟨(), "n"⟩] [.returnValue () (some (.read () "n"))],
   .forLoop (.declare ⟨(), "i", some (.literal () (.integer 0))⟩ [])
     (some ⟨(), .binary .less () (.read () "i") (.literal () (.integer 2))⟩)
     (some (.assign () "i" () ⟨.compound .add, .plusEquals, rfl⟩ (.literal () (.integer 1))))
     [.eval (.call () "f" [.read () "i"]), .continueLoop ()]]

def countedCallsText : String :=
  "procedure f(n) \x7b return n; \x7d for (var i = 0; i < 2; i += 1) \x7b eval f(i); continue; \x7d"

/-- The calls come back to where they were made, and each `continue` is followed by one
increment. -/
theorem run_iff_runScript_countedCalls :
    ∃ fuel m, Interpreter.run fuel (.start countedCallsText 1 .unlimited) = .done () m ∧
      m.out.text = "0\n1\n" := by
  have htokens : scriptTokens .everywhere countedCalls ++ [.endOfInput] ++ [] =
      ((Cursor.ofSource countedCallsText).fill 36).cache.toList.map Lexeme.token := by
    decide +kernel
  have hwalk : (runScript 3
      (Stmt.markedList .everywhere ((Cursor.ofSource countedCallsText).fill 36).marks
        countedCalls 0) (.start 1 .unlimited)).map (fun r => (r.1, r.2.out.text)) =
          some (.ok (), "0\n1\n") := by decide +kernel
  obtain ⟨⟨result, w⟩, hrun, hshown⟩ := Option.map_eq_some_iff.mp hwalk
  obtain ⟨rfl, htext⟩ := Prod.mk.inj hshown
  obtain ⟨fuel, m, hdone, hout⟩ :=
    (run_iff_runScript Parens.everywhere_suffices ⟨[], htokens⟩ 1 .unlimited
    (.ok ()) w.out).mpr ⟨3, w, hrun, rfl⟩
  exact ⟨fuel, m, hdone, hout ▸ htext⟩

end Replay
