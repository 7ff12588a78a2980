import Replay.Proofs.Contract.Expression
/-!
Contracts of what statements are made of: conditions, declarations, and statements between braces.
-/

namespace Replay

open Exec

theorem Signal.isInterrupt_of_ne {signal : Signal} (h : signal ≠ .normal) :
    signal.isInterrupt = true := by
  cases signal with
  | normal => exact absurd rfl h
  | broke _ | continued _ | returned _ _ => rfl

namespace Rules.Faithful

variable {r : Rules} {k : Nat} {m : Machine}

/-- The values of a rule that has none. -/
theorem good_nil {c : Array Lexeme} : ∀ v ∈ ([] : List Value), v.Good c := fun _ hv => by cases hv

theorem parenthesized (h : r.Faithful k) (hm : m.Sound) :
    Honours .condition none ((Rules.within k).parenthesized .skip) m.cursor
      (r.parenthesized .execute) m := by
  refine .expect_bind hm fun hd _ => ?_
  refine .scan_bind .peek hd fun {start d} _ hd _ _ => ?_
  refine (h.expression hd).bind (fun _ => trivial) fun {value b m₁} hdone _ => ?_
  refine .expect_bind hdone.sound fun hd _ => ?_
  exact .ofRuntime hd fun taken _ => ⟨trivial, rfl, good_nil⟩

/-! ## Declarations -/

theorem initialValue (h : r.Faithful k) (hm : m.Sound) :
    Honours (.plain Option.toList) none ((Rules.within k).initialValue .skip) m.cursor
      (r.initialValue .execute) m := by
  refine .peekIs_bind hm fun {equals d} hd _ => ?_
  cases equals with
  | true =>
    refine .next_bind hd fun hd _ _ => ?_
    exact (h.assignment hd).bind (fun _ => trivial) fun hdone _ =>
      .pure hdone.sound trivial hdone.good trivial
  | false => exact .pure hd trivial good_nil trivial

theorem declarationTurn (h : r.Faithful k) (hm : m.Sound) :
    Honours (.turn .any .any) none ((Rules.within k).declarationTurn .skip ()) m.cursor
      (r.declarationTurn .execute ()) m := by
  refine .scan_bind .expectIdentifier hm fun {nameAt d} _ hd _ _ => ?_
  refine (h.initialValue hd).bind (fun _ => trivial) fun {value b m₁} hdone _ => ?_
  have hvalue : ∀ v, value = some v → v.Good m₁.cursor.cache :=
    fun v hv => hdone.good v (Option.mem_toList.mpr hv)
  refine (Honours.declare hdone.sound nameAt.1 nameAt.2 hvalue).idle_bind (fun _ => trivial)
    fun hd _ => ?_
  refine .peekIs_bind hd.sound fun {comma d} hd _ => ?_
  cases comma with
  | true => exact .next_bind hd fun hd _ _ => .pure hd trivial good_nil trivial
  | false => exact .pure hd trivial good_nil trivial

theorem declaration (h : r.Faithful k) (hm : m.Sound) :
    Honours .any none ((Rules.within k).declaration .skip) m.cursor (r.declaration .execute) m :=
  .loop (S := .any) (fun _ _ L => (Rules.within_reads k L).declarationTurn) (fun _ => trivial)
    (fun hm _ _ => h.declarationTurn hm) (h.inStep hm).fuel hm trivial good_nil

/-! ## Statements between braces -/

theorem statementTurn (h : r.Faithful k) (hm : m.Sound) :
    Honours (.turn .any .signal) none ((Rules.within k).statementTurn .skip ()) m.cursor
      (r.statementTurn .execute ()) m := by
  refine .scan_bind .peek hm fun {ahead d} _ hd _ _ => ?_
  split
  · exact .next_bind hd fun hd _ _ => .pure hd rfl good_nil rfl
  · exact .failParse hd _ _
  · refine (h.statement hd).bind_break (fun {signal b m₁} hdone ha hb => ?_)
      (fun {signal m₁} hdone ha => ?_)
    · cases (show signal = .normal from ha)
      cases (show b = .normal from hb)
      exact .pure hdone.sound trivial good_nil trivial
    -- The counterpart goes on to the next statement.
    · rw [if_pos (Signal.isInterrupt_of_ne ha)]
      refine .stop hdone.sound ?_ hdone.good ha
      refine hdone.within.bind (R := fun _ _ => True) (fun L => (Rules.within_reads k L).statement)
        hd.inside ?_
      rintro _ rfl
      exact .pure trivial

theorem bracedStatements (h : r.Faithful k) (hm : m.Sound) :
    Honours .signal none ((Rules.within k).bracedStatements .skip) m.cursor
      (r.bracedStatements .execute) m := by
  refine .expect_bind hm fun hd _ => ?_
  exact .loop (S := .any) (fun _ _ L => (Rules.within_reads k L).statementTurn) (fun _ => trivial)
    (fun hm _ _ => h.statementTurn hm) (h.inStep hm).fuel hd trivial good_nil

theorem block (h : r.Faithful k) (hm : m.Sound) :
    Honours .signal none ((Rules.within k).block .skip) m.cursor (r.block .execute) m := by
  refine .currentScope_bind (.inChild hm hm.current .block fun {id m₁} hm₁ _ hcursor => ?_)
  rw [← hcursor]
  exact (h.bracedStatements hm₁).exempting _

/-- A block that is executed or skipped, as the case may be. -/
theorem blockIn (h : r.Faithful k) (hm : m.Sound) (mode : Mode) :
    Honours .signal none ((Rules.within k).block .skip) m.cursor (r.block mode) m := by
  cases mode with
  | execute => exact h.block hm
  | skip =>
    refine .scan (h.inStep hm).block hm fun b hb => ?_
    subst hb
    exact ⟨rfl, rfl, rfl⟩

end Rules.Faithful
end Replay
