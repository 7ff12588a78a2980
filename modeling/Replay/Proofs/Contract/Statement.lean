import Replay.Proofs.Contract.Call
/-!
Contracts of statements, and with them of all rules.
-/

namespace Replay

open Exec

/-- A procedure whose text has been skipped can be called. -/
theorem Callable.of_scans {k : Nat} {c d : Cursor} (hc : c.Inside) (hg : c.Grown d)
    (hs : Scans (Rules.within k).procedureText .normal c d) : Callable d.cache c.position :=
  ⟨Nat.le_trans hc hg.size_le, k, d.position, fun _ hc' =>
    Reader.scans_cached (fun L => (Rules.within_reads k L).procedureText) hc hc' hs⟩

namespace Rules.Faithful

variable {r : Rules} {k : Nat} {m : Machine}

/-! ## Branches -/

def pending : Reading Mode Mode := ⟨fun _ => True, fun _ b => b = .skip, fun _ => []⟩

theorem ifRest (h : r.Faithful k) (hm : m.Sound) (mode : Mode) :
    Honours (.turn pending .signal) none ((Rules.within k).ifRest .skip) m.cursor
      (r.ifRest mode) m := by
  refine .next_bind hm fun {l d} hd _ hpos => ?_
  split
  · exact .pure hd rfl good_nil trivial
  · refine (h.blockIn hd mode).bind_break (fun hd' ha hb => .pure hd'.sound hb hd'.good ha)
      fun {signal m₁} hd' ha => ?_
    refine .stop hd'.sound ?_ hd'.good ha
    exact hd'.within.bind (R := fun _ _ => True) (fun L => (Rules.within_reads k L).block) hd.inside
      fun _ _ => .pure trivial
  · exact .rollback_bind hd (hpos ▸ Nat.succ_pos _) fun hd _ => .pure hd rfl good_nil rfl

theorem ifTurn (h : r.Faithful k) (hm : m.Sound) (mode : Mode) :
    Honours (.turn pending .signal) none ((Rules.within k).ifTurn .skip) m.cursor
      (r.ifTurn mode) m := by
  cases mode with
  | skip =>
    refine .scan (h.inStep hm).ifTurn hm fun turn hturn => ?_
    cases turn with
    | again i => exact ⟨trivial, hturn, rfl⟩
    | stop signal =>
      cases (show signal = .normal from hturn)
      exact ⟨rfl, rfl, rfl⟩
  | execute =>
    refine (h.parenthesized hm).bind (fun _ => trivial) fun {taken b m₁} hd hb => ?_
    cases (show b = false from hb)
    refine (h.blockIn hd.sound _).bind_break (fun {signal b m₂} hd₂ ha hb => ?_) fun {signal m₂}
      hd₂ ha => ?_
    · cases (show signal = .normal from ha)
      cases (show b = .normal from hb)
      exact h.ifRest hd₂.sound _
    · rw [if_pos (Signal.isInterrupt_of_ne ha)]
      refine .stop hd₂.sound ?_ hd₂.good ha
      refine hd₂.within.bind (R := fun _ _ => True) (fun L => (Rules.within_reads k L).block)
        hd.sound.inside ?_
      rintro _ rfl L
      exact (Rules.within_reads k L).ifRest.imp fun _ _ => trivial

theorem ifChain (h : r.Faithful k) (hm : m.Sound) :
    Honours .signal none ((Rules.within k).ifChain .skip) m.cursor (r.ifChain .execute) m := by
  refine .loop (S := pending) (T := (· = .skip)) (Q := (· = .normal)) ?_ (fun h => h) ?_
    (h.inStep hm).fuel hm rfl
    good_nil
  · rintro _ rfl L
    exact (Rules.within_reads k L).ifTurn
  · intro mode _ m hm hskip _
    cases (show _ = Mode.skip from hskip)
    exact h.ifTurn hm mode

/-! ## Procedures and jumps -/

/-- The text of a procedure has been skipped when the procedure is declared, so it can be called
from then on. -/
theorem procedureDefinition (h : r.Faithful k) (hm : m.Sound) :
    Honours .signal none ((Rules.within k).procedureDefinition .skip) m.cursor
      (r.procedureDefinition .execute) m := by
  refine .scan_bind .expectIdentifier hm fun {nameAt c} _ hc _ _ => ?_
  obtain ⟨name, location⟩ := nameAt
  refine Honours.position_bind_both (m := m.on c) ?_
  refine .scan_bind (h.inStep hc).parameterList hc fun {parameters c₁} _ hc₁ hs₁ hg₁ => ?_
  refine .scan_bind (h.inStep hc₁).bracedStatements hc₁ fun {signal d} hsignal hd hs₂ hg₂ => ?_
  subst hsignal
  refine Honours.currentScope_bind ?_
  have hcallable : Callable d.cache c.position :=
    .of_scans hc.inside (hg₁.trans hg₂) ((bind_done hs₁).trans hs₂)
  refine (Honours.declare hd name location fun v hv => ?_).idle_bind (fun _ => trivial)
    fun hd _ => ?_
  · cases hv
    exact hcallable
  · exact .pure hd.sound rfl good_nil rfl

/-- A jump has been read to its end, but it counts as one that was left early. -/
theorem jump (hm : m.Sound) {signal : Signal}
    (hgood : ∀ v ∈ Reading.signal.values signal, v.Good m.cursor.cache) (hne : signal ≠ .normal) :
    Honours .signal none (pure (Rules.jump .skip signal)) m.cursor
      (pure (Rules.jump .execute signal)) m :=
  .stop hm (.nothing _ _) hgood hne

theorem returnStatement (h : r.Faithful k) (hm : m.Sound) (location : Location) :
    Honours .signal none ((Rules.within k).returnStatement .skip location) m.cursor
      (r.returnStatement .execute location) m := by
  refine .peekIs_bind hm fun {semicolon d} hd _ => ?_
  cases semicolon with
  | true => exact .next_bind hd fun hd _ _ => jump hd good_nil Signal.noConfusion
  | false =>
    refine (h.expression hd).bind (fun _ => trivial) fun {value b m₁} hdone _ => ?_
    refine .expect_bind hdone.sound fun hd hg => ?_
    exact .stop hd (.nothing _ _) (fun v hv => (hdone.good v hv).mono hg.cache_le)
      Signal.noConfusion

/-! ## All statements -/

theorem evalStatement (h : r.Faithful k) (hm : m.Sound) :
    Honours .signal none ((Rules.within k).evalStatement .skip) m.cursor
      (r.evalStatement .execute) m := by
  refine (h.expression hm).bind (fun _ => trivial) fun {value b m₁} hd _ => ?_
  refine .expect_bind hd.sound fun hd _ => ?_
  refine (Honours.write hd _).idle_bind (fun _ => trivial) fun hd _ => ?_
  exact .pure hd.sound rfl good_nil rfl

theorem expressionStatement (h : r.Faithful k) (hm : m.Sound) :
    Honours .signal none ((Rules.within k).expressionStatement .skip) m.cursor
      (r.expressionStatement .execute) m := by
  refine (h.expression hm).bind (fun _ => trivial) fun {value b m₁} hd _ => ?_
  exact .expect_bind hd.sound fun hd _ => .pure hd rfl good_nil rfl

theorem statementRule (h : r.Faithful k) (hm : m.Sound) :
    Honours .signal none ((Rules.within k).statementRule .skip) m.cursor
      (r.statementRule .execute) m := by
  refine .next_bind hm fun {l d} hd _ hpos => ?_
  have hback : 0 < (m.on d).cursor.position := hpos ▸ Nat.succ_pos _
  split
  · exact .rollback_bind hd hback fun hd _ => h.block hd
  · exact h.ifChain hd
  · exact h.whileLoop hd
  · exact h.doLoop hd
  · exact h.forLoop hd
  · exact h.procedureDefinition hd
  · refine (h.declaration hd).bind (fun _ => trivial) fun hd _ => ?_
    exact .expect_bind hd.sound fun hd _ => .pure hd rfl good_nil rfl
  · exact h.evalStatement hd
  · exact .expect_bind hd fun hd _ => jump hd good_nil Signal.noConfusion
  · exact .expect_bind hd fun hd _ => jump hd good_nil Signal.noConfusion
  · exact h.returnStatement hd _
  · exact .pure hd rfl good_nil rfl
  · exact .failParse hd _ _
  · exact .rollback_bind hd hback fun hd _ => h.expressionStatement hd

end Rules.Faithful

/-! ## All rules -/

theorem Honours.watched {α β : Type} {R : Reading α β} {exempt : Option ScopeId} {s : Exec β}
    {c : Cursor} {x : Exec α} {m : Machine} {watch : Machine → Bool} (hw : watch m = false)
    (h : Honours R exempt s c x m) :
    Honours R exempt s c (x.watched watch) m where
  done hx := h.done (by rwa [watched_run hw] at hx)
  fault hx := h.fault (by rwa [watched_run hw] at hx)

/-- The rules honour their contracts with those that have at least as much fuel, also if they are
watched for states that are not sound. -/
theorem Rules.watched_faithful {watch : Machine → Bool}
    (hwatch : ∀ {m}, m.Sound → watch m = false) {n k : Nat}
    (hn : n ≤ k) : (Rules.watched watch n).Faithful k := by
  have hstep {n k : Nat} (hn : n ≤ k) {m : Machine} (hm : m.Sound) :
      (Rules.watched watch n).InStep (.frame m (.bare m.cursor)) (Rules.within k) := by
    refine Rules.watched_inStep ?_ (fun h => False.elim h) hn
    rintro _ _ ⟨c, rfl, _, hg, hc⟩
    exact hwatch (hm.on hg.cache_le hc)
  induction n generalizing k with
  | zero =>
    exact ⟨hstep hn, fun _ => .of_outOfFuel rfl, fun _ => .of_outOfFuel rfl,
      fun _ => .of_outOfFuel rfl, fun _ _ => .of_outOfFuel rfl, fun _ _ _ => .of_outOfFuel rfl⟩
  | succ n ih =>
    cases k with
    | zero => exact absurd hn (Nat.not_succ_le_zero n)
    | succ k =>
      have hk := Nat.le_of_succ_le_succ hn
      have h := ih hk
      exact ⟨hstep hn, fun hm => .watched (hwatch hm) (h.statementRule hm),
        fun hm => .watched (hwatch hm) (h.assignmentRule hm),
        fun hm => .watched (hwatch hm) (h.conditionalRule hm),
        fun least hm => .watched (hwatch hm) (h.binaryRule least hm),
        fun name location hm => .watched (hwatch hm) (callRule_honours ih hk hm name location)⟩

theorem Rules.within_faithful {n k : Nat} (hn : n ≤ k) : (Rules.within n).Faithful k :=
  Rules.watched_nothing n ▸ watched_faithful (fun _ => rfl) hn

end Replay
