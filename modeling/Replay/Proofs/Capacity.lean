import Replay.Proofs.Arena.Edits
import Replay.Proofs.Parts.Rules
import Replay.Proofs.Reachable
/-!
When there is no room for another scope.

The one internal error that a script can bring about is that all slots are in use.  By the time the
host hears of it the scopes have been given up, but not their slots: a slot is made only if no other
one is free, so all the slots that there are have been in use at the same moment.
-/

namespace Replay

open Exec
open ScopeTree (arenaFull maxSlots)

/-! ## How many slots there are -/

namespace ScopeTree

variable {t t' : ScopeTree}

theorem Edited.packed {e : Edit} {a : Answer} (h : t.Edited e a t') :
    t'.slots.size = t.slots.size ∨ t'.live = t'.slots.size := by
  cases h with
  | created _ hcreated => exact hcreated.packed
  | pruned _ _ hpruned => exact .inl hpruned.spent.size
  | cleared hcleared => exact .inl hcleared.spent.size
  | put _ hput _ _ => exact .inl hput.size
  | declined => exact .inl rfl

theorem Edit.perform_packed (ht : t.Stocked) (hc : t.Connected) (e : Edit) :
    (e.perform t).2.slots.size = t.slots.size ∨
      (e.perform t).2.live = (e.perform t).2.slots.size := by
  rcases e.perform_cases ht hc with ⟨a, _, h⟩ | ⟨err, h⟩
  · exact h.packed
  · rw [h]
    exact .inl rfl

/-- All slots that edits have made were in use together at some moment. -/
theorem after_packed (ht : t.Stocked) (hc : t.Connected) (edits : List Edit) :
    (t.after edits).slots.size = t.slots.size ∨
      ∃ earlier, earlier <+: edits ∧ (t.after earlier).live = (t.after edits).slots.size := by
  induction edits generalizing t with
  | nil => exact .inl rfl
  | cons e edits ih =>
    obtain ⟨ht', hc'⟩ := e.perform_keeps ht hc
    rcases ih ht' hc' with hsame | ⟨earlier, hle, hlive⟩
    · rcases e.perform_packed ht hc with hsize | hpacked
      · exact .inl (hsame.trans hsize)
      · exact .inr ⟨[e], List.prefix_append [e] edits, hpacked.trans hsame.symm⟩
    · exact .inr ⟨e :: earlier, List.cons_prefix_cons.mpr ⟨rfl, hle⟩, hlive⟩

theorem exists_full {edits : List Edit} (h : (new.after edits).slots.size = maxSlots) :
    ∃ earlier, earlier <+: edits ∧ (new.after earlier).live = maxSlots := by
  rcases after_packed new_stocked new_connected edits with hsame | ⟨earlier, hle, hlive⟩
  · exact ⟨[], List.nil_prefix, hsame.symm.trans h⟩
  · exact ⟨earlier, hle, hlive.trans h⟩

theorem after_append (t : ScopeTree) (edits later : List Edit) :
    t.after (edits ++ later) = (t.after edits).after later := by
  induction edits generalizing t with
  | nil => rfl
  | cons e edits ih => exact ih _

def Edits (t : ScopeTree) : Prop :=
  ∃ edits, new.after edits = t

theorem Edits.apply {e : Edit} {a : Answer} (h : t.Edits) (he : e.apply t = .ok (a, t')) :
    t'.Edits := by
  obtain ⟨edits, rfl⟩ := h
  obtain ⟨ht, hc⟩ := after_keeps new_stocked new_connected edits
  refine ⟨edits ++ [e], ?_⟩
  rw [after_append, after, after, e.perform_eq ht hc, he]
  rfl

end ScopeTree

/-! ## What the rules do to the tree -/

/-- Something that is true of a tree stays true whatever is done to the tree. -/
def ScopeTree.Lasting (I : ScopeTree → Prop) : Prop :=
  ∀ {t t' e a}, I t → Edit.apply t e = .ok (a, t') → I t'

namespace Exec.Keeps

variable {I : ScopeTree → Prop} {α : Type} {Q : α → Prop}

theorem changeScopes_lasting (hI : ScopeTree.Lasting I)
    {f : ScopeTree → Except InternalError ScopeTree} (e : ScopeTree.Edit)
    (he : ∀ t, e.apply t = (f t).map (.done, ·)) :
    Keeps (fun m => I m.scopes) (fun _ => True) (changeScopes f) := by
  intro m hm
  have happly := he m.scopes
  unfold Exec.changeScopes
  split
  · next t hok =>
    rw [hok] at happly
    exact ⟨trivial, hI hm happly⟩
  · exact hm

theorem createScope_lasting (hI : ScopeTree.Lasting I) (parent : ScopeId) (kind : ScopeKind) :
    Keeps (fun m => I m.scopes) (fun _ => True) (createScope parent kind) := by
  intro m hm
  unfold Exec.createScope
  split
  · next id t hok =>
    have happly : (ScopeTree.Edit.create parent kind).apply m.scopes = .ok (.scope id, t) := by
      rw [ScopeTree.Edit.apply, hok]
      rfl
    exact ⟨trivial, hI hm happly⟩
  · exact hm

theorem declare_lasting (hI : ScopeTree.Lasting I) (name : String) (value : Option Value)
    (location : Location) :
    Keeps (fun m => I m.scopes) (fun _ => True) (declare name value location) := by
  intro m hm
  unfold Exec.declare
  split
  · next t hok =>
    have happly : (ScopeTree.Edit.declare m.current name value).apply m.scopes =
        .ok (.done, t) := by
      rw [ScopeTree.Edit.apply, hok]
      rfl
    exact ⟨trivial, hI hm happly⟩
  · exact hm
  · exact hm

theorem store_lasting (hI : ScopeTree.Lasting I) (name : String) (value : Value)
    (location : Location) :
    Keeps (fun m => I m.scopes) (fun _ => True) (store name value location) := by
  intro m hm
  unfold Exec.store
  split
  · next t hok =>
    have happly : (ScopeTree.Edit.assign m.current name (some value)).apply m.scopes =
        .ok (.done, t) := by
      rw [ScopeTree.Edit.apply, hok]
      rfl
    exact ⟨trivial, hI hm happly⟩
  · exact hm
  · exact hm

theorem destroyScope_lasting (hI : ScopeTree.Lasting I) (scope : ScopeId) :
    Keeps (fun m => I m.scopes) (fun _ => True) (destroyScope scope) :=
  changeScopes_lasting hI (.destroy scope) fun _ => rfl

theorem inScope_lasting {scope : ScopeId} {body : Exec α}
    (h : Keeps (fun m => I m.scopes) Q body) :
    Keeps (fun m => I m.scopes) Q (inScope scope body) := by
  intro m hm
  have hbody := h { m with current := scope } hm
  unfold Exec.inScope
  dsimp only
  generalize body { m with current := scope } = o at hbody
  cases o with
  | done a m₁ => exact hbody
  | fault e m₁ => exact hbody
  | outOfFuel => trivial

theorem calling_lasting (hI : ScopeTree.Lasting I) {procedure : Procedure} {body : Exec Signal}
    {R : Signal → Prop} (h : Keeps (fun m => I m.scopes) R body) (arguments : List Value)
    (location : Location) :
    Keeps (fun m => I m.scopes) R
      (calling (fun _ => false) procedure arguments location body) := by
  refine bind (P := fun _ => True) (fun m hm => ⟨trivial, hm⟩) fun p _ => ?_
  refine (pushCall (fun _ _ hm => hm) _ location).bind fun _ _ => ?_
  refine (moveCursor (fun _ _ hm => hm) _).bind fun _ _ => ?_
  refine (createScope_lasting hI procedure.scope .procedure).bind fun scope _ => ?_
  refine (inScope_lasting h).ensuring ((destroyScope_lasting hI scope).bind fun _ _ => ?_)
  exact (popCall fun _ _ hm => hm).bind fun _ _ => moveCursor (fun _ _ hm => hm) _

end Exec.Keeps

def ScopeTree.Outlasts (I : ScopeTree → Prop) {α : Type} (Q : α → Prop) (x : Watch → Exec α) :
    Prop :=
  (x fun _ => false).Keeps (fun m => I m.scopes) Q

theorem Made.outlasts {I : ScopeTree → Prop} (hI : ScopeTree.Lasting I) {r : Watch → Rules}
    (hr : Rules.Each (fun _ => True) r (ScopeTree.Outlasts I)) {α : Type} {Q : α → Prop}
    {x : Watch → Exec α} (h : Made (fun _ => True) (fun _ => True) r Q x) :
    ScopeTree.Outlasts I Q x := by
  induction h with
  | pure h => exact .pure h
  | fail e => exact fun _ hm => hm
  | imp _ h ih => exact ih.imp h
  | bind _ _ ihx ihf => exact Exec.Keeps.bind ihx ihf
  | loop _ _ hs ih => exact .loop ih _ hs
  | onCursor g => exact .onCursor (fun _ _ hm => hm) g
  | moveCursor g => exact .moveCursor (fun _ _ hm => hm) g
  | position => exact fun _ hm => ⟨trivial, hm⟩
  | currentScope => exact fun _ hm => ⟨trivial, hm⟩
  | readScopes g => exact .readScopes g
  | lookup name =>
    intro m hm
    unfold Exec.lookup
    dsimp only
    split
    · exact ⟨fun _ v _ _ => v.within_any, hm⟩
    · exact hm
  | declare name location _ => exact .declare_lasting hI name _ location
  | store name location _ => exact .store_lasting hI name _ location
  | setKind kind _ => exact .changeScopes_lasting hI (.setKind _ kind) fun _ => rfl
  | copyBindings _ _ => exact .changeScopes_lasting hI (.copyBindings _ _) fun _ => rfl
  | writeBack _ _ => exact .changeScopes_lasting hI (.writeBack _ _) fun _ => rfl
  | withChild kind _ _ ih =>
    refine (Exec.Keeps.createScope_lasting hI _ kind).bind fun scope _ => ?_
    exact (ih scope trivial).ensuring (.destroyScope_lasting hI scope)
  | inScope _ _ ih => exact Exec.Keeps.inScope_lasting ih
  | write text =>
    intro m hm
    unfold Exec.write
    dsimp only
    split
    · exact ⟨trivial, hm⟩
    · exact hm
  | watched _ ih => exact ih
  | calling arguments location _ _ ih => exact .calling_lasting hI ih arguments location
  | statement mode => exact hr.statement mode
  | assignment mode => exact hr.assignment mode
  | conditional mode => exact hr.conditional mode
  | binary least mode => exact hr.binary least mode
  | call name location mode => exact hr.call name location mode

theorem Rules.posted_outlasts {I : ScopeTree → Prop} (hI : ScopeTree.Lasting I) (fuel : Nat) :
    Rules.Each (fun _ => True) (fun w => posted w fuel) (ScopeTree.Outlasts I) :=
  posted_each (fun _ _ => trivial) (fun Q => Exec.Keeps.outOfFuel Q)
    (fun hr _ _ _ h => h.outlasts hI hr) fuel

theorem Request.perform_lasting {I : ScopeTree → Prop} (hI : ScopeTree.Lasting I) (fuel : Nat)
    (request : Request) :
    (request.perform (Rules.within fuel)).Keeps (fun m => I m.scopes) fun _ => True := by
  have hr := Rules.posted_outlasts hI fuel
  have hfuel : ∀ w, (Rules.posted w fuel).fuel = fuel := fun w => Rules.posted_fuel w fuel
  rw [← Rules.posted_quiet]
  cases request with
  | step mode => exact Exec.Keeps.bind (hr.statement mode) fun _ _ => .pure trivial
  | expression mode =>
    exact Exec.Keeps.bind ((Made.expression hfuel mode).outlasts hI hr) fun _ _ => .pure trivial
  | run => exact (Made.script hfuel).outlasts hI hr
  | teardown =>
    intro m hm
    simp only [Request.perform, Interpreter.teardown]
    cases hok : m.scopes.teardown with
    | error e => exact hm
    | ok t =>
      have happly : ScopeTree.Edit.teardown.apply m.scopes = .ok (.done, t) := by
        rw [ScopeTree.Edit.apply, hok]
        rfl
      exact ⟨trivial, hI hm happly⟩

section Sessions

variable {source : String} {maxDepth : Nat} {out : Sink} {m : Machine} {errors : List Error}

/-- The host's requests do nothing to the tree but edit it. -/
theorem Session.edits (h : Session source maxDepth out errors m) : m.scopes.Edits := by
  induction h with
  | start => exact ⟨[], rfl⟩
  | done request fuel _ hx ih =>
    have hkeeps := request.perform_lasting ScopeTree.Edits.apply fuel
    exact hkeeps.leaves ih (.inl ⟨(), hx⟩)
  | fault request fuel _ hx ih =>
    have hkeeps := request.perform_lasting ScopeTree.Edits.apply fuel
    exact hkeeps.leaves ih (.inr ⟨_, hx⟩)

/-! ## Internal errors -/

/-- No request reports an internal error, unless there have been as many scopes at once as can be
told apart.  Then there is one such error, whatever edits have brought the tree about every slot was
in use at some moment, and a state in which the error is due has a scope in every slot. -/
theorem no_internal_error (h : Session source maxDepth out errors m) :
    ((∀ i, .internal i ∉ errors) ∨
      (m.scopes.slots.size = maxSlots ∧ (∀ i, .internal i ∈ errors → i = arenaFull) ∧
        ∀ edits, ScopeTree.new.after edits = m.scopes →
          ∃ earlier, earlier <+: edits ∧ (ScopeTree.new.after earlier).live = maxSlots)) ∧
    (∃ edits, ScopeTree.new.after edits = m.scopes) ∧
    ∀ {n}, Met source maxDepth out n → ∀ {parent kind i}, n.scopes.contains parent = true →
      n.scopes.create parent kind = .error i → i = arenaFull ∧ n.scopes.live = maxSlots := by
  have hrest := h.atRest
  refine ⟨?_, h.edits, fun {n} hmet {parent kind i} hparent hcreate => ?_⟩
  · by_cases hnone : ∀ i, .internal i ∉ errors
    · exact .inl hnone
    · obtain ⟨i, hi⟩ := not_forall.mp hnone
      have hsize := (hrest.internal (not_not.mp hi)).2
      refine .inr ⟨hsize, fun i hi => (hrest.internal hi).1, fun edits hedits => ?_⟩
      exact ScopeTree.exists_full (hedits ▸ hsize)
  · obtain ⟨p, hp⟩ := ScopeTree.contains_iff.mp hparent
    rcases ScopeTree.create_cases hmet.sound.stocked hp kind with ⟨id, t, hok, _⟩ | ⟨hno, hfull⟩
    · cases hok.symm.trans hcreate
    · cases hno.symm.trans hcreate
      exact ⟨rfl, hfull⟩

/-- Calls without end are stopped by an error, and that error is none of these. -/
theorem no_internal_error_overflow :
    ∃ m, Session "procedure f() \x7b f(); \x7d f();" 1 .unlimited
        [.runtime ⟨.stackOverflow 1, ⟨1, 17⟩⟩] m ∧
      ((∀ i, Error.internal i ∉ [.runtime ⟨.stackOverflow 1, ⟨1, 17⟩⟩]) ∨
        (m.scopes.slots.size = maxSlots ∧
          (∀ i, Error.internal i ∈ [.runtime ⟨.stackOverflow 1, ⟨1, 17⟩⟩] → i = arenaFull) ∧
          ∀ edits, ScopeTree.new.after edits = m.scopes →
            ∃ earlier, earlier <+: edits ∧ (ScopeTree.new.after earlier).live = maxSlots)) ∧
      ∃ edits, ScopeTree.new.after edits = m.scopes := by
  have hrun : (Request.run.perform (Rules.within 12)
      (Machine.start "procedure f() \x7b f(); \x7d f();" 1 .unlimited)).result? =
        some (.error (.runtime ⟨.stackOverflow 1, ⟨1, 17⟩⟩)) := by decide +kernel
  obtain ⟨m, hfault⟩ := Outcome.exists_of_result_error hrun
  have hsession := Session.fault .run 12 .start hfault
  exact ⟨m, hsession, (no_internal_error hsession).1, (no_internal_error hsession).2.1⟩

end Sessions
end Replay
