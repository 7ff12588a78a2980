import Replay.Proofs.Follow.Precedence
import Replay.Proofs.Reachable
/-!
Evaluating an expression is evaluating its tree.

The tokens of an expression have parentheses only where the levels of its operators ask for them.
In every state that the interpreter can be in when these tokens come next, it reads them and no
others, and has the value, the error and the variables that the tree has.
-/

namespace Replay

open Exec

/-! ## Walks that end -/

namespace Walk

variable {α β : Type}

def Ends (y : Walk α) : Prop := ∀ w, y w ≠ none

theorem Ends.pure (a : α) : Ends (pure a : Walk α) := fun _ h => by cases h

theorem Ends.raise (cause : RuntimeCause) (location : Location) :
    Ends (raise cause location : Walk α) :=
  fun _ h => by cases h

theorem Ends.bind {y : Walk α} {g : α → Walk β} (hy : y.Ends) (hg : ∀ a, (g a).Ends) :
    (y >>= g).Ends := by
  intro w hnone
  cases hw : y w with
  | none => exact hy w hw
  | some r =>
    obtain ⟨result, w'⟩ := r
    cases result with
    | ok a =>
      rw [bind_ok hw] at hnone
      exact hg a w' hnone
    | error e =>
      rw [bind_error hw] at hnone
      cases hnone

theorem Ends.ofRuntime (result : Except RuntimeCause α) (location : Location) :
    (Walk.ofRuntime result location).Ends := by
  cases result with
  | ok a => exact .pure a
  | error cause => exact .raise cause location

theorem Ends.lookup (name : String) : (Walk.lookup name).Ends := by
  intro w h
  unfold Walk.lookup at h
  split at h <;> cases h

theorem Ends.store (name : String) (value : Value) (location : Location) :
    (Walk.store name value location).Ends := by
  intro w h
  unfold Walk.store at h
  split at h <;> cases h

theorem Ends.readVariable (name : String) (location : Location) :
    (Walk.readVariable name location).Ends := by
  refine (Ends.lookup name).bind fun found => ?_
  match found with
  | some ⟨_, some value⟩ => exact .pure value
  | some ⟨_, none⟩ => exact .raise _ _
  | none => exact .raise _ _

theorem Ends.assign (name : String) (assignment : Assignment) (value : Value)
    (target operator : Location) :
    (Walk.assign name assignment value target operator).Ends := by
  have hassigned : (Walk.assignedValue name assignment value target operator).Ends := by
    refine (Ends.lookup name).bind fun found => ?_
    match found, assignment with
    | none, _ => exact .raise _ _
    | some _, .plain => exact .pure value
    | some ⟨_, none⟩, .compound _ => exact .raise _ _
    | some ⟨_, some old⟩, .compound op => exact .ofRuntime _ _
  exact hassigned.bind fun stored => (Ends.store name stored target).bind fun _ => .pure stored

theorem Ends.operate {right : Walk Value} (h : right.Ends) (op : BinaryOperator) (left : Value)
    (location : Location) : (Walk.operate op left right location).Ends := by
  rw [operate_eq]
  split
  · exact .pure left
  · exact h.bind fun _ => .ofRuntime _ _

end Walk

/-- Without calls there is nothing that could go on for ever. -/
theorem Expr.eval_ends {p : Parens} {marks : Nat → Place} {invoke : Invocation} : (e : Expr Unit) →
    e.callFree = true → ∀ i, ((e.marked p marks i).eval invoke).Ends
  | .literal _ l, _, i => by
    simp only [Expr.marked, Expr.eval]
    cases l.value? with
    | some value => exact .pure value
    | none => exact .raise _ _
  | .read _ name, _, i => .readVariable name (marks i).location
  | .unary _ op e, h, i => (e.eval_ends h _).bind fun _ => .ofRuntime _ _
  | .binary op _ a b, h, i => by
    obtain ⟨ha, hb⟩ := Bool.and_eq_true_iff.mp h
    exact (a.eval_ends ha _).bind fun left => (b.eval_ends hb _).operate op left _
  | .conditional _ c a b, h, i => by
    obtain ⟨hca, hb⟩ := Bool.and_eq_true_iff.mp h
    obtain ⟨hc, ha⟩ := Bool.and_eq_true_iff.mp hca
    refine (c.eval_ends hc _).bind fun condition => (Walk.Ends.ofRuntime _ _).bind fun taken => ?_
    cases taken with
    | true => exact a.eval_ends ha _
    | false => exact b.eval_ends hb _
  | .assign _ name _ sign e, h, i =>
    (e.eval_ends h _).bind fun value => .assign name sign.meaning value _ _
  | .comma a b, h, i => by
    obtain ⟨ha, hb⟩ := Bool.and_eq_true_iff.mp h
    exact (a.eval_ends ha _).bind fun _ => b.eval_ends hb _

/-! ## Equal scopes -/

/-- What a walk needs of the state of the interpreter. -/
def Machine.world (m : Machine) :
    World := ⟨m.scopes, m.current, m.calls.depth, m.calls.maxDepth, m.out⟩

theorem UpdatesAlike.refl {alike : ScopeTree → ScopeTree → Prop} (h : ∀ t, alike t t)
    (r : Except InternalError (Option ScopeTree)) : UpdatesAlike alike r r := by
  cases r with
  | error e => rfl
  | ok found =>
    cases found with
    | none => trivial
    | some t => exact h t

/-- Both sides have the same scopes, and any values. -/
def View.same (tape : Cursor) : View where
  tape := tape
  alike := Eq
  known _ := True
  lookup_eq h _ _ := by rw [h]
  assign_alike h id name value := by
    rw [h]
    exact .refl (fun _ => rfl) _
  plain _ := trivial

theorem Machine.Sound.agree {m : Machine} (hm : m.Sound) {tape : Cursor}
    (hg : m.cursor.Grown tape) :
    (View.same tape).Agree m.cursor.position m m.world :=
  ⟨⟨hg, rfl, rfl, rfl, rfl, rfl, fun _ _ _ _ _ _ _ _ _ => trivial⟩, hm, rfl⟩

variable {source : String} {maxDepth : Nat} {out : Sink} {m : Machine}

/-- If the tokens of an expression come next, and then one that cannot go on with it, evaluating has
the outcome that the tree has. -/
theorem expression_evaluates_tree (h : Met source maxDepth out m) {e : Expr Unit}
    (hfree : e.callFree = true) {after : Token} (hafter : after.continues 0 = false) {k : Nat}
    (hahead : e.tokens .needed ++ [after] <+:
      ((m.cursor.fill k).cache.toList.drop m.cursor.position).map Lexeme.token)
    (invoke : Invocation) :
    ∃ result w m',
      (e.marked .needed (m.cursor.fill k).marks m.cursor.position).eval invoke m.world =
        some (result, w) ∧
      (∃ bound, ∀ fuel, bound ≤ fuel →
        Interpreter.expression fuel .execute m = .ofResult result m') ∧
      (∀ v, result = .ok v →
        m'.cursor.position = m.cursor.position + (e.tokens .needed).length ∧ m'.world = w) ∧
      m'.scopes = w.scopes ∧ m'.current = m.current ∧ m'.out = w.out := by
  have hm := h.sound
  have hagree := hm.agree (m.cursor.fill_grown k)
  obtain ⟨hs, ht, _⟩ := Cursor.spells_append.mp (Cursor.spells_of_drop hahead)
  have hparses : (View.same (m.cursor.fill k)).Parses 0
      ((e.marked .needed (m.cursor.fill k).marks m.cursor.position).eval invoke) _ _ _ :=
    e.parses Parens.needed_suffices (fun hcalls => absurd hcalls (by rw [hfree]; decide)) hs
  have hsim := hparses.expression (ht.stops hafter) .execute hagree
  have hfaithful (fuel : Nat) := (Rules.within_faithful (Nat.le_refl fuel)).expression hm
  cases heval : (e.marked .needed (m.cursor.fill k).marks m.cursor.position).eval invoke m.world
    with
  | none => exact absurd heval (e.eval_ends hfree _ _)
  | some r =>
    obtain ⟨result, w⟩ := r
    cases result with
    | ok v =>
      obtain ⟨_, m', hrun, _, hvalued⟩ := hsim.done heval
      obtain rfl := hvalued.same rfl
      obtain ⟨fuel, hfuel⟩ := hrun.exists_run
      have hagree' := hvalued.agree
      refine ⟨_, _, m', rfl, hrun.enough, fun _ _ => ⟨hagree'.position, ?_⟩, hagree'.scopes,
        ((hfaithful fuel).done hfuel).kept.current, hagree'.out⟩
      rw [Machine.world, hagree'.current, hagree'.depth, hagree'.maxDepth, hagree'.out,
        show m'.scopes = w.scopes from hagree'.scopes]
    | error er =>
      obtain ⟨m', hrun, hfails⟩ := hsim.fault heval
      obtain ⟨fuel, hfuel⟩ := hrun.exists_run
      exact ⟨_, _, m', rfl, hrun.enough, fun _ hok => (by cases hok), hfails.scopes,
        ((hfaithful fuel).fault hfuel).kept.current, hfails.out⟩

/-- `1 - 2 - 3 < -3 || y` -/
def unevenDisjunction : Expr Unit :=
  let difference :=
    .binary .sub () (.binary .sub () (.literal () (.integer 1)) (.literal () (.integer 2)))
    (.literal () (.integer 3))
  .binary .or () (.binary .less () difference (.unary () .negate (.literal () (.integer 3))))
    (.read () "y")

/-- Differences group from the left, and a comparison that holds leaves nothing to be asked. -/
theorem expression_evaluates_tree_disjunction :
    ∃ bound m', (∀ fuel, bound ≤ fuel → Interpreter.expression fuel .execute
        (Machine.start "1 - 2 - 3 < -3 || y;" 1 .unlimited) = .done (.boolean true) m') ∧
      m'.cursor.position = 10 := by
  have hstop : (Token.punct .semicolon).continues 0 = false := rfl
  have hahead : unevenDisjunction.tokens .needed ++ [.punct .semicolon] ++ [] =
      (((Cursor.ofSource "1 - 2 - 3 < -3 || y;").fill 11).cache.toList.drop 0).map
        Lexeme.token := by decide +kernel
  have hmet : Met "1 - 2 - 3 < -3 || y;" 1 .unlimited
      (Machine.start "1 - 2 - 3 < -3 || y;" 1 .unlimited) :=
    Session.start.met
  obtain ⟨result, w, m', heval, ⟨bound, hrun⟩, hok, _⟩ :=
    expression_evaluates_tree hmet (e := unevenDisjunction) rfl hstop ⟨[], hahead⟩ fun _ _ _ _ =>
      Walk.spent
  have hvalue : ((unevenDisjunction.marked .needed
      ((Cursor.ofSource "1 - 2 - 3 < -3 || y;").fill 11).marks 0).eval (fun _ _ _ _ => Walk.spent)
        (Machine.start "1 - 2 - 3 < -3 || y;" 1 .unlimited).world).map Prod.fst =
          some (.ok (.boolean true)) := by decide +kernel
  cases hvalue.symm.trans (congrArg (Option.map Prod.fst) heval)
  exact ⟨bound, m', hrun, (hok _ rfl).1⟩

end Replay
