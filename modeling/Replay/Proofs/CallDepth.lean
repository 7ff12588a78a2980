import Mathlib.Order.Lattice.Nat
import Replay.Proofs.Arena.Subtree
import Replay.Proofs.Parts.Rules
import Replay.Proofs.Reachable
import Replay.Script
/-!
How deep calls may go.

A run and the same run under a lower limit go together up to the first call that only the lower
limit refuses.  If there is such a call, the run under the lower limit fails there, and has printed
nothing that the other run does not print; if there is none, the two end alike.  So there is one
number that matters to a run, the largest number of calls that are on the stack at the same time.
-/

namespace Replay

open Exec
open ScopeTree (arenaFull)

/-! ## Other stacks -/

def Machine.stacked (m : Machine) (calls : CallStack) : Machine := { m with calls }

/-- The same state with another limit on the depth of calls. -/
def Machine.limited (m : Machine) (d : Nat) : Machine := m.stacked ⟨m.calls.calls, d⟩

namespace Outcome

variable {α : Type}

def stacked (o : Outcome α) (calls : CallStack) : Outcome α :=
  match o with
  | done a m => done a (m.stacked calls)
  | fault e m => fault e (m.stacked calls)
  | outOfFuel => outOfFuel

def limited (o : Outcome α) (d : Nat) : Outcome α :=
  match o with
  | done a m => done a (m.limited d)
  | fault e m => fault e (m.limited d)
  | outOfFuel => outOfFuel

end Outcome

def Machine.printed (m : Machine) : List UInt8 := m.out.bytes.data.toList

def Exec.Prints {α : Type} (Q : α → Prop) (x : Exec α) : Prop :=
  ∀ text, x.Keeps (fun m => text <+: m.printed) Q

/-! ## Computations without calls -/

def Exec.onScopes {α : Type} (f : ScopeTree → ScopeId → Except Error (α × ScopeTree)) :
    Exec α := fun m =>
  match f m.scopes m.current with
  | .ok (a, scopes) => .done a { m with scopes }
  | .error e => .fault e m

namespace Exec

theorem readScopes_eq {α : Type} (f : ScopeTree → Except InternalError α) :
    readScopes f = onScopes fun t _ => ((f t).map (·, t)).mapError .internal := by
  funext m
  unfold readScopes onScopes
  dsimp only
  cases f m.scopes <;> rfl

theorem changeScopes_eq (f : ScopeTree → Except InternalError ScopeTree) :
    changeScopes f = onScopes fun t _ => ((f t).map ((), ·)).mapError .internal := by
  funext m
  unfold changeScopes onScopes
  dsimp only
  cases f m.scopes <;> rfl

theorem createScope_eq (parent : ScopeId) (kind : ScopeKind) :
    createScope parent kind = onScopes fun t _ => (t.create parent kind).mapError .internal := by
  funext m
  unfold createScope onScopes
  dsimp only
  cases m.scopes.create parent kind <;> rfl

theorem lookup_eq (name : String) :
    lookup name = onScopes fun t current =>
    ((t.lookup current name).map (·, t)).mapError .internal := by
  funext m
  unfold lookup onScopes
  dsimp only
  cases m.scopes.lookup m.current name <;> rfl

theorem declare_eq (name : String) (value : Option Value) (location : Location) :
    declare name value location = onScopes fun t current =>
      ((t.declare? current name value).mapError Error.internal).bind fun declared =>
        declared.elim (.error (.runtime ⟨.redefinedIdentifier name, location⟩)) fun t =>
        .ok ((), t) := by
  funext m
  unfold declare onScopes
  dsimp only
  rcases m.scopes.declare? m.current name value with _ | _ | _ <;> rfl

theorem store_eq (name : String) (value : Value) (location : Location) :
    store name value location = onScopes fun t current =>
      ((t.assign? current name (some value)).mapError Error.internal).bind fun assigned =>
        assigned.elim (.error (.runtime ⟨.undefinedIdentifier name, location⟩)) fun t =>
        .ok ((), t) := by
  funext m
  unfold store onScopes
  dsimp only
  rcases m.scopes.assign? m.current name (some value) with _ | _ | _ <;> rfl

end Exec

/-- The calls on the stack do not come into it, and the output only grows. -/
structure Exec.Aside {α : Type} (x : Exec α) : Prop where
  stacked : ∀ m calls, x (m.stacked calls) = (x m).stacked calls
  prints : x.Prints fun _ => True

namespace Exec.Aside

variable {α : Type} {x : Exec α} {m m' : Machine}

theorem calls (h : x.Aside) {a : α} (hx : x m = .done a m') : m'.calls = m.calls := by
  have hsame := h.stacked m m.calls
  change x m = _ at hsame
  rw [hx] at hsame
  injection hsame with _ hm'
  have hcalls := congrArg Machine.calls hm'
  exact hcalls

theorem limited (h : x.Aside) (m : Machine) (d : Nat) : x (m.limited d) = (x m).limited d := by
  have hlimited := h.stacked m ⟨m.calls.calls, d⟩
  have hsame := h.stacked m m.calls
  change x m = _ at hsame
  change x (m.limited d) = _ at hlimited
  rw [hlimited]
  cases hx : x m with
  | done a m' =>
    rw [hx] at hsame
    injection hsame with _ hm'
    rw [hm']
    rfl
  | fault e m' =>
    rw [hx] at hsame
    injection hsame with _ hm'
    rw [hm']
    rfl
  | outOfFuel => rfl

theorem onCursor (f : Cursor → Except ParseError α × Cursor) : (onCursor f).Aside where
  stacked m calls := by
    show Exec.onCursor f ⟨m.cursor, m.scopes, calls, m.current, m.out⟩ =
      (Exec.onCursor f ⟨m.cursor, m.scopes, m.calls, m.current, m.out⟩).stacked calls
    unfold Exec.onCursor
    dsimp only
    split <;> rfl
  prints _ := .onCursor (fun _ _ hm => hm) f

theorem moveCursor (f : Cursor → Except InternalError Cursor) : (moveCursor f).Aside where
  stacked m calls := by
    show Exec.moveCursor f ⟨m.cursor, m.scopes, calls, m.current, m.out⟩ =
      (Exec.moveCursor f m).stacked calls
    unfold Exec.moveCursor
    dsimp only
    split <;> rfl
  prints _ := .moveCursor (fun _ _ hm => hm) f

/-- What happens to the scopes only. -/
theorem onScopes (f : ScopeTree → ScopeId → Except Error (α × ScopeTree)) : (onScopes f).Aside where
  stacked m calls := by
    show Exec.onScopes f ⟨m.cursor, m.scopes, calls, m.current, m.out⟩ =
      (Exec.onScopes f m).stacked calls
    unfold Exec.onScopes
    dsimp only
    split <;> rfl
  prints text m hm := by
    unfold Exec.onScopes
    split
    · exact ⟨trivial, hm⟩
    · exact hm

theorem readScopes (f : ScopeTree → Except InternalError α) : (readScopes f).Aside :=
  readScopes_eq f ▸ onScopes _

theorem changeScopes (f : ScopeTree → Except InternalError ScopeTree) : (changeScopes f).Aside :=
  changeScopes_eq f ▸ onScopes _

theorem createScope (parent : ScopeId) (kind : ScopeKind) : (createScope parent kind).Aside :=
  createScope_eq parent kind ▸ onScopes _

theorem lookup (name : String) : (lookup name).Aside :=
  lookup_eq name ▸ onScopes _

theorem declare (name : String) (value : Option Value) (location : Location) :
    (declare name value location).Aside :=
  declare_eq name value location ▸ onScopes _

theorem store (name : String) (value : Value) (location : Location) :
    (store name value location).Aside :=
  store_eq name value location ▸ onScopes _

theorem write (text : String) : (write text).Aside where
  stacked m calls := by
    show Exec.write text ⟨m.cursor, m.scopes, calls, m.current, m.out⟩ =
      (Exec.write text ⟨m.cursor, m.scopes, m.calls, m.current, m.out⟩).stacked calls
    unfold Exec.write
    dsimp only
    split <;> rfl
  prints before m hm := by
    have hgrown : before <+: (m.out.bytes ++ m.out.accept text.toUTF8).data.toList := by
      rw [ByteArray.data_append, Array.toList_append]
      exact hm.trans (List.prefix_append _ _)
    unfold Exec.write Sink.write
    dsimp only
    split
    · rename_i out hout
      rw [← (Prod.mk.inj hout).2]
      exact ⟨trivial, hgrown⟩
    · rename_i e out hout
      rw [← (Prod.mk.inj hout).2]
      exact hgrown

end Exec.Aside

/-! ## Cleaning up -/

/-- What is done whether or not a body failed.  It ends right away, it prints nothing, and it makes
no scope. -/
structure Exec.Cleanup (x : Exec Unit) : Prop where
  limited : ∀ m d, x (m.limited d) = (x m).limited d
  ends : ∀ m, (∃ m', x m = .done () m' ∧ m'.calls.depth ≤ m.calls.depth ∧
    m'.calls.maxDepth = m.calls.maxDepth ∧
      m'.printed = m.printed) ∨
    ∃ i m', i ≠ arenaFull ∧ x m = .fault (.internal i) m' ∧ m'.printed = m.printed

namespace Exec.Cleanup

theorem prints {x : Exec Unit} (h : x.Cleanup) : x.Prints fun _ => True := by
  intro text m hm
  rcases h.ends m with ⟨m', hx, _, _, hsame⟩ | ⟨i, m', _, hx, hsame⟩
  · have hkept : text <+: m'.printed := by rwa [hsame]
    rw [hx]
    exact ⟨trivial, hkept⟩
  · have hkept : text <+: m'.printed := by rwa [hsame]
    rw [hx]
    exact hkept

theorem bind {x y : Exec Unit} (hx : x.Cleanup) (hy : y.Cleanup) : (do x; y).Cleanup where
  limited m d := by
    have hlimited := hx.limited m d
    cases hrun : x m with
    | done u m' =>
      rw [hrun] at hlimited
      rw [bind_done hlimited, bind_done hrun, hy.limited]
    | fault e m' =>
      rw [hrun] at hlimited
      rw [bind_fault hlimited, bind_fault hrun]
      rfl
    | outOfFuel =>
      rw [hrun] at hlimited
      rw [bind_outOfFuel hlimited, bind_outOfFuel hrun]
      rfl
  ends m := by
    rcases hx.ends m with ⟨m₁, hrun, hdepth, hmax, hout⟩ | ⟨i, m₁, hi, hrun, hout⟩
    · rw [bind_done hrun]
      rcases hy.ends m₁ with ⟨m₂, hrun₂, hdepth₂, hmax₂, hout₂⟩ | ⟨i, m₂, hi, hrun₂, hout₂⟩
      · exact .inl ⟨m₂, hrun₂, Nat.le_trans hdepth₂ hdepth, hmax₂.trans hmax, hout₂.trans hout⟩
      · exact .inr ⟨i, m₂, hi, hrun₂, hout₂.trans hout⟩
    · exact .inr ⟨i, m₁, hi, bind_fault hrun, hout⟩

theorem destroyScope (scope : ScopeId) : (destroyScope scope).Cleanup where
  limited m d := (Aside.changeScopes _).limited m d
  ends m := by
    cases hdestroy : m.scopes.destroy scope with
    | ok t =>
      have hrun : Exec.destroyScope scope m = .done () { m with scopes := t } := by
        simp only [Exec.destroyScope, Exec.changeScopes, hdestroy]
      exact .inl ⟨_, hrun, Nat.le_refl _, rfl, rfl⟩
    | error i =>
      have hrun : Exec.destroyScope scope m = .fault (.internal i) m := by
        simp only [Exec.destroyScope, Exec.changeScopes, hdestroy]
      obtain ⟨handle, rfl⟩ := ScopeTree.destroy_error hdestroy
      exact .inr ⟨.invalidHandle handle, m, (fun h => by cases h), hrun, rfl⟩

theorem seek (p : Nat) : (seek p).Cleanup where
  limited m d := (Aside.moveCursor _).limited m d
  ends m := by
    unfold Exec.seek Exec.moveCursor Cursor.seek
    by_cases hp : p ≤ m.cursor.cache.size
    · simp only [if_pos hp]
      exact .inl ⟨_, rfl, Nat.le_refl _, rfl, rfl⟩
    · simp only [if_neg hp]
      exact .inr ⟨m.cursor.outOfRange p, m, (fun h => by cases h), rfl, rfl⟩

theorem popCall_empty {m : Machine} (h : m.calls.calls.back? = none) :
    popCall m = .fault (.internal (.unreachable .callStackPop)) m := by
  simp only [popCall, CallStack.pop, h]

theorem popCall_top {m : Machine} {call : Call} (h : m.calls.calls.back? = some call) :
    popCall m = .done call (m.stacked ⟨m.calls.calls.pop, m.calls.maxDepth⟩) := by
  simp only [popCall, CallStack.pop, h]
  rfl

theorem leaveCall : Rules.leaveCall.Cleanup where
  limited m d := by
    cases hback : m.calls.calls.back? with
    | none =>
      have hlow := popCall_empty (m := m.limited d) hback
      rw [Rules.leaveCall, bind_fault hlow, bind_fault (popCall_empty hback)]
      rfl
    | some call =>
      have hlow := popCall_top (m := m.limited d) hback
      rw [Rules.leaveCall, bind_done hlow, bind_done (popCall_top hback),
        ← (seek call.resume).limited]
      rfl
  ends m := by
    cases hback : m.calls.calls.back? with
    | none =>
      exact .inr ⟨.unreachable .callStackPop, m, (fun h => by cases h),
        bind_fault (popCall_empty hback), rfl⟩
    | some call =>
      have hdepth : (m.stacked ⟨m.calls.calls.pop, m.calls.maxDepth⟩).calls.depth ≤
          m.calls.depth := by
        show m.calls.calls.pop.size ≤ m.calls.calls.size
        rw [Array.size_pop]
        omega
      rw [Rules.leaveCall, bind_done (popCall_top hback)]
      rcases (seek call.resume).ends (m.stacked ⟨m.calls.calls.pop, m.calls.maxDepth⟩) with
        ⟨m', hseek, hle, hmax, hout⟩ | ⟨i, m', hi, hseek, hout⟩
      · exact .inl ⟨m', hseek, Nat.le_trans hle hdepth, hmax, hout⟩
      · exact .inr ⟨i, m', hi, hseek, hout⟩

end Exec.Cleanup

/-! ## Two limits -/

/-- A state that the limit `d` allows, in a run whose own limit is no lower. -/
structure Machine.Under (d : Nat) (m : Machine) : Prop where
  depth : m.calls.depth ≤ d
  limit : d ≤ m.calls.maxDepth

/-- The errors of a run that the limit `d` stops.  Those of what is cleaned up on the way out take
precedence. -/
inductive Stopped (d : Nat) : Error → Prop where
  | overflow (location : Location) : Stopped d (.runtime ⟨.stackOverflow d, location⟩)
  | internal {i : InternalError} : i ≠ arenaFull → Stopped d (.internal i)

/-- A watch that looks out for calls that the limit `d` refuses. -/
structure Watch.Beyond (d : Nat) (w : Watch) : Prop where
  silent : ∀ m, m.calls.depth ≤ d → w m = false
  alarm : ∀ m, m.calls.depth = d + 1 → w m = true

/-- What becomes of a computation under the limit `d`.  Either it makes no call that the limit
refuses, and a watch for deeper calls is in vain; or there is such a call, the computation fails
there, and what it has printed until then is printed in any case. -/
inductive Fares (d : Nat) {α : Type} (x : Watch → Exec α) (m : Machine) : Prop where
  | within :
    (∀ w : Watch, (∀ m, m.calls.depth ≤ d → w m = false) → x w m = x (fun _ => false) m) →
    x (fun _ => false) (m.limited d) = (x (fun _ => false) m).limited d →
    (∀ {a m'}, x (fun _ => false) m = .done a m' → m'.calls.depth ≤ d ∧
      m'.calls.maxDepth = m.calls.maxDepth) →
    Fares d x m
  | beyond {e : Error} {n : Machine} :
    d < m.calls.maxDepth →
    (∀ w : Watch, w.Beyond d → ∃ i n, i ≠ arenaFull ∧ x w m = .fault (.internal i) n) →
    Stopped d e → x (fun _ => false) (m.limited d) = .fault e n →
    (x (fun _ => false) m).All (fun _ => True) (fun m' => n.printed <+: m'.printed) →
    Fares d x m

namespace Fares

variable {α β : Type} {d : Nat} {m : Machine} {P : α → Prop} {Q : β → Prop}

theorem bind {x : Watch → Exec α} {f : Watch → α → Exec β} (hm : m.Under d) (hx : Fares d x m)
    (hprints : (x fun _ => false).Prints P)
    (hf : ∀ a m₁, P a → m₁.Under d → Fares d (fun w => f w a) m₁)
    (hmore : ∀ a, P a → (f (fun _ => false) a).Prints Q) : Fares d (fun w => x w >>= f w) m := by
  have hresult := hprints [] m List.nil_prefix
  cases hx with
  | within hwatch hlimited hdone =>
    cases hrun : x (fun _ => false) m with
    | done a m₁ =>
      rw [hrun] at hlimited hresult
      obtain ⟨hdepth, hmax⟩ := hdone hrun
      cases hf a m₁ hresult.1 ⟨hdepth, hmax ▸ hm.limit⟩ with
      | within hwatch' hlimited' hdone' =>
        refine .within (fun w hw => ?_) ?_ fun {b m'} hb => ?_
        · rw [bind_done ((hwatch w hw).trans hrun), bind_done hrun, hwatch' w hw]
        · rw [bind_done hlimited, bind_done hrun, hlimited']
        · rw [bind_done hrun] at hb
          obtain ⟨hdepth', hmax'⟩ := hdone' hb
          exact ⟨hdepth', hmax'.trans hmax⟩
      | beyond hlow halarm hstopped hfault hall =>
        refine .beyond (hmax ▸ hlow) (fun w hw => ?_) hstopped
          ((bind_done hlimited).trans hfault) ?_
        · rw [bind_done ((hwatch w hw.silent).trans hrun)]
          exact halarm w hw
        · rw [bind_done hrun]
          exact hall
    | fault e m₁ =>
      rw [hrun] at hlimited
      refine .within (fun w hw => ?_) ?_ fun {b m'} hb => ?_
      · rw [bind_fault ((hwatch w hw).trans hrun), bind_fault hrun]
      · rw [bind_fault hlimited, bind_fault hrun]
        rfl
      · rw [bind_fault hrun] at hb
        cases hb
    | outOfFuel =>
      rw [hrun] at hlimited
      refine .within (fun w hw => ?_) ?_ fun {b m'} hb => ?_
      · rw [bind_outOfFuel ((hwatch w hw).trans hrun), bind_outOfFuel hrun]
      · rw [bind_outOfFuel hlimited, bind_outOfFuel hrun]
        rfl
      · rw [bind_outOfFuel hrun] at hb
        cases hb
  | @beyond e n hlow halarm hstopped hfault hall =>
    refine .beyond hlow (fun w hw => ?_) hstopped (bind_fault hfault) ?_
    · obtain ⟨i, n, hi, hrun⟩ := halarm w hw
      exact ⟨i, n, hi, bind_fault hrun⟩
    · exact ((hresult.join hall).bind fun a ha => hmore a ha n.printed).imp fun _ _ => trivial

/-- The watch at the start stays silent. -/
theorem watched {x : Watch → Exec α} (hm : m.Under d) (hx : Fares d x m) :
    Fares d (fun w => (x w).watched w) m := by
  cases hx with
  | within hwatch hlimited hdone =>
    refine .within (fun w hw => ?_) hlimited hdone
    rw [watched_run (hw m hm.depth)]
    exact hwatch w hw
  | beyond hlow halarm hstopped hfault hall =>
    refine .beyond hlow (fun w hw => ?_) hstopped hfault hall
    rw [watched_run (hw.silent m hm.depth)]
    exact halarm w hw

theorem inScope {scope : ScopeId} {body : Watch → Exec α}
    (h : Fares d body { m with current := scope }) :
    Fares d (fun w => inScope scope (body w)) m := by
  cases h with
  | within hwatch hlimited hdone =>
    refine .within (fun w hw => ?_) ?_ fun {a m'} ha => ?_
    · unfold Exec.inScope
      rw [hwatch w hw]
    · unfold Exec.inScope
      change body (fun _ => false) { m.limited d with current := scope } = _ at hlimited
      rw [hlimited]
      cases body (fun _ => false) { m with current := scope } <;> rfl
    · unfold Exec.inScope at ha
      cases hrun : body (fun _ => false) { m with current := scope } with
      | done b m₁ =>
        simp only [hrun] at ha
        cases ha
        exact ⟨(hdone hrun).1, (hdone hrun).2⟩
      | fault e m₁ =>
        simp only [hrun] at ha
        cases ha
      | outOfFuel =>
        simp only [hrun] at ha
        cases ha
  | @beyond e n hlow halarm hstopped hfault hall =>
    refine .beyond (n := { n with current := m.current }) hlow (fun w hw => ?_) hstopped ?_ ?_
    · obtain ⟨i, n, hi, hrun⟩ := halarm w hw
      refine ⟨i, { n with current := m.current }, hi, ?_⟩
      unfold Exec.inScope
      simp only [hrun]
    · unfold Exec.inScope
      change body (fun _ => false) { m.limited d with current := scope } = _ at hfault
      simp only [hfault]
      rfl
    · unfold Exec.inScope
      dsimp only
      generalize body (fun _ => false) { m with current := scope } = o at hall
      cases o <;> exact hall

theorem ensuring {body : Watch → Exec α} {cleanup : Exec Unit} (hc : cleanup.Cleanup)
    (h : Fares d body m) :
    Fares d (fun w => ensuring (body w) cleanup) m := by
  cases h with
  | within hwatch hlimited hdone =>
    refine .within (fun w hw => ?_) ?_ fun {a m'} ha => ?_
    · unfold Exec.ensuring
      rw [hwatch w hw]
    · unfold Exec.ensuring
      rw [hlimited]
      cases body (fun _ => false) m with
      | done a m₁ =>
        simp only [Outcome.limited, hc.limited]
        cases cleanup m₁ <;> rfl
      | fault e m₁ =>
        simp only [Outcome.limited, hc.limited]
        cases cleanup m₁ <;> rfl
      | outOfFuel => rfl
    · cases hrun : body (fun _ => false) m with
      | done b m₁ =>
        obtain ⟨hdepth, hmax⟩ := hdone hrun
        rcases hc.ends m₁ with ⟨m₂, hcleanup, hdepth', hmax', _⟩ | ⟨i, m₂, _, hcleanup, _⟩
        · cases (ensuring_done hrun hcleanup).symm.trans ha
          exact ⟨Nat.le_trans hdepth' hdepth, hmax'.trans hmax⟩
        · simp only [Exec.ensuring, hrun, hcleanup] at ha
          cases ha
      | fault e m₁ =>
        rcases hc.ends m₁ with ⟨m₂, hcleanup, _⟩ | ⟨i, m₂, _, hcleanup, _⟩
        · simp only [Exec.ensuring, hrun, hcleanup] at ha
          cases ha
        · simp only [Exec.ensuring, hrun, hcleanup] at ha
          cases ha
      | outOfFuel => cases (ensuring_outOfFuel hrun).symm.trans ha
  | @beyond e n hlow halarm hstopped hfault hall =>
    have halarm' : ∀ w : Watch, w.Beyond d → ∃ i n, i ≠ arenaFull ∧
        Exec.ensuring (body w) cleanup m = .fault (.internal i) n := by
      intro w hw
      obtain ⟨i, n, hi, hrun⟩ := halarm w hw
      rcases hc.ends n with ⟨n', hcleanup, _⟩ | ⟨j, n', hj, hcleanup, _⟩
      · exact ⟨i, n', hi, ensuring_fault hrun hcleanup⟩
      · refine ⟨j, n', hj, ?_⟩
        simp only [Exec.ensuring, hrun, hcleanup]
    have hall' := hall.ensuring (hc.prints n.printed)
    rcases hc.ends n with ⟨n', hcleanup, _, _, hout⟩ | ⟨j, n', hj, hcleanup, hout⟩
    · rw [← hout] at hall'
      exact .beyond hlow halarm' hstopped (ensuring_fault hfault hcleanup) hall'
    · rw [← hout] at hall'
      refine .beyond hlow halarm' (.internal hj) (n := n') ?_ hall'
      simp only [Exec.ensuring, hfault, hcleanup]

/-- A call that both limits allow, or none. -/
theorem pushCall {call : Call} {location : Location} (hm : m.Under d)
    (h : m.calls.depth < d ∨ m.calls.maxDepth = d) :
    Fares d (fun _ => pushCall call location) m := by
  have hboth : m.calls.depth < m.calls.maxDepth ↔ m.calls.depth < d := by
    have := hm.limit
    omega
  refine .within (fun _ _ => rfl) ?_ fun {a m'} ha => ?_
  · unfold Exec.pushCall CallStack.push
    by_cases hlt : m.calls.depth < d
    · have hlow : (m.limited d).calls.depth < (m.limited d).calls.maxDepth := hlt
      rw [if_pos hlow, if_pos (hboth.mpr hlt)]
      rfl
    · have hlow : ¬ (m.limited d).calls.depth < (m.limited d).calls.maxDepth := hlt
      have hmax : m.calls.maxDepth = d := h.resolve_left hlt
      rw [if_neg hlow, if_neg (mt hboth.mp hlt), hmax]
      rfl
  · unfold Exec.pushCall CallStack.push at ha
    by_cases hlt : m.calls.depth < m.calls.maxDepth
    · rw [if_pos hlt] at ha
      cases ha
      refine ⟨?_, rfl⟩
      show (m.calls.calls.push call).size ≤ d
      rw [Array.size_push]
      exact hboth.mp hlt
    · rw [if_neg hlt] at ha
      cases ha

end Fares

structure Gauged {α : Type} (Q : α → Prop) (x : Watch → Exec α) : Prop where
  prints : (x fun _ => false).Prints Q
  fares : ∀ {d m}, m.Under d → Fares d x m

namespace Gauged

variable {α β σ : Type} {P : α → Prop} {Q : β → Prop}

theorem of_aside {x : Exec α} (h : x.Aside) : Gauged (fun _ => True) fun _ => x where
  prints := h.prints
  fares {d m} hm := .within (fun _ _ => rfl) (h.limited m d) fun hx => by
    rw [h.calls hx]
    exact ⟨hm.depth, rfl⟩

theorem of_cleanup {x : Exec Unit} (h : x.Cleanup) : Gauged (fun _ => True) fun _ => x where
  prints := h.prints
  fares {d m} hm := .within (fun _ _ => rfl) (h.limited m d) fun hx => by
    rcases h.ends m with ⟨m', hrun, hdepth, hmax, _⟩ | ⟨i, m', _, hrun, _⟩
    · cases hrun.symm.trans hx
      exact ⟨Nat.le_trans hdepth hm.depth, hmax⟩
    · cases hrun.symm.trans hx

theorem pure {a : α} (h : P a) : Gauged P fun _ => pure a where
  prints _ := .pure h
  fares hm := .within (fun _ _ => rfl) rfl fun hx => by
    cases hx
    exact ⟨hm.depth, rfl⟩

theorem fail (e : Error) : Gauged P fun _ => fail e where
  prints _ := fun _ hm => hm
  fares _ := .within (fun _ _ => rfl) rfl fun hx => by cases hx

theorem outOfFuel : Gauged P fun _ => outOfFuel where
  prints _ := .outOfFuel _
  fares _ := .within (fun _ _ => rfl) rfl fun hx => by cases hx

theorem imp {P' : α → Prop} {x : Watch → Exec α} (hx : Gauged P x) (h : ∀ a, P a → P' a) :
    Gauged P' x where
  prints text := (hx.prints text).imp h
  fares := hx.fares

theorem bind {x : Watch → Exec α} {f : Watch → α → Exec β} (hx : Gauged P x)
    (hf : ∀ a, P a → Gauged Q fun w => f w a) : Gauged Q fun w => x w >>= f w where
  prints text := (hx.prints text).bind fun a ha => (hf a ha).prints text
  fares hm := (hx.fares hm).bind hm hx.prints (fun a _ ha hm₁ => (hf a ha).fares hm₁) fun a ha =>
    (hf a ha).prints

theorem loop {body : Watch → σ → Exec (Turn σ β)} {I : σ → Prop}
    (h : ∀ s, I s → Gauged (Turn.All I Q) fun w => body w s) (n : Nat) {s : σ} (hs : I s) :
    Gauged Q fun w => loop (body w) n s := by
  induction n generalizing s with
  | zero => exact outOfFuel
  | succ n ih =>
    simp only [loop_succ]
    refine (h s hs).bind fun turn hturn => ?_
    cases turn with
    | again s' => exact ih hturn
    | stop b => exact pure hturn

theorem watched {x : Watch → Exec α} (h : Gauged P x) : Gauged P fun w => (x w).watched w where
  prints := h.prints
  fares hm := (h.fares hm).watched hm

theorem inScope {scope : ScopeId} {body : Watch → Exec α} (h : Gauged P body) :
    Gauged P fun w => inScope scope (body w) where
  prints text := by
    intro m hm
    have hb := h.prints text { m with current := scope } hm
    unfold Exec.inScope
    dsimp only
    generalize body (fun _ => false) { m with current := scope } = o at hb
    cases o with
    | done a m₁ => exact hb
    | fault e m₁ => exact hb
    | outOfFuel => trivial
  fares {d m} hm := by
    have hin : { m with current := scope }.Under d := ⟨hm.depth, hm.limit⟩
    exact (h.fares hin).inScope

theorem ensuring {body : Watch → Exec α} {cleanup : Exec Unit} (h : Gauged P body)
    (hc : cleanup.Cleanup) :
    Gauged P fun w => ensuring (body w) cleanup where
  prints text := (h.prints text).ensuring (hc.prints text)
  fares hm := (h.fares hm).ensuring hc

theorem withChild {body : Watch → ScopeId → Exec α} (h : ∀ scope, Gauged P fun w => body w scope)
    (parent : ScopeId) (kind : ScopeKind) : Gauged P fun w => withChild parent kind (body w) :=
  (of_aside (.createScope parent kind)).bind fun scope _ => (h scope).ensuring (.destroyScope scope)

theorem pushCall_prints (call : Call) (location : Location) :
    (pushCall call location).Prints fun _ => True :=
  fun _ => .pushCall (fun _ _ hm => hm) call location

/-- The one place where limits matter.  A call is refused, or it is on the stack when the watch
looks. -/
theorem entering {body : Watch → Exec α} (h : Gauged P body) (call : Call) (location : Location)
    (entry : Nat) :
    Gauged P fun w => (do
      Exec.pushCall call location
      Exec.seek entry
      (body w).watched w) where
  prints text := (pushCall_prints call location text).bind fun _ _ =>
    ((of_cleanup (.seek entry)).bind fun _ _ => h.watched).prints text
  fares {d m} hm := by
    have hrest :=
      (of_cleanup (.seek entry)).bind (f := fun w _ => (body w).watched w) fun _ _ => h.watched
    by_cases hcall : m.calls.depth < d ∨ m.calls.maxDepth = d
    · exact (Fares.pushCall hm hcall).bind hm (pushCall_prints call location)
        (fun _ _ _ hm₁ => hrest.fares hm₁)
        fun _ _ => hrest.prints
    · obtain ⟨hdepth, hlow⟩ : m.calls.depth = d ∧ d < m.calls.maxDepth := by
        have := hm.depth
        have := hm.limit
        omega
      have hpush : Exec.pushCall call location m =
          .done () (m.stacked ⟨m.calls.calls.push call, m.calls.maxDepth⟩) := by
        simp only [Exec.pushCall, CallStack.push, hdepth, if_pos hlow]
        rfl
      have hfull : Exec.pushCall call location (m.limited d) =
          .fault (.runtime ⟨.stackOverflow d, location⟩) (m.limited d) := by
        have hno : ¬ (m.limited d).calls.depth < (m.limited d).calls.maxDepth :=
          Nat.not_lt.mpr (Nat.le_of_eq hdepth.symm)
        unfold Exec.pushCall CallStack.push
        rw [if_neg hno]
        rfl
      refine .beyond hlow (fun w hw => ?_) (.overflow location) (bind_fault hfull) ?_
      · rw [bind_done hpush]
        rcases (Cleanup.seek entry).ends (m.stacked ⟨m.calls.calls.push call, m.calls.maxDepth⟩)
          with
          ⟨m₂, hseek, _⟩ | ⟨i, m₂, hi, hseek, _⟩
        · have hdeep : m₂.calls.depth = d + 1 := by
            rw [(Aside.moveCursor _).calls hseek, ← hdepth]
            exact Array.size_push call
          rw [bind_done hseek, watched_alarm (hw.alarm m₂ hdeep)]
          exact ⟨_, m₂, (fun hi => by cases hi), rfl⟩
        · exact ⟨i, m₂, hi, bind_fault hseek⟩
      · have hprints := (pushCall_prints call location m.printed).bind fun _ _ =>
          hrest.prints m.printed
        exact (hprints m (List.prefix_refl _)).imp fun _ _ => trivial

theorem calling {procedure : Procedure} {body : Watch → Exec Signal} {P : Signal → Prop}
    (h : Gauged P body) (arguments : List Value) (location : Location) :
    Gauged P fun w => calling w procedure arguments location (body w) := by
  have hposition : Gauged (fun _ => True) fun _ => position :=
    of_aside ⟨fun _ _ => rfl, fun _ _ hm => ⟨trivial, hm⟩⟩
  refine hposition.bind fun p _ => entering ?_ _ location _
  refine (of_aside (.createScope procedure.scope .procedure)).bind fun scope _ => ?_
  exact h.inScope.ensuring ((Cleanup.destroyScope scope).bind .leaveCall)

end Gauged

theorem Made.gauged {r : Watch → Rules} (hr : Rules.Each (fun _ => True) r Gauged) {α : Type}
    {Q : α → Prop}
    {x : Watch → Exec α} (h : Made (fun _ => True) (fun _ => True) r Q x) : Gauged Q x := by
  induction h with
  | pure h => exact .pure h
  | fail e => exact .fail e
  | imp _ h ih => exact ih.imp h
  | bind _ _ ihx ihf => exact ihx.bind ihf
  | loop _ hn hs ih =>
    simp only [hn]
    exact .loop ih _ hs
  | onCursor g => exact .of_aside (.onCursor g)
  | moveCursor g => exact .of_aside (.moveCursor g)
  | position => exact .of_aside ⟨fun _ _ => rfl, fun _ _ hm => ⟨trivial, hm⟩⟩
  | currentScope => exact .of_aside ⟨fun _ _ => rfl, fun _ _ hm => ⟨trivial, hm⟩⟩
  | readScopes g => exact .of_aside (.readScopes g)
  | lookup name => exact (Gauged.of_aside (.lookup name)).imp fun _ _ _ v _ _ => v.within_any
  | declare name location _ => exact .of_aside (.declare name _ location)
  | store name location _ => exact .of_aside (.store name _ location)
  | setKind kind _ => exact .of_aside (.changeScopes _)
  | copyBindings _ _ => exact .of_aside (.changeScopes _)
  | writeBack _ _ => exact .of_aside (.changeScopes _)
  | withChild kind _ _ ih => exact .withChild (fun scope => ih scope trivial) _ kind
  | inScope _ _ ih => exact ih.inScope
  | write text => exact .of_aside (.write text)
  | watched _ ih => exact ih.watched
  | calling arguments location _ _ ih => exact ih.calling arguments location
  | statement mode => exact hr.statement mode
  | assignment mode => exact hr.assignment mode
  | conditional mode => exact hr.conditional mode
  | binary least mode => exact hr.binary least mode
  | call name location mode => exact hr.call name location mode

theorem Rules.posted_gauged (fuel : Nat) :
    Rules.Each (fun _ => True) (fun w => posted w fuel) Gauged :=
  posted_each (fun _ _ => trivial) (fun _ => .outOfFuel) (fun hr _ _ _ h => h.gauged hr) fuel

/-! ## Whole runs -/

namespace Script

variable {fuel d maxDepth : Nat} {source : String} {out : Sink}

/-- A run with a watch at its start, at the start of every rule and at the entry of every body. -/
def watched (watch : Watch) (fuel : Nat) : Exec Unit :=
  (Rules.posted watch fuel).script.watched watch

theorem watched_quiet (fuel : Nat) : watched (fun _ => false) fuel = Interpreter.run fuel := by
  rw [watched, Rules.posted_quiet]
  rfl

theorem watched_gauged (fuel : Nat) : Gauged (fun _ => True) fun w => watched w fuel :=
  ((Made.script fun w => Rules.posted_fuel w fuel).gauged (Rules.posted_gauged fuel)).watched

/-- At some moment of the run there are `k` calls on the stack: it makes a difference to watch out
for that. -/
def Holds (fuel : Nat) (source : String) (maxDepth : Nat) (out : Sink) (k : Nat) : Prop :=
  watched (fun m => m.calls.depth == k) fuel (Machine.start source maxDepth out) ≠
    Interpreter.run fuel (Machine.start source maxDepth out)

theorem run_internal {i : InternalError} {m : Machine}
    (h : Interpreter.run fuel (Machine.start source maxDepth out) = .fault (.internal i) m) :
    i = arenaFull := by
  have hsafe :=
    (Rules.within_faithful (Nat.le_refl fuel)).script_safe (Machine.start_sound source maxDepth out)
  exact ((hsafe.fault h).2.2.2 rfl).1

theorem holds_zero (fuel : Nat) (source : String) (maxDepth : Nat) (out : Sink) :
    Holds fuel source maxDepth out 0 := by
  intro hsame
  rw [watched, watched_alarm rfl] at hsame
  cases run_internal hsame.symm

/-- The way out takes from a state its scopes and whether its sink can be flushed. -/
theorem finish_congr {m m' : Machine} (result : Except Error Unit) (hscopes : m'.scopes = m.scopes)
    (hflush : m'.out.flush = m.out.flush) :
    finish result m' = ⟨(finish result m).result, m'.out⟩ := by
  unfold finish Interpreter.teardown
  rw [hscopes]
  cases result with
  | error e => rfl
  | ok u =>
    cases m.scopes.teardown with
    | error e => rfl
    | ok t =>
      simp only [bind, Except.bind, pure, Except.pure, hflush]
      cases m.out.flush <;> rfl

theorem finish_out (result : Except Error Unit) (m : Machine) : (finish result m).out = m.out :=
  congrArg Report.out (finish_congr result rfl rfl)

/-- Nothing that happens on the way out depends on the limit. -/
theorem finish_limited (result : Except Error Unit) (m : Machine) (d : Nat) :
    finish result (m.limited d) = finish result m :=
  calc finish result (m.limited d)
    _ = ⟨(finish result m).result, m.out⟩ := finish_congr result rfl rfl
    _ = finish result m := (finish_congr result rfl rfl).symm

def reported : Outcome Unit → Option Report
  | .done () m => some (finish (.ok ()) m)
  | .fault e m => some (finish (.error e) m)
  | .outOfFuel => none

theorem run_eq (fuel : Nat) (source : String) (maxDepth : Nat) (out : Sink) :
    run fuel source maxDepth out =
      reported (Interpreter.run fuel (Machine.start source maxDepth out)) := rfl

theorem reported_out {o : Outcome Unit} {report : Report} {I : Machine → Prop}
    (h : reported o = some report)
    (ho : o.All (fun _ => True) I) : ∃ m, I m ∧ report.out = m.out := by
  cases o with
  | done u m =>
    cases h
    exact ⟨m, ho.2, finish_out _ m⟩
  | fault e m =>
    cases h
    exact ⟨m, ho, finish_out _ m⟩
  | outOfFuel => cases h

/-- Under a lower limit a run ends as before, or it stops at the first call that is one too many. -/
theorem run_cases (h : d ≤ maxDepth) :
    ((∀ k, Holds fuel source maxDepth out k → k ≤ d) ∧
      run fuel source d out = run fuel source maxDepth out) ∨
    (d < maxDepth ∧ Holds fuel source maxDepth out (d + 1) ∧ ∃ location cut,
      run fuel source d out = some ⟨.error (.runtime ⟨.stackOverflow d, location⟩), cut⟩ ∧
      ∀ report, run fuel source maxDepth out = some report →
      cut.bytes.data.toList <+: report.out.bytes.data.toList) := by
  have hstart : (Machine.start source maxDepth out).Under d := ⟨Nat.zero_le d, h⟩
  have hlimited : (Machine.start source maxDepth out).limited d = Machine.start source d out := rfl
  cases (watched_gauged fuel).fares hstart with
  | within hwatch hsame _ =>
    rw [hlimited, watched_quiet] at hsame
    refine .inl ⟨fun k hk => ?_, ?_⟩
    · by_contra hlt
      refine hk ((hwatch _ fun m hm => ?_).trans (by rw [watched_quiet]))
      exact beq_false_of_ne (by omega)
    · rw [run_eq, run_eq, hsame]
      cases Interpreter.run fuel (Machine.start source maxDepth out) with
      | done u m => exact congrArg some (finish_limited _ m d)
      | fault e m => exact congrArg some (finish_limited _ m d)
      | outOfFuel => rfl
  | @beyond e n hlow halarm hstopped hfault hall =>
    rw [hlimited, watched_quiet] at hfault
    rw [watched_quiet] at hall
    have hbeyond : Watch.Beyond d fun m => m.calls.depth == d + 1 :=
      ⟨fun m hm => beq_false_of_ne (by omega), fun m hm => beq_iff_eq.mpr hm⟩
    refine .inr ⟨hlow, fun hsame => ?_, ?_⟩
    · obtain ⟨i, n', hi, hrun⟩ := halarm _ hbeyond
      exact hi (run_internal (hsame.symm.trans hrun))
    · cases hstopped with
      | internal hi => exact absurd (run_internal hfault) hi
      | overflow location =>
        refine ⟨location, n.out, ?_, fun report hreport => ?_⟩
        · rw [run, hfault]
          rfl
        · obtain ⟨m, hprefix, hout⟩ := reported_out hreport hall
          rw [hout]
          exact hprefix

theorem holds_le {k : Nat} (h : Holds fuel source maxDepth out k) : k ≤ maxDepth := by
  rcases run_cases (Nat.le_refl maxDepth) with ⟨hall, _⟩ | ⟨hlt, _⟩
  · exact hall k h
  · exact absurd hlt (Nat.lt_irrefl _)

theorem exists_most (fuel : Nat) (source : String) (maxDepth : Nat) (out : Sink) :
    ∃ most, IsGreatest {k | Holds fuel source maxDepth out k} most := by
  have hbound : BddAbove {k | Holds fuel source maxDepth out k} :=
    ⟨maxDepth, fun _ hk => holds_le hk⟩
  exact ⟨_, Nat.sSup_mem ⟨0, holds_zero fuel source maxDepth out⟩ hbound,
    fun k hk => le_csSup hbound hk⟩

/-- There are never more calls on the stack than the limit allows.  If a run ends without being
stopped by it, then under any limit that allows what this run has on its stack at most, it ends in
the same way and prints the same; and any lower limit stops it, when it has printed some of that. -/
theorem call_depth_threshold (fuel : Nat) (source : String) (maxDepth : Nat) (out : Sink) :
    (∀ k, Holds fuel source maxDepth out k → k ≤ maxDepth) ∧
    ∀ report, run fuel source maxDepth out = some report →
      (∀ depth location, report.result ≠ .error (.runtime ⟨.stackOverflow depth, location⟩)) →
      ∃ most, IsGreatest {k | Holds fuel source maxDepth out k} most ∧
        (∀ d, most ≤ d → run fuel source d out = some report) ∧
        ∀ d, d < most → ∃ location cut,
          run fuel source d out = some ⟨.error (.runtime ⟨.stackOverflow d, location⟩), cut⟩ ∧
          cut.bytes.data.toList <+: report.out.bytes.data.toList := by
  refine ⟨fun k hk => holds_le hk, fun report hrun hno => ?_⟩
  obtain ⟨most, hmost, hgreatest⟩ := exists_most fuel source maxDepth out
  have hle := holds_le hmost
  refine ⟨most, ⟨hmost, hgreatest⟩, fun d hd => ?_, fun d hd => ?_⟩
  · by_cases hlow : d ≤ maxDepth
    · rcases run_cases hlow with ⟨_, hsame⟩ | ⟨_, hholds, _⟩
      · rw [hsame, hrun]
      · have hdeep : d + 1 ≤ most := hgreatest hholds
        omega
    · rcases run_cases (Nat.le_of_not_le hlow) with ⟨_, hsame⟩ | ⟨_, _, location, cut, hstopped, _⟩
      · rw [← hsame, hrun]
      · cases hrun.symm.trans hstopped
        exact absurd rfl (hno maxDepth location)
  · rcases run_cases (Nat.le_trans (Nat.le_of_lt hd) hle) with
      ⟨hall, _⟩ | ⟨_, _, location, cut, hstopped, hprefix⟩
    · exact absurd (hall most hmost) (Nat.not_le.mpr hd)
    · exact ⟨location, cut, hstopped, hprefix report hrun⟩

/-- A procedure that is called by another one, which is called itself: that makes two calls, and no
more. -/
theorem call_depth_threshold_nested :
    ∃ report, run 20 "procedure g() { eval 1; } procedure f() { g(); } f();" 2 .unlimited =
      some report ∧
      report.result = .ok () ∧
      IsGreatest
        {k | Holds 20 "procedure g() { eval 1; } procedure f() { g(); } f();" 2 .unlimited k} 2 ∧
      (∀ d, 2 ≤ d →
        run 20 "procedure g() { eval 1; } procedure f() { g(); } f();" d .unlimited = some report) ∧
      ∀ d, d < 2 → ∃ location cut,
        run 20 "procedure g() { eval 1; } procedure f() { g(); } f();" d .unlimited =
          some ⟨.error (.runtime ⟨.stackOverflow d, location⟩), cut⟩ ∧
        cut.bytes.data.toList <+: report.out.bytes.data.toList := by
  have htwo : (run 20 "procedure g() { eval 1; } procedure f() { g(); } f();" 2 .unlimited).map
      Report.result = some (.ok ()) := by decide +kernel
  have hone : (run 20 "procedure g() { eval 1; } procedure f() { g(); } f();" 1 .unlimited).map
      Report.result = some (.error (.runtime ⟨.stackOverflow 1, ⟨1, 43⟩⟩)) := by decide +kernel
  obtain ⟨report, hrun, hok⟩ := Option.map_eq_some_iff.mp htwo
  obtain ⟨hbound, hthreshold⟩ :=
    call_depth_threshold 20 "procedure g() { eval 1; } procedure f() { g(); } f();" 2 .unlimited
  obtain ⟨most, hmost, hsame, hstopped⟩ := hthreshold report hrun fun depth location h => by
    cases hok.symm.trans h
  have hge : ¬ most ≤ 1 := fun hlow => by
    rw [hsame 1 hlow, Option.map_some, hok] at hone
    cases hone
  obtain rfl : most = 2 := by
    have hle : most ≤ 2 := hbound most hmost.1
    omega
  exact ⟨report, hrun, hok, hmost, hsame, hstopped⟩

end Script
end Replay
