import Replay.Proofs.Follow.Precedence
import Replay.Proofs.Follow.Statement
/-!
Calls do what the definition in the tree says.

The interpreter goes to the text of the procedure, reads the names of its parameters there, runs the
body and goes back to where it came from.  It keeps the arguments and the way back on a stack, of
which the walk has only the depth.
-/

namespace Replay

open Exec

/-- Leaving a call changes the stack and where the cursor is. -/
theorem Rules.leaveCall_frame {m m' : Machine} (h : Rules.leaveCall m = .done () m') :
    ∃ calls p, m' = ({ m with calls } : Machine).on (m.cursor.place p) ∧
      calls.depth = m.calls.depth - 1 ∧
      calls.maxDepth = m.calls.maxDepth := by
  obtain ⟨call, m₁, hpop, hseek⟩ := of_bind_done h
  simp only [popCall, CallStack.pop] at hpop
  cases hback : m.calls.calls.back? with
  | none =>
    simp only [hback] at hpop
    cases hpop
  | some last =>
    simp only [hback] at hpop
    cases hpop
    by_cases hle : call.resume ≤ m.cursor.cache.size
    · have hrun :=
        seek_run (m := { m with calls := { m.calls with calls := m.calls.calls.pop } }) hle
      cases hrun.symm.trans hseek
      exact ⟨_, _, rfl, Array.size_pop, rfl⟩
    · simp only [seek, moveCursor, Cursor.seek, if_neg hle] at hseek
      cases hseek

/-- However the body of a procedure that can be called ends, the call can be left. -/
theorem Rules.body_leaves {m : Machine} (hm : m.Sound) {scope id : ScopeId} {p : Scope}
    {t : ScopeTree} {entry k : Nat} {call : Call} (hp : m.scopes.find? scope = some p)
    (hc : m.scopes.Created scope p .procedure id t)
    (hentry : Callable m.cursor.cache entry) (hgood : ∀ v ∈ call.arguments, v.Good m.cursor.cache)
    (hresume : call.resume = m.cursor.position) (location : Location) {x : Exec Signal}
    (hx : x = inScope id ((Rules.within k).bindParameters location >>= fun _ =>
      (Rules.within k).bracedStatements .execute)) :
    (∀ {signal m₂}, x { m.entered call entry with scopes := t } = .done signal m₂ →
        ∃ m', (destroyScope id >>= fun _ => leaveCall) m₂ = .done () m' ∧ Returned m signal m') ∧
      ∀ {e m₂}, x { m.entered call entry with scopes := t } = .fault e m₂ →
        ∃ m', (destroyScope id >>= fun _ => leaveCall) m₂ = .done () m' := by
  subst hx
  obtain ⟨hle, fuel, stop, hscan⟩ := hentry
  have hsound := Machine.entered_sound hm (hresume ▸ hm.inside) hgood hle
  have hbody := (Rules.within_faithful (Nat.le_max_left k fuel)).inBody hsound hp hc rfl location
  have hskip :=
    procedureText_mono (Nat.le_max_right k fuel) hsound.inside (hscan m.cursor (List.prefix_refl _))
  refine ⟨fun hrun => (hbody.done hrun).returned hskip hsound hp hc hresume, fun hrun => ?_⟩
  obtain ⟨m', hleave, _⟩ := (hbody.fault hrun).aborted hskip hsound hp hc hresume
  exact ⟨m', hleave⟩

namespace View

variable {V : View} {i j l n : Nat} {m : Machine} {w : World}

/-! ## Parameters -/

theorem Sim.declareAll (hV : V.Blind) (pairs : List (Parameter Place × Value))
    (hagree : V.Agree i m w) (hheld : ∀ pair ∈ pairs, V.Held m.cursor pair.2) :
    V.Sim n (fun _ => Rules.declareAll (pairs.map fun pair => (pair.1.sign, pair.2)))
      (pairs.forM fun (x, value) => Walk.declare x.name (some value) x.place.location)
        (V.Same i) m w := by
  induction pairs generalizing m w with
  | nil => exact .pure ⟨rfl, hagree⟩
  | cons pair pairs ih =>
    obtain ⟨x, value⟩ := pair
    refine (Sim.declare hV hagree fun v hv => ?_).bind fun {_ _ m₁ w₁} _ hdeclared => ?_
    · cases hv
      exact hheld _ List.mem_cons_self
    · exact ih hdeclared.1 fun pair hpair => hdeclared.2 ▸ hheld pair (List.mem_cons_of_mem _ hpair)

/-- The arguments of the innermost call become the values of the parameters. -/
theorem Sim.bindParameters (hV : V.Blind) {xs : List (Parameter Place)} {rest : Array Call}
    {call : Call} {location : Location}
    (hnames : V.Finds n (fun k => (Rules.within k).parameterList) (xs.map Parameter.sign) i l)
    (hagree : V.Agree i m w) (hcalls : m.calls.calls = rest.push call)
    (hheld : ∀ a ∈ call.arguments, V.Held m.cursor a) :
    V.Sim n (fun k => (Rules.within k).bindParameters location)
      (Walk.bindArguments xs call.arguments location)
      (V.Same l) m w := by
  have hscan := (hnames hagree).and (P := fun _ m' => m'.calls = m.calls) fun {k a m'} hdone => by
    obtain ⟨d, rfl, _⟩ :=
      (Rules.within_inStep (.frame m (.bare m.cursor)) (Nat.le_refl k)).parameterList.skim_done
        hagree.sound.inside hdone
    rfl
  refine Sim.scan_bind hscan fun {names m₁} hgrown hread => ?_
  obtain ⟨⟨rfl, hagree⟩, hsame⟩ := hread
  have htop : topCall m₁ = .done call m₁ := by
    simp only [topCall, CallStack.top, hsame, hcalls, Array.back?_push]
  refine Sim.lead htop (.refl _) ?_
  simp only [List.length_map, Walk.bindArguments]
  by_cases hmany : xs.length < call.arguments.length
  · simp only [hmany, if_true]
    exact .raise hagree.fails _ _
  · by_cases hfew : call.arguments.length < xs.length
    · simp only [hmany, hfew, if_true, if_false]
      exact .raise hagree.fails _ _
    · simp only [hmany, hfew, if_false]
      rw [List.zip_map_left]
      exact Sim.declareAll hV _ hagree fun pair hpair =>
        (hheld _ (List.of_mem_zip hpair).2).mono hgrown

/-! ## Calls -/

/-- Leaving a call on both sides. -/
theorem Cleans.leave (hV : V.Blind) {id : ScopeId} {m' : Machine} {Q : Machine → World → Prop}
    (h : V.Fails m w) (hrun : (Exec.destroyScope id >>= fun _ => Rules.leaveCall) m = .done () m')
    (hQ : ∀ {t u calls p}, m.scopes.destroy id = .ok t → V.alike t u →
      calls.depth = m.calls.depth - 1 →
      calls.maxDepth = m.calls.maxDepth → m' = ({ m with scopes := t, calls } : Machine).on
      (m.cursor.place p) →
      Q m' { w with scopes := u, depth := w.depth - 1 }) :
    V.Cleans (Exec.destroyScope id >>= fun _ => Rules.leaveCall)
      (Walk.destroyScope id >>= fun _ => Walk.leave) Q m w := by
  rcases h.destroy hV id with ⟨t, u, hm, hw, halike⟩ | ⟨e, hm, _⟩
  · rw [bind_done (destroyScope_done hm)] at hrun
    obtain ⟨calls, p, hm', hdepth, hmax⟩ := Rules.leaveCall_frame hrun
    have hy : Walk.destroyScope id w = some (.ok (), { w with scopes := u }) := by
      simp only [Walk.destroyScope, Walk.changeScopes, hw]
    refine .inl ⟨m', _, (bind_done (destroyScope_done hm)).trans hrun, Walk.bind_ok hy, ?_,
      hQ hm halike hdepth hmax hm'⟩
    rw [hm']
    exact .same _ p
  · have hfault : Exec.destroyScope id m = .fault (.internal e) m := by
      simp only [Exec.destroyScope, Exec.changeScopes, hm]
    cases (bind_fault hfault).symm.trans hrun

section Call

variable {d : Definition} {run : List (Stmt Place) → Walk Signal} {scope : ScopeId}
  {arguments : List Value}
  {location : Location}

/-- The state in which the body starts, which agrees with a walk that has one call more. -/
theorem Agree.entered (hagree : V.Agree i m w) (hentry : d.entry ≤ m.cursor.cache.size)
    (hheld : ∀ a ∈ arguments, V.Held m.cursor a) :
    V.Agree d.entry (m.entered ⟨i, arguments⟩ d.entry) { w with depth := w.depth + 1 } := by
  have hi : i ≤ m.cursor.cache.size := hagree.position ▸ hagree.sound.inside
  refine ⟨⟨hagree.grown.place_left _, hagree.scopes, hagree.current, ?_, hagree.maxDepth,
    hagree.out, hagree.known⟩,
    Machine.entered_sound hagree.sound hi (fun v hv => (hheld v hv).1) hentry, rfl⟩
  show (m.calls.calls.push _).size = w.depth + 1
  rw [Array.size_push, ← hagree.depth]
  rfl

/-- The body of a procedure, from the opening parenthesis of its parameters on. -/
theorem Sim.callBody (hV : V.Blind)
    (hnames : V.Finds n (fun k => (Rules.within k).parameterList)
      (d.parameters.map Parameter.sign) d.entry l)
    (hbody : V.Runs n braces (run d.body) l j) (hagree : V.Agree i m w)
    (hscope : m.scopes.contains scope = true)
    (hentry : Callable m.cursor.cache d.entry) (hheld : ∀ a ∈ arguments, V.Held m.cursor a) :
    V.Sim n (fun k => (Rules.within k).callBody ⟨d.entry, scope⟩ location)
      (d.runBody run scope arguments location)
      (fun a b m' w' => a = b ∧ V.Agree i m' w' ∧ ∀ v ∈ Reading.signal.values a, V.Held m'.cursor v)
      (m.entered ⟨i, arguments⟩ d.entry) { w with depth := w.depth + 1 } := by
  have hinside := hagree.entered hentry.1 hheld
  refine Sim.createScope_bind hV hinside hscope fun {p id t u} hp hc hcreated => ?_
  have hgood : ∀ v ∈ (Call.mk i arguments).arguments, v.Good m.cursor.cache :=
    fun v hv => (hheld v hv).1
  have hleaves (k : Nat) :=
    Rules.body_leaves (k := k) hagree.sound hp hc hentry hgood hagree.position.symm location rfl
  have hinner :
      V.Sim n (fun k => Exec.inScope id ((Rules.within k).bindParameters location >>= fun _ =>
        (Rules.within k).bracedStatements .execute))
      (Walk.inScope id (Walk.bindArguments d.parameters arguments location >>= fun _ => run d.body))
      (V.Ending (V.Signalled j)) { m.entered ⟨i, arguments⟩ d.entry with scopes := t }
      { w with depth := w.depth + 1, scopes := u } := by
    refine Sim.inScope hcreated.current ?_
    have hcurrent :
      V.Agree d.entry { m.entered ⟨i, arguments⟩ d.entry with scopes := t, current := id }
        { w with depth := w.depth + 1, scopes := u, current := id } :=
      ⟨{ hcreated.toLike with current := rfl },
        { hcreated.sound with current := ScopeTree.contains_of_find? hc.find?_self },
        hcreated.position⟩
    refine (Sim.bindParameters hV hnames hcurrent rfl hheld).bind fun _ hbound => ?_
    exact (hbody .execute hbound.agree).mono fun _ hended => ⟨hended.agree.toLike, hended.result⟩
  refine Sim.ensuring (hinner.and fun {k a m'} hdone => (hleaves k).1 hdone)
    (fun {a b m₂ w₂} hdone => ?_)
    fun {k e m₂ w₂} hrun hfails => ?_
  · obtain ⟨⟨hlike, hsignalled⟩, m', hleave, hreturned⟩ := hdone
    refine .leave hV hlike.fails hleave fun hdestroy halike hdepth hmax hm' => ?_
    subst hm'
    refine ⟨hsignalled.same, ⟨?_, hreturned.sound, hreturned.cursor ▸ hagree.position⟩,
      fun v hv => (hsignalled.held v hv).mono (.same _ _)⟩
    exact ⟨hreturned.cursor ▸ hagree.grown, halike, hlike.current,
      hdepth.trans (congrArg (· - 1) hlike.depth), hmax.trans hlike.maxDepth, hlike.out,
      hlike.known.destroy hdestroy⟩
  · obtain ⟨m', hleave⟩ := (hleaves k).2 hrun
    refine .leave hV hfails hleave fun _ halike _ _ hm' => ?_
    rw [hm']
    exact ⟨halike, hfails.out⟩

theorem Sim.callValue {signal : Signal} (hagree : V.Agree i m w)
    (hheld : ∀ v ∈ Reading.signal.values signal, V.Held m.cursor v) :
    V.Sim n (fun _ => Rules.callValue signal) (Walk.callValue signal)
      (V.Valued .execute i) m w := by
  cases signal with
  | normal => exact .pure (.of_held hagree .noValue)
  | broke location => exact .raise hagree.fails _ _
  | continued location => exact .raise hagree.fails _ _
  | returned value location =>
    cases value with
    | none => exact .pure (.of_held hagree .noValue)
    | some value => exact .pure (.of_held hagree (hheld value (List.mem_singleton.mpr rfl)))

theorem Sim.call (hV : V.Blind)
    (hnames : V.Finds n (fun k => (Rules.within k).parameterList)
      (d.parameters.map Parameter.sign) d.entry l)
    (hbody : V.Runs n braces (run d.body) l j) (hagree : V.Agree i m w)
    (hscope : m.scopes.contains scope = true) (hentry : Callable m.cursor.cache d.entry)
    (hheld : ∀ a ∈ arguments, V.Held m.cursor a) (location : Location) :
    V.Sim n (fun k => do
        pushCall ⟨← position, arguments⟩ location
        seek d.entry
        Rules.callValue (← (Rules.within k).callBody ⟨d.entry, scope⟩ location))
      (d.call run scope arguments location) (V.Valued .execute i) m w := by
  refine Sim.position_bind hagree ?_
  by_cases hdepth : m.calls.depth < m.calls.maxDepth
  · have hx : pushCall ⟨i, arguments⟩ location m =
        .done () (m.calling (m.calls.calls.push ⟨i, arguments⟩)) := by
      simp only [pushCall, CallStack.push, if_pos hdepth]
      rfl
    have hy : Walk.enter location w = some (.ok (), { w with depth := w.depth + 1 }) := by
      rw [hagree.depth, hagree.maxDepth] at hdepth
      exact if_pos hdepth
    refine Sim.done_bind hx hy (.refl _) ?_
    refine Sim.lead (seek_run hentry.1) (.same _ _) ?_
    refine (Sim.callBody hV hnames hbody hagree hscope hentry hheld).bind
      fun {a b m₁ w₁} _ hdone => ?_
    obtain ⟨rfl, hagree, hheld⟩ := hdone
    exact Sim.callValue hagree hheld
  · have hx : pushCall ⟨i, arguments⟩ location m =
        .fault (.runtime ⟨.stackOverflow m.calls.maxDepth, location⟩) m := by
      simp only [pushCall, CallStack.push, if_neg hdepth]
    have hy : Walk.enter location w =
        some (.error (.runtime ⟨.stackOverflow m.calls.maxDepth, location⟩), w) := by
      rw [hagree.depth, hagree.maxDepth] at hdepth
      rw [hagree.maxDepth]
      exact if_neg hdepth
    exact Sim.fault_bind hx hy hagree.fails

end Call

/-- A definition is on the tape, and its body does what `run` does. -/
def Laid (V : View) (n : Nat) (run : List (Stmt Place) → Walk Signal) (d : Definition) : Prop :=
  ∃ l j, V.Finds n (fun k => (Rules.within k).parameterList)
    (d.parameters.map Parameter.sign) d.entry l ∧
    V.Runs n braces (run d.body) l j

theorem Invokes.zero (definitions : List Definition) : V.Invokes 0 (invocation definitions 0) :=
  fun _ _ _ _ _ _ _ => .of_none rfl fun k hk => absurd hk (Nat.not_lt_zero k)

theorem Invokes.of_laid (hV : V.Blind) {definitions : List Definition} {fuel : Nat}
    (hknown : ∀ {procedure}, V.known (.procedure procedure) →
      ∃ d, definitions.find? (fun d => d.entry == procedure.entry) = some d ∧
        V.Laid n (Stmt.runAll (invocation definitions fuel) fuel) d) :
    V.Invokes n (invocation definitions (fuel + 1)) := by
  intro i m w name procedure arguments location hagree hheld hargs
  obtain ⟨d, hfind, l, j, hnames, hbody⟩ := hknown hheld.2
  have hentry : d.entry = procedure.entry := by
    have hbeq := List.find?_some hfind
    exact eq_of_beq hbeq
  simp only [Rules.invoke]
  have hplain : m.scopes.contains procedure.scope = w.scopes.contains procedure.scope := by
    rw [← ScopeTree.contains_plain, hV.mp hagree.scopes, ScopeTree.contains_plain]
  cases halive : w.scopes.contains procedure.scope with
  | true =>
    have hread : readScopes (fun t => .ok (t.contains procedure.scope)) m = .done true m :=
      congrArg (fun alive => Outcome.done alive m) (hplain.trans halive)
    have hy : invocation definitions (fuel + 1) name procedure arguments location w =
        d.call (Stmt.runAll (invocation definitions fuel) fuel) procedure.scope arguments
          location w := by
      simp only [invocation, halive, if_true, hfind]
    have hcall :=
      Sim.call hV hnames hbody hagree (hplain.trans halive) (hentry ▸ hheld.1) hargs location
    rw [hentry] at hcall
    exact Sim.lead hread (.refl _) (hcall.of_walk hy)
  | false =>
    have hread : readScopes (fun t => .ok (t.contains procedure.scope)) m = .done false m :=
      congrArg (fun alive => Outcome.done alive m) (hplain.trans halive)
    have hy : invocation definitions (fuel + 1) name procedure arguments location w =
        Walk.raise (.procedureOutOfScope name) location w := by
      simp only [invocation, halive, Bool.false_eq_true, if_false]
    exact Sim.lead hread (.refl _) (.of_fault rfl hy hagree.fails)

end View
end Replay
