import Replay.Proofs.Contract.Loop
/-!
Contracts of procedure calls.

The text of a call ends with its arguments.  What comes after, from the body's first token to the
return, has no counterpart: it goes through text that was skipped when the procedure was defined,
and so it reads nothing new and finds nothing wrong with it.
-/

namespace Replay

open Exec
open ScopeTree (arenaFull maxSlots)

namespace Machine

variable {m : Machine}

def calling (m : Machine) (calls : Array Call) :
    Machine := { m with calls := { m.calls with calls } }

theorem calling_sound {calls : Array Call} (hm : m.Sound)
    (h : ∀ c ∈ calls.toList, c.resume ≤ m.cursor.cache.size ∧
      ∀ v ∈ c.arguments, v.Good m.cursor.cache) :
    (m.calling calls).Sound :=
  ⟨hm.inside, hm.stocked, hm.connected, hm.current, hm.bindings, h⟩

/-- Leaving a call takes it off the stack and goes to where it was made. -/
theorem leaveCall_run (hm : m.Sound) {rest : Array Call} {call : Call}
    (h : m.calls.calls = rest.push call) :
    ((m.calling rest).on (m.cursor.place call.resume)).Sound ∧
      Rules.leaveCall m = .done () ((m.calling rest).on (m.cursor.place call.resume)) := by
  have hlist : m.calls.calls.toList = rest.toList ++ [call] := by rw [h, Array.toList_push]
  have hresume := (hm.calls call (hlist ▸ List.mem_append_right _ (List.mem_singleton.mpr rfl))).1
  have hrest : (m.calling rest).Sound :=
    calling_sound hm fun c hc => hm.calls c (hlist ▸ List.mem_append_left _ hc)
  refine ⟨hrest.placed hresume, ?_⟩
  have hpop : popCall m = .done call (m.calling rest) := by
    simp only [popCall, CallStack.pop, h, Array.back?_push, Array.pop_push]
    rfl
  exact (bind_done hpop).trans (seek_run hresume)

end Machine

namespace Rules

variable {r : Rules} {k : Nat} {m : Machine}

/-! ## The body -/

theorem declareAll_honours {b : Unit} (hm : m.Sound) (pairs : List ((String × Location) × Value))
    (hgood : ∀ pair ∈ pairs, pair.2.Good m.cursor.cache) :
    Honours .any none (pure b) m.cursor (declareAll pairs) m := by
  induction pairs generalizing m with
  | nil => exact .pure hm trivial Faithful.good_nil trivial
  | cons pair rest ih =>
    obtain ⟨⟨name, location⟩, value⟩ := pair
    have hvalue := hgood _ List.mem_cons_self
    refine (Honours.declare hm name location fun v hv => ?_).idle_bind (fun _ => trivial) fun hd
      hcursor => ?_
    · cases hv
      exact hvalue
    · exact ih hd.sound fun pair hpair => hcursor ▸ hgood pair (List.mem_cons_of_mem _ hpair)

theorem Faithful.procedureBody (h : r.Faithful k) (hm : m.Sound) {rest : Array Call} {call : Call}
    (hcalls : m.calls.calls = rest.push call) (location : Location) :
    Honours .signal none (Rules.within k).procedureText m.cursor
      (r.bindParameters location >>= fun _ => r.bracedStatements .execute) m := by
  rw [Rules.bindParameters, bind_assoc]
  refine .scan_bind (h.inStep hm).parameterList hm fun {parameters d} _ hd _ hg => ?_
  have htop : topCall (m.on d) = .done call (m.on d) := by
    simp only [topCall, CallStack.top, Machine.on_calls, hcalls, Array.back?_push]
  have hmem : call ∈ m.calls.calls.toList := by
    rw [hcalls, Array.toList_push]
    exact List.mem_append_right _ (List.mem_singleton.mpr rfl)
  refine Honours.idle_bind (m := m.on d) (?_ : Honours .any none _ _ _ _) (fun _ => trivial)
    fun hd' _ => h.bracedStatements hd'.sound
  refine Honours.after (.refl _ _) rfl (bind_done htop) rfl (.refl _) ?_
  split
  · exact .raise hd _ _
  · split
    · exact .raise hd _ _
    · refine declareAll_honours hd _ fun pair hpair => ?_
      exact ((hm.calls call hmem).2 _ (List.of_mem_zip hpair).2).mono hg.cache_le

end Rules

/-! ## Leaving the body -/

namespace Machine

variable {m m₂ : Machine} {t : ScopeTree} {parent id : ScopeId} {p : Scope} {call last : Call}
  {rest : Array Call}
  {entry : Nat}

def entered (m : Machine) (call : Call) (entry : Nat) : Machine :=
  (m.calling (m.calls.calls.push call)).on (m.cursor.place entry)

theorem entered_sound (hm : m.Sound) (hcall : call.resume ≤ m.cursor.cache.size)
    (hgood : ∀ v ∈ call.arguments, v.Good m.cursor.cache) (hentry : entry ≤ m.cursor.cache.size) :
    (m.entered call entry).Sound := by
  refine (calling_sound hm fun c hc => ?_).placed hentry
  rw [Array.toList_push] at hc
  rcases List.mem_append.mp hc with hc | hc
  · exact hm.calls c hc
  · cases List.mem_singleton.mp hc
    exact ⟨hcall, hgood⟩

theorem entered_kept : m.Kept none (m.entered call entry) := by
  refine ⟨rfl, fun _ => rfl, fun _ _ => rfl, rfl, Nat.le_refl _, ?_, rfl, List.prefix_refl _⟩
  show m.calls.calls.toList <+: (m.calls.calls.push call).toList
  rw [Array.toList_push]
  exact List.prefix_append _ _

/-- The cleanup behind a body undoes what was done for it, up to calls that the body left behind. -/
theorem leave_run (hentered : (m.entered call entry).Sound)
    (hp : m.scopes.find? parent = some p) (hc : m.scopes.Created parent p .procedure id t)
    (hm₂ : m₂.Sound) (hk : Kept (some id) { m.entered call entry with scopes := t } m₂)
    (hlast : m₂.calls.calls = rest.push last)
    (hrest : m.calls.calls.toList <+: rest.toList) :
    ∃ m', (destroyScope id >>= fun _ => Rules.leaveCall) m₂ = .done () m' ∧ m'.Sound ∧
    m.Kept none m' ∧
      m'.calls.calls = rest ∧ m'.cursor = m₂.cursor.place last.resume ∧
      m'.scopes.slots.size = m₂.scopes.slots.size := by
  obtain ⟨t', hdestroy, hslots, hsound, hk'⟩ :=
    destroy_created (m := m.entered call entry) hentered hp hc hm₂ hk
  obtain ⟨hsound', hleave⟩ :=
    leaveCall_run hsound (show { m₂ with scopes := t' }.calls.calls = _ from hlast)
  refine ⟨_, (bind_done (destroyScope_done hdestroy)).trans hleave, hsound', ?_, rfl, rfl, hslots⟩
  exact ⟨hk'.current, hk'.links, hk'.kinds, hk'.live, hk'.slots, hrest, hk'.maxDepth, hk'.cache⟩

end Machine

/-- How a body is left that was entered from `m`: with the cursor where it was, unless the body
found no slot for a scope. -/
structure Returned (m : Machine) (signal : Signal) (m' : Machine) : Prop where
  sound : m'.Sound
  kept : m.Kept none m'
  calls : m'.calls = m.calls
  good : ∀ v ∈ Reading.signal.values signal, v.Good m'.cursor.cache
  cursor : m'.cursor = m.cursor

structure Aborted (m : Machine) (e : Error) (m' : Machine) : Prop where
  sound : m'.Sound
  kept : m.Kept none m'
  calls : (∀ i, e ≠ .internal i) → m'.calls = m.calls
  position : (∀ i, e ≠ .internal i) → m'.cursor.position = m.cursor.position
  parse : ∀ p, e ≠ .parse p
  internal : ∀ {i}, e = .internal i → i = arenaFull ∧ m'.scopes.slots.size = maxSlots

/-- A list that goes on behind `a` has a last element, which `a` may be. -/
theorem exists_push_of_le {α : Type} {xs : List α} {a : α} {ys : Array α}
    (h : xs ++ [a] <+: ys.toList) :
    ∃ (rest : Array α) (last : α), ys = rest.push last ∧ xs <+: rest.toList := by
  obtain ⟨zs, hzs⟩ := h
  have hne : a :: zs ≠ [] := List.cons_ne_nil a zs
  refine ⟨(xs ++ (a :: zs).dropLast).toArray, (a :: zs).getLast hne, ?_, List.prefix_append _ _⟩
  apply Array.toList_inj.mp
  rw [Array.toList_push, List.append_assoc, List.dropLast_concat_getLast hne, ← hzs,
    List.append_assoc]
  rfl

theorem CallStack.ext_of {s s' : CallStack} (h : s.calls = s'.calls)
    (h' : s.maxDepth = s'.maxDepth) : s = s' := by
  cases s
  cases s'
  cases h
  cases h'
  rfl

section

variable {m m₂ : Machine} {t : ScopeTree} {parent id : ScopeId} {p : Scope} {call : Call}
  {entry stop : Nat}
  {s : Exec Signal}

/-- A body that is done has read nothing, as its cursor is still within the text of the
procedure. -/
theorem Reading.Done.returned {signal : Signal}
    (hd : Reading.signal.Done none s (m.cursor.place entry)
      { m.entered call entry with scopes := t } signal m₂)
    (hskip : Scans s .normal (m.cursor.place entry) (m.cursor.place stop))
    (hsound : (m.entered call entry).Sound) (hp : m.scopes.find? parent = some p)
    (hc : m.scopes.Created parent p .procedure id t) (hresume : call.resume = m.cursor.position) :
    ∃ m', (destroyScope id >>= fun _ => Rules.leaveCall) m₂ = .done () m' ∧
    Returned m signal m' := by
  have hcalls : m₂.calls.calls = m.calls.calls.push call := hd.calls ▸ rfl
  obtain ⟨m', hleave, hsound', hk, hcalls', hcursor, _⟩ :=
    Machine.leave_run hsound hp hc hd.sound (hd.kept.exempting _) hcalls (List.prefix_refl _)
  have htape := hd.grown.antisymm ((hd.within.grown_end hskip).place_right entry)
  have hback : m'.cursor = m.cursor := by
    rw [hcursor, htape, hresume]
    rfl
  refine ⟨m', hleave, hsound', hk, CallStack.ext_of hcalls' hk.maxDepth, ?_, hback⟩
  rw [hcursor]
  exact hd.good

/-- A body that failed does not blame its text, which was found right before. -/
theorem Failed.aborted {e : Error}
    (hf : Failed none s (m.cursor.place entry) { m.entered call entry with scopes := t } e m₂)
    (hskip : Scans s .normal (m.cursor.place entry) (m.cursor.place stop))
    (hsound : (m.entered call entry).Sound) (hp : m.scopes.find? parent = some p)
    (hc : m.scopes.Created parent p .procedure id t) (hresume : call.resume = m.cursor.position) :
    ∃ m', (destroyScope id >>= fun _ => Rules.leaveCall) m₂ = .done () m' ∧ Aborted m e m' := by
  have hparse : ∀ p, e ≠ .parse p := by
    intro p he
    obtain ⟨n, hn⟩ := hf.parse he
    cases hn.symm.trans hskip
  by_cases he : ∀ i, e ≠ .internal i
  · have hcalls : m₂.calls.calls = m.calls.calls.push call := (hf.calls he) ▸ rfl
    obtain ⟨m', hleave, hsound', hk, hcalls', hcursor, _⟩ :=
      Machine.leave_run hsound hp hc hf.sound (hf.kept.exempting _) hcalls (List.prefix_refl _)
    refine ⟨m', hleave, hsound', hk, fun _ => CallStack.ext_of hcalls' hk.maxDepth,
      fun _ => ?_, hparse, fun hi => absurd hi (he _)⟩
    rw [hcursor, ← hresume]
    rfl
  · have hcalls : m.calls.calls.toList ++ [call] <+: m₂.calls.calls.toList := by
      rw [← Array.toList_push]
      exact hf.kept.calls
    obtain ⟨rest, last, hlast, hrest⟩ := exists_push_of_le hcalls
    obtain ⟨m', hleave, hsound', hk, _, _, hslots⟩ :=
      Machine.leave_run hsound hp hc hf.sound (hf.kept.exempting _) hlast hrest
    refine ⟨m', hleave, hsound', hk, fun h => absurd h he, fun h => absurd h he, hparse,
      fun hi => ?_⟩
    obtain ⟨hfull, hsize⟩ := hf.internal hi
    exact ⟨hfull, hslots.trans hsize⟩

end

namespace Rules

variable {r : Rules} {n : Nat} {m : Machine}

theorem InStep.procedureText {L : Link} {r' : Rules} (h : r.InStep L r') :
    L.Tied 0 (· = .normal) r.procedureText r'.procedureText :=
  h.parameterList.bind fun _ _ => h.bracedStatements

theorem procedureText_mono {k : Nat} (hn : n ≤ k) {c d : Cursor} (hc : c.Inside) {b : Signal}
    (hs : Scans (Rules.within n).procedureText b c d) :
    Scans (Rules.within k).procedureText b c d := by
  obtain ⟨d', hd, _, _, _, hs'⟩ :=
    (Rules.within_inStep (.frame (.bare c) (.bare c)) hn).procedureText.skim_done hc hs
  cases Machine.bare_inj hd
  exact hs'

/-- The body in the scope that was made for it. -/
theorem Faithful.inBody {k : Nat} (h : r.Faithful k) (hm : m.Sound) {parent id : ScopeId}
    {p : Scope} {t : ScopeTree} (hp : m.scopes.find? parent = some p)
    (hc : m.scopes.Created parent p .procedure id t) {rest : Array Call}
    {call : Call} (hcalls : m.calls.calls = rest.push call) (location : Location) :
    Honours .signal none (Rules.within k).procedureText m.cursor
      (inScope id (r.bindParameters location >>= fun _ => r.bracedStatements .execute))
        { m with scopes := t } := by
  have hsound := Machine.created_sound hm hp hc
  have hinside : { m with scopes := t, current := id }.Sound :=
    { hsound with current := ScopeTree.contains_of_find? hc.find?_self }
  exact .inScope hsound (h.procedureBody hinside hcalls location)

/-- A procedure whose text was skipped once runs through that text and nothing else. -/
theorem callBody_ends (h : ∀ {k}, n ≤ k → r.Faithful k) (hm : m.Sound) {procedure : Procedure}
    {call : Call} (hscope : m.scopes.contains procedure.scope = true)
    (hentry : Callable m.cursor.cache procedure.entry)
    (hgood : ∀ v ∈ call.arguments, v.Good m.cursor.cache)
    (hresume : call.resume = m.cursor.position) (location : Location) :
    (∀ {signal m'},
      r.callBody procedure location (m.entered call procedure.entry) = .done signal m' →
        Returned m signal m') ∧
      ∀ {e m'}, r.callBody procedure location (m.entered call procedure.entry) = .fault e m' →
        Aborted m e m' := by
  obtain ⟨hle, fuel, stop, hscan⟩ := hentry
  have hsound := Machine.entered_sound hm (hresume ▸ hm.inside) hgood hle
  obtain ⟨p, hp⟩ := ScopeTree.contains_iff.mp hscope
  rcases createScope_cases hsound hp .procedure with ⟨id, t, hok, hc⟩ | ⟨hno, hsize⟩
  · have hbody := (h (Nat.le_max_left n fuel)).inBody hsound hp hc rfl location
    have hskip :=
      procedureText_mono (Nat.le_max_right n fuel) hsound.inside
        (hscan m.cursor (List.prefix_refl _))
    cases hrun : inScope id (r.bindParameters location >>= fun _ => r.bracedStatements .execute)
        { m.entered call procedure.entry with scopes := t } with
    | done signal m₂ =>
      obtain ⟨m', hleave, hreturned⟩ := (hbody.done hrun).returned hskip hsound hp hc hresume
      have hx : r.callBody procedure location (m.entered call procedure.entry) = .done signal m' :=
        (bind_done hok).trans (ensuring_done hrun hleave)
      refine ⟨fun h => ?_, fun h => (nomatch hx.symm.trans h)⟩
      cases hx.symm.trans h
      exact hreturned
    | fault e m₂ =>
      obtain ⟨m', hleave, haborted⟩ := (hbody.fault hrun).aborted hskip hsound hp hc hresume
      have hx : r.callBody procedure location (m.entered call procedure.entry) = .fault e m' :=
        (bind_done hok).trans (ensuring_fault hrun hleave)
      refine ⟨fun h => (nomatch hx.symm.trans h), fun h => ?_⟩
      cases hx.symm.trans h
      exact haborted
    | outOfFuel =>
      have hx : r.callBody procedure location (m.entered call procedure.entry) = .outOfFuel :=
        (bind_done hok).trans (ensuring_outOfFuel hrun)
      exact ⟨fun h => (nomatch hx.symm.trans h), fun h => (nomatch hx.symm.trans h)⟩
  -- The call stays on the stack if there is no scope for its body.
  · have hx : r.callBody procedure location (m.entered call procedure.entry) =
        .fault (.internal arenaFull) _ :=
      bind_fault hno
    refine ⟨fun h => (nomatch hx.symm.trans h), fun h => ?_⟩
    cases hx.symm.trans h
    refine ⟨hsound, Machine.entered_kept, fun h => absurd rfl (h _), fun h => absurd rfl (h _),
      fun _ => Error.noConfusion, fun h => ?_⟩
    cases h
    exact ⟨rfl, hsize⟩

/-! ## The call -/

theorem resolveProcedure_honours (hm : m.Sound) (name : String) (location : Location) :
    Honours (.plain fun p => [.procedure p]) none (pure ()) m.cursor
      (resolveProcedure name location) m := by
  refine (Honours.lookup hm name).idle_bind (fun _ => trivial) fun {found m₁} hd _ => ?_
  split
  · exact .pure hd.sound trivial hd.good trivial
  · exact .raise hd.sound _ _
  · exact .raise hd.sound _ _

theorem callValue_honours {b : Value} (hm : m.Sound) {signal : Signal}
    (hgood : ∀ v ∈ Reading.signal.values signal, v.Good m.cursor.cache) :
    Honours .value none (pure b) m.cursor (callValue signal) m := by
  have hno : ∀ v ∈ [Value.noValue], v.Good m.cursor.cache := fun v hv => by
    cases List.mem_singleton.mp hv
    trivial
  match signal with
  | .normal => exact .pure hm trivial hno trivial
  | .returned none _ => exact .pure hm trivial hno trivial
  | .returned (some value) _ => exact .pure hm trivial hgood trivial
  | .broke location => exact .raise hm _ _
  | .continued location => exact .raise hm _ _

theorem Faithful.prepareCall {k : Nat} (h : r.Faithful k) (hm : m.Sound) (name : String)
    (location : Location) :
    Honours (.plain fun (p, arguments) => .procedure p :: arguments) none
      ((Rules.within k).arguments .skip) m.cursor
      (r.prepareCall name location) m := by
  refine (resolveProcedure_honours hm name location).idle_bind (fun _ => trivial) fun {p m₁} hd
    hcursor => ?_
  rw [← bind_pure ((Rules.within k).arguments .skip)]
  refine (h.arguments hd.sound).bind (fun _ => trivial) fun {arguments bs m₂} hd₂ _ => ?_
  refine Honours.after (.refl _ _) rfl (bind_done rfl) rfl (.refl _) ?_
  split
  · refine .pure hd₂.sound trivial (fun v hv => ?_) trivial
    rcases List.mem_cons.mp hv with rfl | hv
    · exact (hd.good _ (List.mem_singleton.mpr rfl)).mono hd₂.kept.cache
    · exact hd₂.good v (List.mem_flatMap.mpr ⟨v, hv, List.mem_singleton.mpr rfl⟩)
  · exact .raise hd₂.sound _ _

theorem prepareCall_alive {name : String} {location : Location} {p : Procedure}
    {arguments : List Value}
    {m' : Machine} (h : r.prepareCall name location m = .done (p, arguments) m') :
    m'.scopes.contains p.scope = true := by
  obtain ⟨p', m₁, _, h⟩ := of_bind_done h
  obtain ⟨arguments', m₂, _, h⟩ := of_bind_done h
  obtain ⟨alive, m₃, hread, h⟩ := of_bind_done h
  cases hread
  by_cases halive : m₂.scopes.contains p'.scope = true
  · rw [if_pos halive] at h
    cases h
    exact halive
  · rw [if_neg halive] at h
    cases h

/-- How the body of `p` is entered from `m`: with a call that returns to `m₀`, the state behind the
arguments. -/
structure Enters (k : Nat) (m m₀ : Machine) (p : Procedure) (call : Call) : Prop where
  sound : m₀.Sound
  kept : m.Kept none m₀
  calls : m₀.calls = m.calls
  grown : m.cursor.Grown m₀.cursor
  scans : ∃ values, Scans ((Rules.within k).arguments .skip) values m.cursor m₀.cursor
  scope : m₀.scopes.contains p.scope = true
  entry : Callable m₀.cursor.cache p.entry
  good : ∀ v ∈ call.arguments, v.Good m₀.cursor.cache
  resume : call.resume = m₀.cursor.position

theorem Faithful.enterCall_cases {k : Nat} (h : r.Faithful k) (hm : m.Sound) (name : String)
    (location : Location) :
    (∃ p m₀ call, r.enterCall name location m = .done p (m₀.entered call p.entry) ∧
      Enters k m m₀ p call) ∨
      (∃ e m', r.enterCall name location m = .fault e m' ∧
        Failed none ((Rules.within k).arguments .skip) m.cursor m e m') ∨
      r.enterCall name location m = .outOfFuel := by
  have hprepare := h.prepareCall hm name location
  cases hrun : r.prepareCall name location m with
  | outOfFuel => exact .inr (.inr (bind_outOfFuel hrun))
  | fault e m' => exact .inr (.inl ⟨e, m', bind_fault hrun, hprepare.fault hrun⟩)
  | done prepared m₀ =>
    obtain ⟨p, arguments⟩ := prepared
    have hd := hprepare.done hrun
    obtain ⟨values, _, hs⟩ := hd.scans trivial
    have hentry : Callable m₀.cursor.cache p.entry := hd.good (.procedure p) List.mem_cons_self
    have henters : Enters k m m₀ p ⟨m₀.cursor.position, arguments⟩ :=
      ⟨hd.sound, hd.kept, hd.calls, hd.grown, ⟨values, hs⟩, prepareCall_alive hrun, hentry,
        fun v hv => hd.good v (List.mem_cons_of_mem _ hv), rfl⟩
    by_cases hdepth : m₀.calls.depth < m₀.calls.maxDepth
    · have hpush : pushCall ⟨m₀.cursor.position, arguments⟩ location m₀ =
          .done () (m₀.calling (m₀.calls.calls.push ⟨m₀.cursor.position, arguments⟩)) := by
        simp only [pushCall, CallStack.push, if_pos hdepth]
        rfl
      refine .inl ⟨p, m₀, _, ?_, henters⟩
      refine (bind_done hrun).trans
        ((bind_done (x := position) rfl).trans ((bind_done hpush).trans ?_))
      exact bind_done (seek_run hentry.1)
    · have hpush : pushCall ⟨m₀.cursor.position, arguments⟩ location m₀ =
          .fault (.runtime ⟨.stackOverflow m₀.calls.maxDepth, location⟩) m₀ := by
        simp only [pushCall, CallStack.push, if_neg hdepth]
      have hfault : r.enterCall name location m =
          .fault (.runtime ⟨.stackOverflow m₀.calls.maxDepth, location⟩) m₀ :=
        (bind_done hrun).trans ((bind_done (x := position) rfl).trans (bind_fault hpush))
      exact .inr (.inl
        ⟨_, m₀, hfault,
          ⟨hd.sound, hd.kept, fun _ => hd.calls, fun he => (nomatch he), fun he => (nomatch he)⟩⟩)

theorem callRule_honours (h : ∀ {k}, n ≤ k → r.Faithful k) {k : Nat} (hk : n ≤ k) (hm : m.Sound)
    (name : String) (location : Location) :
    Honours .value none ((Rules.within k).callRule name location .skip) m.cursor
      (r.callRule name location .execute) m := by
  refine .expect_bind hm fun {d} hd _ => ?_
  rcases (h hk).enterCall_cases hd name location with ⟨p, m₀, call, hx, he⟩ | ⟨e, m', hx, hf⟩ | hx
  · obtain ⟨hdone, hfault⟩ := callBody_ends h he.sound he.scope he.entry he.good he.resume location
    obtain ⟨values, hs⟩ := he.scans
    cases hrun : r.callBody p location (m₀.entered call p.entry) with
    | done signal m' =>
      have hr := hdone hrun
      exact (callValue_honours hr.sound hr.good).after (he.kept.trans hr.kept)
        (hr.calls.trans he.calls)
        ((bind_done hx).trans (bind_done hrun)) (hr.cursor ▸ bind_done hs) (hr.cursor ▸ he.grown)
    | fault e m' =>
      have ha := hfault hrun
      refine .of_fault ((bind_done hx).trans (bind_fault hrun)) ?_
      exact ⟨ha.sound, he.kept.trans ha.kept, fun hi => (ha.calls hi).trans he.calls,
        fun hp => absurd hp (ha.parse _), ha.internal⟩
    | outOfFuel => exact .of_outOfFuel ((bind_done hx).trans (bind_outOfFuel hrun))
  · exact .of_fault (bind_fault hx) hf.bind
  · exact .of_outOfFuel (bind_outOfFuel hx)

end Rules
end Replay
