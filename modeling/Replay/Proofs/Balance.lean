import Replay.Proofs.Reachable
/-!
Every way out is balanced.

However a rule ends, the scopes it has made are gone, its calls are off the stack, and the scope
that was current is current again.  A call whose body was entered ends right behind its own
parentheses, even if the body has failed.  The one exception is a rule that finds no slot for a
scope.
-/

namespace Replay

open Exec

/-! ## Rules -/

/-- The computation has ended in `m'`, with a result or with an error that is not an internal
one. -/
def Exec.Ends {α : Type} (x : Exec α) (m m' : Machine) : Prop :=
  (∃ a, x m = .done a m') ∨ ∃ e, x m = .fault e m' ∧ ∀ i, e ≠ .internal i

/-- The same scopes in the same places, and the same calls. -/
structure Machine.Balanced (m m' : Machine) : Prop where
  current : m'.current = m.current
  calls : m'.calls = m.calls
  live : m'.scopes.live = m.scopes.live
  contains : ∀ id, m'.scopes.contains id = m.scopes.contains id
  links : ∀ id, m'.scopes.links id = m.scopes.links id
  kinds : ∀ id, m'.scopes.kindOf id = m.scopes.kindOf id

def Exec.Balanced {α : Type} (x : Exec α) (m : Machine) :
    Prop := ∀ {m'}, x.Ends m m' → m.Balanced m'

structure Rules.Balanced (r : Rules) (mode : Mode) (m : Machine) : Prop where
  statement : (r.statement mode).Balanced m
  expression : (r.expression mode).Balanced m
  assignment : (r.assignment mode).Balanced m
  conditional : (r.conditional mode).Balanced m
  binary : ∀ least, (r.binary least mode).Balanced m
  call : ∀ name location, (r.call name location mode).Balanced m

theorem Safe.balanced {α : Type} {x : Exec α} {m : Machine} (h : Safe x m) : x.Balanced m := by
  have hbalanced : ∀ {m'}, m.Kept none m' → m'.calls = m.calls → m.Balanced m' := fun hk hcalls =>
    ⟨hk.current, hcalls, hk.live, fun id => ScopeTree.contains_eq_of_links (hk.links id), hk.links,
      fun id => hk.kinds id (Option.some_ne_none id).symm⟩
  rintro m' (⟨a, hx⟩ | ⟨e, hx, he⟩)
  · obtain ⟨_, hk, hcalls⟩ := h.done hx
    exact hbalanced hk hcalls
  · obtain ⟨_, hk, hcalls, _⟩ := h.fault hx
    exact hbalanced hk (hcalls he)

theorem Rules.AllSafe.balanced {r : Rules} {mode : Mode} {m : Machine} (h : r.AllSafe mode m) :
    r.Balanced mode m :=
  ⟨h.statement.balanced, h.expression.balanced, h.assignment.balanced, h.conditional.balanced,
    fun least => (h.binary least).balanced, fun name location => (h.call name location).balanced⟩

/-! ## Lists in parentheses -/

namespace Cursor

/-- The cursor is right behind a token of this kind. -/
def Behind (c : Cursor) (p : Punct) : Prop := ∃ l, c.current = .ok l ∧ l.token.isPunct p = true

theorem current_of_getElem? {c : Cursor} {l : Lexeme} {i : Nat} (hpos : c.position = i + 1)
    (h : c.cache[i]? = some l) : c.current = .ok l := by
  simp only [current, hpos, Nat.succ_ne_zero, if_false, Nat.add_sub_cancel, h]

/-- What has been read behind the cursor does not change what is before it. -/
theorem Behind.of_cache_le {c d : Cursor} {p : Punct} (h : c.Behind p)
    (hpos : d.position = c.position) (hle : c.cache.toList <+: d.cache.toList) : d.Behind p := by
  obtain ⟨l, hl, hp⟩ := h
  refine ⟨l, ?_, hp⟩
  unfold current at hl ⊢
  rw [hpos]
  by_cases hzero : c.position = 0
  · rw [if_pos hzero] at hl
    cases hl
  · rw [if_neg hzero] at hl ⊢
    split at hl
    · rename_i l' hl'
      have hlt := (Array.getElem?_eq_some_iff.mp hl').1
      rw [getElem?_of_cache_le hle hlt, hl']
      exact hl
    · cases hl

end Cursor

section Lists

variable {β : Type} {Q : β → Prop} {x : Exec β} {c d : Cursor}

theorem next_behind {l : Lexeme} {p : Punct} (hc : c.Inside) (hs : Scans next l c d)
    (hp : l.token.isPunct p = true) : d.Behind p := by
  rcases next_run (.bare c) with ⟨l', c', hpeek, hrun⟩ | ⟨e, c', _, hrun⟩
    <;> cases hrun.symm.trans hs
  have hfound : c'.cache[c.position]? = some l := Cursor.peek_getElem? hc hpeek
  exact ⟨l, Cursor.current_of_getElem? (c := c'.place (c.position + 1)) rfl hfound, hp⟩

/-- What was looked at is what is read next. -/
theorem next_behind_of_peekIs {l : Lexeme} {p : Punct} {c₁ : Cursor} (hc : c.Inside)
    (hs : Scans (peekIs p) true c c₁) (hnext : Scans next l c₁ d) : d.Behind p := by
  obtain ⟨l', n, hpeek, hpure⟩ := of_bind_done hs
  rcases peek_run (.bare c) with ⟨l'', c', hcursor, hrun⟩ | ⟨e, c', _, hrun⟩
    <;> cases hrun.symm.trans hpeek
  obtain ⟨htoken, rfl⟩ : l'.token.isPunct p = true ∧ c' = c₁ := by
    injection hpure with htoken hcursor
    exact ⟨htoken, Machine.bare_inj hcursor⟩
  obtain ⟨_, hpos, hlt⟩ := Cursor.peek_ok hc hcursor
  have hagain : c'.peek = (.ok l', c') :=
    Cursor.peek_cached (hpos ▸ Cursor.peek_getElem? hc hcursor)
  have hinside : c'.Inside := Nat.le_of_lt (hpos ▸ hlt)
  refine next_behind hinside hnext ?_
  cases (next_run_ok (m := .bare c') hagain).symm.trans hnext
  exact htoken

theorem listTurn_behind (hx : Reader Q x) (hc : c.Inside) {seen values : List β}
    (hs : Scans (listTurn x seen) (.stop values) c d) : d.Behind .rightParen := by
  obtain ⟨a, c₁, _, hs₁, hc₁, _⟩ := hx.of_scans_bind hc hs
  obtain ⟨l, c₂, hnext, hs₂, _⟩ := Reader.of_scans_bind (fun _ => .next) hc₁ hs₁
  split at hs₂
  · cases hs₂
  · rename_i htoken
    cases hs₂
    exact next_behind hc₁ hnext (htoken ▸ rfl)
  · cases hs₂

theorem list_behind (hx : Reader Q x) {n : Nat} (hc : c.Inside) {seen values : List β}
    (hs : Scans (loop (listTurn x) n seen) values c d) : d.Behind .rightParen := by
  induction n generalizing c seen with
  | zero => cases hs
  | succ n ih =>
    rw [loop_succ] at hs
    obtain ⟨turn, c₁, hturn, hs₁, hc₁, _⟩ :=
      Reader.of_scans_bind (fun L => (hx L).listTurn seen) hc hs
    cases turn with
    | again seen' => exact ih hc₁ hs₁
    | stop values' =>
      cases hs₁
      exact listTurn_behind hx hc hturn

/-- A list in parentheses ends with the closing one. -/
theorem closedList_behind (hx : Reader Q x) {n : Nat} (hc : c.Inside) {values : List β}
    (hs : Scans (closedList n x) values c d) : d.Behind .rightParen := by
  obtain ⟨closed, c₁, hpeek, hs₁, hc₁, _⟩ := Reader.of_scans_bind (fun _ => .peekIs _) hc hs
  cases closed with
  | true =>
    obtain ⟨l, c₂, hnext, hs₂, _⟩ := Reader.of_scans_bind (fun _ => .next) hc₁ hs₁
    cases hs₂
    exact next_behind_of_peekIs hc hpeek hnext
  | false => exact list_behind hx hc₁ hs₁

end Lists

/-! ## Calls -/

namespace Rules

variable {m m' : Machine} {fuel : Nat} {name : String} {location : Location}

theorem callValue_ends {signal : Signal} (h : (callValue signal).Ends m m') : m' = m := by
  unfold callValue at h
  rcases h with ⟨a, hx⟩ | ⟨e, hx, _⟩ <;> split at hx <;> cases hx <;> rfl

/-- A body that was entered from behind the arguments is left to there. -/
theorem Enters.ends {m₀ : Machine} {p : Procedure} {call : Call} (h : Enters fuel m m₀ p call)
    (hx : (((within fuel).callBody p location >>= callValue)).Ends (m₀.entered call p.entry) m') :
    m'.cursor.position = m₀.cursor.position ∧
    m₀.cursor.cache.toList <+: m'.cursor.cache.toList := by
  obtain ⟨hdone, hfault⟩ :=
    callBody_ends (r := within fuel) (fun hk => within_faithful hk) h.sound h.scope h.entry
    h.good h.resume location
  have hreturned : ∀ {signal m₂}, (within fuel).callBody p location (m₀.entered call p.entry) =
    .done signal m₂ →
      (callValue signal).Ends m₂ m' → m'.cursor = m₀.cursor := fun hbody hvalue =>
    callValue_ends hvalue ▸ (hdone hbody).cursor
  rcases hx with ⟨v, hx⟩ | ⟨e, hx, he⟩
  · obtain ⟨signal, m₂, hbody, hvalue⟩ := of_bind_done hx
    rw [hreturned hbody (.inl ⟨v, hvalue⟩)]
    exact ⟨rfl, List.prefix_refl _⟩
  · rcases of_bind_fault hx with hbody | ⟨signal, m₂, hbody, hvalue⟩
    · exact ⟨(hfault hbody).position he, (hfault hbody).kept.cache⟩
    · rw [hreturned hbody (.inr ⟨e, hvalue, he⟩)]
      exact ⟨rfl, List.prefix_refl _⟩

/-- Where a call returns to is where skipping it leads. -/
theorem call_returns (hm : m.Sound) {p : Procedure} {m₁ : Machine}
    (hx : (expect .leftParen >>= fun _ => (within fuel).enterCall name location) m = .done p m₁) :
    ∃ d : Cursor, d.Behind .rightParen ∧
      (within fuel).callRule name location .skip m = .done .noValue (m.on d) ∧
      ∀ {m'}, ((within fuel).callRule name location .execute).Ends m m' →
        m'.cursor.position = d.position ∧ m'.cursor.Behind .rightParen := by
  obtain ⟨_, m₂, hopen, henter⟩ := of_bind_done hx
  have htied : (Link.frame m (.bare m.cursor)).Tied 0 (fun _ => True) (expect .leftParen)
      (expect .leftParen) :=
    .expect _
  obtain ⟨c, rfl, hg, hc, _, hscan⟩ := htied.skim_done hm.inside hopen
  have hsound := hm.on hg.cache_le hc
  rcases (within_faithful (Nat.le_refl fuel)).enterCall_cases hsound name location with
    ⟨p', m₀, call, hrun, he⟩ | ⟨e, m', hrun, _⟩ | hrun
  · obtain ⟨values, harguments⟩ := he.scans
    have hbehind : m₀.cursor.Behind .rightParen :=
      closedList_behind (fun L => (within_reads fuel L).assignment) hc harguments
    have hskip : Scans ((within fuel).callRule name location .skip) .noValue m.cursor m₀.cursor :=
      (bind_done hscan).trans (bind_done harguments)
    refine ⟨m₀.cursor, hbehind, ?_, fun {m'} hends => ?_⟩
    · exact Reader.run_done (fun L => (within_reads fuel L).callRule name location) hm.inside hskip
    · have hstart : (within fuel).callRule name location .execute m =
          ((within fuel).callBody p' location >>= callValue) (m₀.entered call p'.entry) :=
        (bind_done hopen).trans (bind_done hrun)
      unfold Exec.Ends at hends
      rw [hstart] at hends
      obtain ⟨hpos, hle⟩ := he.ends hends
      exact ⟨hpos, hbehind.of_cache_le hpos hle⟩
  · cases hrun.symm.trans henter
  · cases hrun.symm.trans henter

end Rules

/-! ## Sessions -/

/-- However a rule ends, wherever it was started, it leaves scopes and calls as it found them, and a
call returns to behind its parentheses.  So between requests there is the global scope only, and no
call. -/
theorem every_exit_balanced (source : String) (maxDepth : Nat) (out : Sink) :
    (∀ {m}, Met source maxDepth out m → ∀ fuel mode, (Rules.within fuel).Balanced mode m) ∧
    (∀ {m}, Met source maxDepth out m → ∀ {fuel name location p m₁},
      (expect .leftParen >>= fun _ => (Rules.within fuel).enterCall name location) m = .done p m₁ →
      ∃ d : Cursor, d.Behind .rightParen ∧
        (Rules.within fuel).callRule name location .skip m = .done .noValue (m.on d) ∧
        ∀ {m'}, ((Rules.within fuel).callRule name location .execute).Ends m m' →
          m'.cursor.position = d.position ∧ m'.cursor.Behind .rightParen) ∧
    ∀ {errors m}, Session source maxDepth out errors m → (∀ i, .internal i ∉ errors) →
      m.current = ScopeTree.root ∧ m.scopes.live = 1 ∧ m.calls.depth = 0 := by
  refine ⟨fun {m} hmet fuel mode => ?_, fun {m} hmet {fuel name location p m₁} hx => ?_,
    fun {errors m} hsession hnone => ?_⟩
  · exact ((Rules.within_faithful (Nat.le_refl fuel)).safe hmet.sound mode).balanced
  · exact Rules.call_returns hmet.sound hx
  · have hrest := hsession.atRest
    exact ⟨hrest.kept.current, hrest.kept.live, hrest.calls hnone ▸ rfl⟩

/-- A body that fails at once: the procedure it calls has not been defined. -/
theorem every_exit_balanced_failed_body :
    ∃ n m' d, Session "procedure f() { g(); } ()" 1 .unlimited [] n ∧
      (Rules.within 9).callRule "f" ⟨1, 1⟩ .execute n =
        .fault (.runtime ⟨.undefinedIdentifier "g", ⟨1, 17⟩⟩) m' ∧
      (Rules.within 9).callRule "f" ⟨1, 1⟩ .skip n = .done .noValue (n.on d) ∧
      n.Balanced m' ∧ m'.cursor.position = d.position ∧ m'.cursor.Behind .rightParen ∧
      n.current = ScopeTree.root ∧ n.scopes.live = 1 ∧ n.calls.depth = 0 := by
  have hentered : (((Request.step .execute).perform (Rules.within 9) >>= fun _ =>
      expect .leftParen >>= fun _ => (Rules.within 9).enterCall "f" ⟨1, 1⟩)
        (Machine.start "procedure f() { g(); } ()" 1 .unlimited)).result? =
          some (.ok ⟨2, ScopeTree.root⟩) := by decide +kernel
  have hfailed : (((Request.step .execute).perform (Rules.within 9) >>= fun _ =>
      (Rules.within 9).callRule "f" ⟨1, 1⟩ .execute)
        (Machine.start "procedure f() { g(); } ()" 1 .unlimited)).result? =
          some (.error (.runtime ⟨.undefinedIdentifier "g", ⟨1, 17⟩⟩)) := by decide +kernel
  obtain ⟨m₁, hentered⟩ := Outcome.exists_of_result_ok hentered
  obtain ⟨m', hfailed⟩ := Outcome.exists_of_result_error hfailed
  obtain ⟨_, n, hstep, henter⟩ := of_bind_done hentered
  rw [bind_done hstep] at hfailed
  have hsession := Session.done (.step .execute) 9 .start hstep
  have hends : ((Rules.within 9).callRule "f" ⟨1, 1⟩ .execute).Ends n m' :=
    .inr ⟨_, hfailed, fun _ => Error.noConfusion⟩
  obtain ⟨hrules, hcalls, hrest⟩ := every_exit_balanced "procedure f() { g(); } ()" 1 .unlimited
  obtain ⟨d, _, hskip, hback⟩ := hcalls hsession.met henter
  obtain ⟨hposition, hbehind⟩ := hback hends
  exact ⟨n, m', d, hsession, hfailed, hskip,
    (hrules hsession.met 10 .execute).call "f" ⟨1, 1⟩ hends, hposition, hbehind,
    hrest hsession fun _ => List.not_mem_nil⟩

end Replay
