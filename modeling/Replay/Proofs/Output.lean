import Replay.Proofs.CallDepth
/-!
Output that does not fit.

What a script prints has no influence on what it does.  If there is not enough room for it the run
fails as soon as a text does not fit, and what has been taken until then is as much of the output as
there was room for.
-/

namespace Replay

open Exec
open ScopeTree (arenaFull)

def Sink.capped (k : Nat) :
    Sink := { bytes := ByteArray.empty, limit := some k, flushFails := false }

/-! ## Other sinks -/

def Machine.into (m : Machine) (out : Sink) : Machine := { m with out }

def Machine.capped (m : Machine) (k : Nat) : Machine := m.into { m.out with limit := some k }

def Outcome.mapAfter {α : Type} (f : Machine → Machine) : Outcome α → Outcome α
  | done a m => done a (f m)
  | fault e m => fault e (f m)
  | outOfFuel => outOfFuel

namespace Sink

variable {s : Sink} {k : Nat} {text : String}

theorem write_free (hlimit : s.limit = none) (hshare : s.share = fun _ => none) (text : String) :
    s.write text =
      (.ok (), { s with bytes := s.bytes ++ text.toUTF8, offers := s.offers + 1 }) := by
  have haccept : s.accept text.toUTF8 = text.toUTF8 := by
    rw [accept, room, hlimit, hshare]
    show text.toUTF8.extract 0 (min text.toUTF8.size text.toUTF8.size) = text.toUTF8
    rw [Nat.min_self, ByteArray.extract_zero_size]
  have hsize : text.toUTF8.size = text.utf8ByteSize := rfl
  simp only [write, haccept, if_pos hsize]

/-- All of a text goes into a sink without a limit. -/
theorem write_unlimited (text : String) :
    ∃ out, unlimited.write text = (.ok (), out) ∧ out.text = text ∧ out.flushFails = false := by
  refine ⟨_, write_free rfl rfl text, ?_, rfl⟩
  show (String.fromUTF8? (ByteArray.empty ++ text.toUTF8)).getD "" = text
  rw [ByteArray.empty_append, String.fromUTF8?, String.toUTF8_eq_toByteArray,
    dif_pos text.isValidUTF8]
  rfl

/-- What a sink takes that looks at nothing but the number of bytes. -/
theorem accept_capped (hshare : s.share = fun _ => none) (text : ByteArray) :
    accept { s with limit := some k } text = text.extract 0 (min (k - s.bytes.size) text.size) := by
  simp only [accept, room, hshare, Option.map_some, Option.getD_some, Option.getD_none]

theorem write_fits (hshare : s.share = fun _ => none) (h : s.bytes.size + text.toUTF8.size ≤ k) :
    write { s with limit := some k } text =
      (.ok (), { s with
        limit := some k, bytes := s.bytes ++ text.toUTF8, offers := s.offers + 1 }) := by
  have haccept : accept { s with limit := some k } text.toUTF8 = text.toUTF8 := by
    rw [accept_capped hshare, Nat.min_eq_right (by omega), ByteArray.extract_zero_size]
  have hsize : text.toUTF8.size = text.utf8ByteSize := rfl
  simp only [write, haccept, if_pos hsize]

/-- As much of a text as there is room for. -/
theorem write_full (hshare : s.share = fun _ => none) (hroom : s.bytes.size ≤ k)
    (h : k < s.bytes.size + text.toUTF8.size) :
    write { s with limit := some k } text =
      (.error .sinkFull, { s with
        limit := some k
        bytes := s.bytes ++ text.toUTF8.extract 0 (k - s.bytes.size)
        offers := s.offers + 1 }) := by
  have haccept : accept { s with limit := some k } text.toUTF8 =
      text.toUTF8.extract 0 (k - s.bytes.size) := by
    rw [accept_capped hshare, Nat.min_eq_left (by omega)]
  have hsize : (text.toUTF8.extract 0 (k - s.bytes.size)).size ≠ text.toUTF8.size := by
    rw [ByteArray.size_extract]
    omega
  have hpart : (text.toUTF8.extract 0 (k - s.bytes.size)).size ≠ text.utf8ByteSize := hsize
  simp only [write, haccept, if_neg hpart]

end Sink

/-! ## Computations that print nothing -/

def Exec.Silent {α : Type} (x : Exec α) : Prop :=
  ∀ m out, x (m.into out) = (x m).mapAfter (·.into out)

namespace Exec.Silent

variable {α β : Type} {x : Exec α}

theorem bind {f : α → Exec β} (hx : x.Silent) (hf : ∀ a, (f a).Silent) : (x >>= f).Silent := by
  intro m out
  have hinto := hx m out
  cases hrun : x m with
  | done a m₁ =>
    rw [hrun] at hinto
    rw [bind_done hinto, bind_done hrun, hf a]
  | fault e m₁ =>
    rw [hrun] at hinto
    rw [bind_fault hinto, bind_fault hrun]
    rfl
  | outOfFuel =>
    rw [hrun] at hinto
    rw [bind_outOfFuel hinto, bind_outOfFuel hrun]
    rfl

theorem onCursor (f : Cursor → Except ParseError α × Cursor) : (onCursor f).Silent := by
  intro m out
  show Exec.onCursor f ⟨m.cursor, m.scopes, m.calls, m.current, out⟩ =
    (Exec.onCursor f ⟨m.cursor, m.scopes, m.calls, m.current, m.out⟩).mapAfter (·.into out)
  unfold Exec.onCursor
  dsimp only
  split <;> rfl

theorem moveCursor (f : Cursor → Except InternalError Cursor) : (moveCursor f).Silent := by
  intro m out
  show Exec.moveCursor f ⟨m.cursor, m.scopes, m.calls, m.current, out⟩ =
    (Exec.moveCursor f m).mapAfter (·.into out)
  unfold Exec.moveCursor
  dsimp only
  split <;> rfl

theorem onScopes (f : ScopeTree → ScopeId → Except Error (α × ScopeTree)) :
    (onScopes f).Silent := by
  intro m out
  show Exec.onScopes f ⟨m.cursor, m.scopes, m.calls, m.current, out⟩ =
    (Exec.onScopes f m).mapAfter (·.into out)
  unfold Exec.onScopes
  dsimp only
  split <;> rfl

theorem changeScopes (f : ScopeTree → Except InternalError ScopeTree) : (changeScopes f).Silent :=
  changeScopes_eq f ▸ onScopes _

theorem pushCall (call : Call) (location : Location) : (pushCall call location).Silent := by
  intro m out
  show Exec.pushCall call location ⟨m.cursor, m.scopes, m.calls, m.current, out⟩ =
    (Exec.pushCall call location m).mapAfter (·.into out)
  unfold Exec.pushCall
  dsimp only
  split <;> rfl

theorem popCall : popCall.Silent := by
  intro m out
  show Exec.popCall ⟨m.cursor, m.scopes, m.calls, m.current, out⟩ =
    (Exec.popCall m).mapAfter (·.into out)
  unfold Exec.popCall
  dsimp only
  split <;> rfl

theorem out (h : x.Silent) (m : Machine) :
    (x m).All (fun _ => True) (fun m' => m'.out = m.out) := by
  have hsame : x m = (x m).mapAfter (·.into m.out) := h m m.out
  cases hx : x m with
  | done a m' =>
    rw [hx] at hsame
    injection hsame with _ hm'
    have hout : m'.out = (m'.into m.out).out := congrArg Machine.out hm'
    exact ⟨trivial, hout⟩
  | fault e m' =>
    rw [hx] at hsame
    injection hsame with _ hm'
    have hout : m'.out = (m'.into m.out).out := congrArg Machine.out hm'
    exact hout
  | outOfFuel => trivial

theorem leaveCall : Rules.leaveCall.Silent :=
  popCall.bind fun _ => moveCursor _

end Exec.Silent

/-! ## Room for the output -/

/-- A state of a run whose sink takes everything.  So far `k` bytes would have been enough. -/
structure Machine.Roomy (k : Nat) (m : Machine) : Prop where
  limit : m.out.limit = none
  share : m.out.share = fun _ => none
  size : m.printed.length ≤ k

theorem Machine.Roomy.of_out {k : Nat} {m m' : Machine} (h : m.Roomy k) (hout : m'.out = m.out) :
    m'.Roomy k := by
  have hprinted : m'.printed = m.printed := by rw [Machine.printed, Machine.printed, hout]
  exact ⟨hout ▸ h.limit, hout ▸ h.share, hprinted ▸ h.size⟩

namespace Exec.Silent

variable {α : Type} {x : Exec α} {k : Nat} {m : Machine}

theorem capped (h : x.Silent) (m : Machine) (k : Nat) :
    x (m.capped k) = (x m).mapAfter (·.capped k) := by
  have hcapped : x (m.capped k) = _ := h m { m.out with limit := some k }
  have hout := h.out m
  cases hx : x m with
  | done a m' =>
    rw [hx] at hcapped hout
    rw [hcapped, ← hout.2]
    rfl
  | fault e m' =>
    rw [hx] at hcapped hout
    have hsame : m'.out = m.out := hout
    rw [hcapped, ← hsame]
    rfl
  | outOfFuel =>
    rw [hcapped, hx]
    rfl

theorem roomy (h : x.Silent) (hm : m.Roomy k) : (x m).All (fun _ => True) (Machine.Roomy k) := by
  have hout := h.out m
  cases hx : x m with
  | done a m' =>
    rw [hx] at hout
    exact ⟨trivial, hm.of_out hout.2⟩
  | fault e m' =>
    rw [hx] at hout
    exact hm.of_out hout
  | outOfFuel => trivial

end Exec.Silent

theorem Exec.write_ok {m : Machine} {text : String} {out : Sink}
    (h : m.out.write text = (.ok (), out)) :
    write text m = .done () (m.into out) := by
  show write text ⟨m.cursor, m.scopes, m.calls, m.current, m.out⟩ = _
  simp only [write, h]
  rfl

theorem Exec.write_error {m : Machine} {text : String} {e : OutputError} {out : Sink}
    (h : m.out.write text = (.error e, out)) : write text m = .fault (.output e) (m.into out) := by
  show write text ⟨m.cursor, m.scopes, m.calls, m.current, m.out⟩ = _
  simp only [write, h]
  rfl

/-- The errors of a run that has no more room.  Those of what is cleaned up on the way out take
precedence. -/
inductive Spilled : Error → Prop where
  | full : Spilled (.output .sinkFull)
  | internal {i : InternalError} : i ≠ arenaFull → Spilled (.internal i)

/-- What becomes of a computation when there is room for `k` bytes.  Either they are enough and it
makes no difference; or there is a text that does not fit, the computation fails there, and what was
taken are the first `k` bytes of more that is printed if there is room for it. -/
inductive Fills (k : Nat) {α : Type} (x : Exec α) (m : Machine) : Prop where
  | fits :
    x (m.capped k) = (x m).mapAfter (·.capped k) →
    (x m).All (fun _ => True) (Machine.Roomy k) → Fills k x m
  | spills {e : Error} {n : Machine} (text : List UInt8) :
    Spilled e → x (m.capped k) = .fault e n → text.length = k + 1 → n.printed = text.take k →
    (x m).All (fun _ => True) (fun m' => text <+: m'.printed) → Fills k x m

namespace Fills

variable {α β : Type} {k : Nat} {m : Machine} {P : α → Prop} {Q : β → Prop}

theorem of_silent {x : Exec α} (h : x.Silent) (hm : m.Roomy k) : Fills k x m :=
  .fits (h.capped m k) (h.roomy hm)

theorem bind {x : Exec α} {f : α → Exec β} (hx : Fills k x m) (hprints : x.Prints P)
    (hf : ∀ a m₁, P a → m₁.Roomy k → Fills k (f a) m₁) (hmore : ∀ a, P a → (f a).Prints Q) :
    Fills k (x >>= f) m := by
  have hresult := hprints [] m List.nil_prefix
  cases hx with
  | fits hcapped hroomy =>
    cases hrun : x m with
    | done a m₁ =>
      rw [hrun] at hcapped hroomy hresult
      cases hf a m₁ hresult.1 hroomy.2 with
      | fits hcapped' hroomy' =>
        refine .fits ?_ ?_
        · rw [bind_done hcapped, bind_done hrun, hcapped']
        · rw [bind_done hrun]
          exact hroomy'
      | spills text hspilled hfault hlength htake hall =>
        refine .spills text hspilled ((bind_done hcapped).trans hfault) hlength htake ?_
        rw [bind_done hrun]
        exact hall
    | fault e m₁ =>
      rw [hrun] at hcapped hroomy
      refine .fits ?_ ?_
      · rw [bind_fault hcapped, bind_fault hrun]
        rfl
      · rw [bind_fault hrun]
        exact hroomy
    | outOfFuel =>
      rw [hrun] at hcapped
      refine .fits ?_ ?_
      · rw [bind_outOfFuel hcapped, bind_outOfFuel hrun]
        rfl
      · rw [bind_outOfFuel hrun]
        trivial
  | @spills e n text hspilled hfault hlength htake hall =>
    refine .spills text hspilled (bind_fault hfault) hlength htake ?_
    exact ((hresult.join hall).bind fun a ha => hmore a ha text).imp fun _ _ => trivial

theorem inScope {scope : ScopeId} {body : Exec α} (h : Fills k body { m with current := scope }) :
    Fills k (inScope scope body) m := by
  cases h with
  | fits hcapped hroomy =>
    change body { m.capped k with current := scope } = _ at hcapped
    refine .fits ?_ ?_
    · unfold Exec.inScope
      rw [hcapped]
      cases body { m with current := scope } <;> rfl
    · unfold Exec.inScope
      dsimp only
      generalize body { m with current := scope } = o at hroomy
      cases o with
      | done a m₁ => exact ⟨trivial, hroomy.2.of_out rfl⟩
      | fault e m₁ => exact Machine.Roomy.of_out hroomy rfl
      | outOfFuel => trivial
  | @spills e n text hspilled hfault hlength htake hall =>
    change body { m.capped k with current := scope } = _ at hfault
    refine .spills (n := { n with current := m.current }) text hspilled ?_ hlength htake ?_
    · unfold Exec.inScope
      simp only [hfault]
      rfl
    · unfold Exec.inScope
      dsimp only
      generalize body { m with current := scope } = o at hall
      cases o <;> exact hall

theorem ensuring {body : Exec α} {cleanup : Exec Unit} (hc : cleanup.Cleanup) (hs : cleanup.Silent)
    (h : Fills k body m) : Fills k (ensuring body cleanup) m := by
  cases h with
  | fits hcapped hroomy =>
    refine .fits ?_ (hroomy.ensuring fun m₁ hm₁ => hs.roomy hm₁)
    unfold Exec.ensuring
    rw [hcapped]
    cases body m with
    | done a m₁ =>
      simp only [Outcome.mapAfter, hs.capped]
      cases cleanup m₁ <;> rfl
    | fault e m₁ =>
      simp only [Outcome.mapAfter, hs.capped]
      cases cleanup m₁ <;> rfl
    | outOfFuel => rfl
  | @spills e n text hspilled hfault hlength htake hall =>
    have hall' := hall.ensuring (hc.prints text)
    rcases hc.ends n with ⟨n', hcleanup, _, _, hout⟩ | ⟨j, n', hj, hcleanup, hout⟩
    · exact .spills text hspilled (ensuring_fault hfault hcleanup) hlength (hout.trans htake) hall'
    · refine .spills (n := n') text (.internal hj) ?_ hlength (hout.trans htake) hall'
      simp only [Exec.ensuring, hfault, hcleanup]

/-- The one place where room matters. -/
theorem write (text : String) (hm : m.Roomy k) : Fills k (write text) m := by
  have hroom : m.out.bytes.size ≤ k := hm.size
  have hrun := write_ok (Sink.write_free hm.limit hm.share text)
  have hprinted : (m.out.bytes ++ text.toUTF8).data.toList =
      m.printed ++ text.toUTF8.data.toList := by
    rw [ByteArray.data_append, Array.toList_append]
    rfl
  have hlength : (m.printed ++ text.toUTF8.data.toList).length =
      m.out.bytes.size + text.toUTF8.size := by
    rw [List.length_append]
    rfl
  by_cases hfit : m.out.bytes.size + text.toUTF8.size ≤ k
  · have hcapped := write_ok (m := m.capped k) (Sink.write_fits hm.share hfit)
    refine .fits ?_ ?_
    · rw [hcapped, hrun]
      rfl
    · rw [hrun]
      have hsize : (m.out.bytes ++ text.toUTF8).data.toList.length ≤ k := by
        rw [hprinted, hlength]; exact hfit
      exact ⟨trivial, hm.limit, hm.share, hsize⟩
  · have hcapped :=
      write_error (m := m.capped k) (Sink.write_full hm.share hroom (Nat.lt_of_not_le hfit))
    refine .spills ((m.printed ++ text.toUTF8.data.toList).take (k + 1)) .full hcapped ?_ ?_ ?_
    · rw [List.length_take, hlength]
      omega
    · show (m.out.bytes ++ text.toUTF8.extract 0 (k - m.out.bytes.size)).data.toList = _
      rw [ByteArray.data_append, Array.toList_append, ByteArray.data_extract, Array.toList_extract,
        List.take_take, Nat.min_eq_left (Nat.le_succ k), List.take_append,
        List.take_of_length_le hm.size]
      rfl
    · rw [hrun]
      refine ⟨trivial, ?_⟩
      show _ <+: (m.out.bytes ++ text.toUTF8).data.toList
      rw [hprinted]
      exact List.take_prefix _ _

end Fills

structure Metered {α : Type} (Q : α → Prop) (x : Watch → Exec α) : Prop extends Gauged Q x where
  fills : ∀ {k m}, m.Roomy k → Fills k (x fun _ => false) m

namespace Metered

variable {α β σ : Type} {P : α → Prop} {Q : β → Prop}

theorem of_silent {x : Exec α} (h : Gauged P fun _ => x) (hs : x.Silent) :
    Metered P fun _ => x where
  toGauged := h
  fills hm := .of_silent hs hm

theorem of_scopes {x : Exec α} {f : ScopeTree → ScopeId → Except Error (α × ScopeTree)}
    (h : x = onScopes f) :
    Metered (fun _ => True) fun _ => x :=
  h ▸ of_silent (.of_aside (.onScopes f)) (.onScopes f)

theorem pure {a : α} (h : P a) : Metered P fun _ => pure a :=
  of_silent (.pure h) fun _ _ => rfl

theorem fail (e : Error) : Metered P fun _ => fail e :=
  of_silent (.fail e) fun _ _ => rfl

theorem outOfFuel : Metered P fun _ => outOfFuel :=
  of_silent .outOfFuel fun _ _ => rfl

theorem position : Metered (fun _ => True) fun _ => position :=
  of_silent (.of_aside ⟨fun _ _ => rfl, fun _ _ hm => ⟨trivial, hm⟩⟩) fun _ _ => rfl

theorem imp {P' : α → Prop} {x : Watch → Exec α} (hx : Metered P x) (h : ∀ a, P a → P' a) :
    Metered P' x where
  toGauged := hx.toGauged.imp h
  fills := hx.fills

theorem bind {x : Watch → Exec α} {f : Watch → α → Exec β} (hx : Metered P x)
    (hf : ∀ a, P a → Metered Q fun w => f w a) : Metered Q fun w => x w >>= f w where
  toGauged := hx.toGauged.bind fun a ha => (hf a ha).toGauged
  fills hm := (hx.fills hm).bind hx.prints (fun a _ ha hm₁ => (hf a ha).fills hm₁) fun a ha =>
    (hf a ha).prints

theorem loop {body : Watch → σ → Exec (Turn σ β)} {I : σ → Prop}
    (h : ∀ s, I s → Metered (Turn.All I Q) fun w => body w s) (n : Nat) {s : σ} (hs : I s) :
    Metered Q fun w => loop (body w) n s := by
  induction n generalizing s with
  | zero => exact outOfFuel
  | succ n ih =>
    simp only [loop_succ]
    refine (h s hs).bind fun turn hturn => ?_
    cases turn with
    | again s' => exact ih hturn
    | stop b => exact pure hturn

theorem watched {x : Watch → Exec α} (h : Metered P x) : Metered P fun w => (x w).watched w where
  toGauged := h.toGauged.watched
  fills := h.fills

theorem inScope {scope : ScopeId} {body : Watch → Exec α} (h : Metered P body) :
    Metered P fun w => inScope scope (body w) where
  toGauged := h.toGauged.inScope
  fills {k m} hm := by
    have hin : { m with current := scope }.Roomy k := hm.of_out rfl
    exact (h.fills hin).inScope

theorem ensuring {body : Watch → Exec α} {cleanup : Exec Unit} (h : Metered P body)
    (hc : cleanup.Cleanup)
    (hs : cleanup.Silent) : Metered P fun w => ensuring (body w) cleanup where
  toGauged := h.toGauged.ensuring hc
  fills hm := (h.fills hm).ensuring hc hs

theorem createScope (parent : ScopeId) (kind : ScopeKind) :
    Metered (fun _ => True) fun _ => createScope parent kind :=
  of_scopes (createScope_eq parent kind)

theorem withChild {body : Watch → ScopeId → Exec α} (h : ∀ scope, Metered P fun w => body w scope)
    (parent : ScopeId) (kind : ScopeKind) : Metered P fun w => withChild parent kind (body w) :=
  (createScope parent kind).bind fun scope _ =>
  (h scope).ensuring (.destroyScope scope) (.changeScopes _)

theorem entering {body : Watch → Exec α} (h : Metered P body) (call : Call) (location : Location)
    (entry : Nat) :
    Metered P fun w => (do
      pushCall call location
      seek entry
      (body w).watched w) where
  toGauged := h.toGauged.entering call location entry
  fills hm := by
    have hseek : Metered (fun _ => True) fun _ => seek entry :=
      of_silent (.of_cleanup (.seek entry)) (.moveCursor _)
    have hrest := hseek.bind (f := fun w _ => (body w).watched w) fun _ _ => h.watched
    exact (Fills.of_silent (.pushCall call location) hm).bind (Gauged.pushCall_prints call location)
      (fun _ _ _ hm₁ => hrest.fills hm₁) fun _ _ => hrest.prints

theorem calling {procedure : Procedure} {body : Watch → Exec Signal} {P : Signal → Prop}
    (h : Metered P body) (arguments : List Value) (location : Location) :
    Metered P fun w => calling w procedure arguments location (body w) := by
  refine position.bind fun p _ => entering ?_ _ location _
  refine (createScope procedure.scope .procedure).bind fun scope _ => ?_
  exact h.inScope.ensuring ((Cleanup.destroyScope scope).bind .leaveCall)
    ((Silent.changeScopes _).bind fun _ => .leaveCall)

end Metered

theorem Made.metered {r : Watch → Rules} (hr : Rules.Each (fun _ => True) r Metered) {α : Type}
    {Q : α → Prop}
    {x : Watch → Exec α} (h : Made (fun _ => True) (fun _ => True) r Q x) : Metered Q x := by
  induction h with
  | pure h => exact .pure h
  | fail e => exact .fail e
  | imp _ h ih => exact ih.imp h
  | bind _ _ ihx ihf => exact ihx.bind ihf
  | loop _ hn hs ih =>
    simp only [hn]
    exact .loop ih _ hs
  | onCursor g => exact .of_silent (.of_aside (.onCursor g)) (.onCursor g)
  | moveCursor g => exact .of_silent (.of_aside (.moveCursor g)) (.moveCursor g)
  | position => exact .position
  | currentScope =>
    exact .of_silent (.of_aside ⟨fun _ _ => rfl, fun _ _ hm => ⟨trivial, hm⟩⟩) fun _ _ => rfl
  | readScopes g => exact .of_scopes (readScopes_eq g)
  | lookup name => exact (Metered.of_scopes (lookup_eq name)).imp fun _ _ _ v _ _ => v.within_any
  | declare name location _ => exact .of_scopes (declare_eq name _ location)
  | store name location _ => exact .of_scopes (store_eq name _ location)
  | setKind kind _ => exact .of_scopes (changeScopes_eq _)
  | copyBindings _ _ => exact .of_scopes (changeScopes_eq _)
  | writeBack _ _ => exact .of_scopes (changeScopes_eq _)
  | withChild kind _ _ ih => exact .withChild (fun scope => ih scope trivial) _ kind
  | inScope _ _ ih => exact ih.inScope
  | write text => exact ⟨.of_aside (.write text), fun hm => .write text hm⟩
  | watched _ ih => exact ih.watched
  | calling arguments location _ _ ih => exact ih.calling arguments location
  | statement mode => exact hr.statement mode
  | assignment mode => exact hr.assignment mode
  | conditional mode => exact hr.conditional mode
  | binary least mode => exact hr.binary least mode
  | call name location mode => exact hr.call name location mode

theorem Rules.posted_metered (fuel : Nat) :
    Rules.Each (fun _ => True) (fun w => posted w fuel) Metered :=
  posted_each (fun _ _ => trivial) (fun _ => .outOfFuel) (fun hr _ _ _ h => h.metered hr) fuel

/-! ## Whole runs -/

namespace Script

variable {fuel maxDepth k : Nat} {source : String}

theorem run_fills (fuel : Nat) {m : Machine} (hm : m.Roomy k) :
    Fills k (Interpreter.run fuel) m := by
  have hscript :=
    (Made.script fun w => Rules.posted_fuel w fuel).metered (Rules.posted_metered fuel)
  rw [← watched_quiet]
  exact hscript.watched.fills hm

/-- On the way out the sink is flushed, which is all that is done with it. -/
theorem finish_capped (result : Except Error Unit) (m : Machine) (k : Nat) :
    finish result (m.capped k) = ⟨(finish result m).result, { m.out with limit := some k }⟩ :=
  finish_congr result rfl rfl

theorem reported_capped (o : Outcome Unit) (k : Nat) :
    reported (o.mapAfter (·.capped k)) =
      (reported o).map fun report => ⟨report.result, { report.out with limit := some k }⟩ := by
  cases o with
  | done u m =>
    simp only [reported, Outcome.mapAfter, Option.map_some, finish_capped, finish_out]
  | fault e m =>
    simp only [reported, Outcome.mapAfter, Option.map_some, finish_capped, finish_out]
  | outOfFuel => rfl

/-- Of a run that was done what it printed is reported, if the sink can be flushed. -/
theorem output_of_done {m : Machine}
    (h : Interpreter.run fuel (.start source CallStack.defaultMaxDepth .unlimited) = .done () m)
    (hm : m.Sound)
    (hflush : m.out.flushFails = false) : output fuel source = some (.ok m.out.text) := by
  obtain ⟨t, hteardown, _⟩ := ScopeTree.teardown_cleared hm.stocked hm.connected
  have hok : m.out.flush = .ok () := by
    rw [Sink.flush, hflush]
    rfl
  have hfinish : finish (.ok ()) m = ⟨.ok (), m.out⟩ := by
    simp only [finish, Interpreter.teardown, hteardown, bind, Except.bind, pure, Except.pure, hok]
  simp only [output, run, h, hfinish, Option.map_some]

theorem output_of_outOfFuel
    (h : Interpreter.run fuel (.start source CallStack.defaultMaxDepth .unlimited) = .outOfFuel) :
    output fuel source = none := by
  simp only [output, run, h, Option.map_none]

/-- If a run into a sink that takes everything comes to an end, then it ends in the same way and
prints the same if there is just enough room for its output.  If there is less it fails for want of
room, and what was taken are the first bytes of the output, as many as there is room for. -/
theorem output_cut_short {report : Report}
    (h : run fuel source maxDepth .unlimited = some report) (k : Nat) :
    (report.out.bytes.size ≤ k →
      ∃ cut, run fuel source maxDepth (.capped k) = some ⟨report.result, cut⟩ ∧
      cut.bytes = report.out.bytes) ∧
    (k < report.out.bytes.size → ∃ cut,
      run fuel source maxDepth (.capped k) = some ⟨.error (.output .sinkFull), cut⟩ ∧
      cut.bytes = report.out.bytes.extract 0 k) := by
  have hstart : (Machine.start source maxDepth .unlimited).Roomy k := ⟨rfl, rfl, Nat.zero_le k⟩
  have hcap : (Machine.start source maxDepth .unlimited).capped k =
    Machine.start source maxDepth (.capped k) := rfl
  rw [run_eq] at h ⊢
  cases run_fills fuel hstart with
  | fits hcapped hroomy =>
    obtain ⟨m, hm, hout⟩ := reported_out h hroomy
    have hsize : report.out.bytes.size ≤ k := hout ▸ hm.size
    refine ⟨fun _ => ⟨{ report.out with limit := some k }, ?_, rfl⟩,
      fun hlt => absurd hsize (Nat.not_le.mpr hlt)⟩
    rw [← hcap, hcapped, reported_capped, h]
    rfl
  | @spills e n text hspilled hfault hlength htake hall =>
    obtain ⟨m, hm, hout⟩ := reported_out h hall
    rw [hcap] at hfault
    have hprefix : text <+: report.out.bytes.data.toList := hout ▸ hm
    have hlt : k < report.out.bytes.size := by
      have hle : text.length ≤ report.out.bytes.size := hprefix.length_le
      omega
    refine ⟨fun hle => absurd hle (Nat.not_le.mpr hlt), fun _ => ⟨n.out, ?_, ?_⟩⟩
    · cases hspilled with
      | full => rw [hfault]; rfl
      | internal hi => exact absurd (run_internal hfault) hi
    · apply ByteArray.ext
      apply Array.toList_inj.mp
      obtain ⟨more, hmore⟩ := hprefix
      rw [ByteArray.data_extract, Array.toList_extract, ← hmore]
      show n.printed = (text ++ more).take k
      rw [htake, List.take_append_of_le_length (by omega)]

/-- Two lines are printed, of two and of four bytes.  There is room for the first one and for half
of the second one. -/
theorem output_cut_short_midLine :
    ∃ report, run 20 "eval 1; eval 234;" 2 .unlimited = some report ∧ report.result = .ok () ∧
      report.out.bytes.size = 6 ∧
      ∃ cut, run 20 "eval 1; eval 234;" 2 (.capped 4) = some ⟨.error (.output .sinkFull), cut⟩ ∧
        cut.bytes = report.out.bytes.extract 0 4 := by
  have hrun : (run 20 "eval 1; eval 234;" 2 .unlimited).map
      (fun r => (r.result, r.out.bytes.size)) = some (.ok (), 6) := by decide +kernel
  obtain ⟨report, hrun, hreport⟩ := Option.map_eq_some_iff.mp hrun
  obtain ⟨hok, hsize⟩ := Prod.mk.inj hreport
  exact ⟨report, hrun, hok, hsize, (output_cut_short hrun 4).2 (by omega)⟩

end Script
end Replay
