import Replay.Proofs.Jumps.Loop
/-!
Courses of statements and calls, and with them of all rules.

A call leads to the braces of a procedure, whatever stands around the call.  A jump that gets out of
them is an error.
-/

namespace Replay

open Exec

/-- A jump that is not skipped leads to where the braces around it say. -/
theorem Signal.Ends.jump {source : String} {mode : Mode} {braces : List Brace} {n : Nesting}
    {s : Signal} {c : Cursor} (hplace : c.nesting source = n)
    (haims : ∀ j, s.jump? = some j → j.Aims source (target? j.keyword braces))
    (hfine : s.Fine source c) : Ends source mode braces n (Rules.jump mode s) c := by
  cases mode with
  | execute => exact ⟨Mode.noConfusion, fun _ => hplace, haims, hfine⟩
  | skip => exact .normal hplace

/-- A jump that gets out of a procedure has nowhere to go. -/
theorem Signal.Ends.astray {source : String} {mode : Mode} {braces : List Brace} {n : Nesting}
    {s : Signal} {c : Cursor} (h : Ends source mode (.procedure :: braces) n s c) {j : Jump}
    (hj : Brace.procedure.leaves s = some j) :
    j.Aims source none := by
  have haims := h.aims j (Brace.jump_of_leaves hj)
  have hkeyword : j.keyword ≠ .kwReturn := by
    intro heq
    have hnot := (Option.filter_eq_some_iff.mp hj).2
    rw [heq] at hnot
    cases hnot
  rw [target?_procedure hkeyword] at haims
  exact haims

/-- What the scopes hold is the same behind the body of a procedure. -/
theorem ScopeTree.Holds.behindBody {P : Value → Prop} {id : ScopeId} {m m' : Machine}
    (h : m.scopes.Holds P)
    (hx : (destroyScope id >>= fun _ => Rules.leaveCall) m = .done () m') : m'.scopes.Holds P := by
  obtain ⟨_, m₁, hdestroy, hleave⟩ := of_bind_done hx
  obtain ⟨call, m₂, hpop, hseek⟩ := of_bind_done hleave
  have hheld : m₁.scopes.Holds P := by
    unfold destroyScope changeScopes at hdestroy
    split at hdestroy <;> cases hdestroy
    next ht => exact h.destroy ht
  have hpopped : m₂.scopes = m₁.scopes := by
    unfold popCall at hpop
    split at hpop <;> cases hpop
    rfl
  have hsought : m'.scopes = m₂.scopes := by
    unfold seek moveCursor at hseek
    split at hseek <;> cases hseek
    rfl
  rw [hsought, hpopped]
  exact hheld

namespace Rules.Lexical

variable {source : String} {k i : Nat} {b : Brace} {r : Lookout → Rules} {n : Nesting} {m : Machine}
  {braces : List Brace} {depth : Nat}

/-! ## Branches -/

theorem ifRest (h : Rules.Lexical source k .block r) {mode pending : Mode}
    (hpending : mode = .skip → pending = .skip) (hm : m.Stands source ⟨braces, .block, 0⟩) :
    Follows source none (Turn.carries Signal.jump?)
      (fun turn c => turn.All (fun pending => (mode = .skip → pending = .skip) ∧
        c.nesting source = ⟨braces, .block, 0⟩)
        (fun s => Signal.Ends source mode braces ⟨braces, .block, 0⟩ s c))
      (fun w => (r w).ifRest pending) m := by
  refine Follows.next_bind hm fun {m₁} hm₁ _ hpos _ => ?_
  split
  · next htoken =>
    rw [Stream.token, htoken] at hm₁
    exact Follows.pure hm₁.toLexed ⟨hpending, hm₁.place⟩
  · next htoken =>
    rw [Stream.token, htoken] at hm₁
    refine Follows.bind (h.block pending hm₁) fun {s m₂} _ hm₂ _ hs =>
      Follows.pure_of hm₂ ?_ fun _ hj => hj
    exact { hs with skipped := fun hskip => hs.skipped (hpending hskip) }
  · refine Follows.rollback_bind hm₁.toLexed hpos hm.place fun hm₂ _ => ?_
    exact Follows.pure hm₂.toLexed (Signal.Ends.normal hm₂.place)

theorem ifChain (h : Rules.Lexical source k .block r) (mode : Mode)
    (hm : m.Stands source ⟨braces, .block, 0⟩) :
    Follows source none Signal.jump? (Signal.Ends source mode braces ⟨braces, .block, 0⟩)
      (fun w => (r w).ifChain mode) m := by
  refine Follows.loop
    (J := fun pending c => (mode = .skip → pending = .skip) ∧
      c.nesting source = ⟨braces, .block, 0⟩) ?_ h.fuel
    hm.toLexed ⟨id, hm.place⟩
  rintro pending m₁ hm₁ - ⟨hpending, hplace⟩
  refine (h.parenthesized pending ⟨hm₁, hplace⟩).bind fun {taken m₂} hm₂ _ htaken => ?_
  refine Follows.bind (h.block (if taken then .execute else .skip) hm₂) fun {s m₃} _ hm₃ _ hs => ?_
  have hs' : Signal.Ends source mode braces ⟨braces, .block, 0⟩ s m₃.cursor := by
    refine { hs with skipped := fun hskip => hs.skipped ?_ }
    rw [htaken (hpending hskip)]
    rfl
  cases s with
  | normal =>
    refine h.ifRest (fun hskip => ?_) ⟨hm₃, hs.place rfl⟩
    rw [htaken (hpending hskip)]
    exact hpending hskip
  | broke location => exact Follows.pure_of hm₃ hs' fun _ hj => hj
  | continued location => exact Follows.pure_of hm₃ hs' fun _ hj => hj
  | returned value location => exact Follows.pure_of hm₃ hs' fun _ hj => hj

/-! ## Procedures and jumps -/

/-- A procedure is declared with the place that its own braces are ahead of. -/
theorem procedureDefinition (h : Rules.Lexical source k b r) (mode : Mode)
    (hm : m.Stands source ⟨braces, .procedure, depth⟩) :
    Follows source none Signal.jump? (Signal.Ends source mode braces ⟨braces, .block, 0⟩)
      (fun w => (r w).procedureDefinition mode) m := by
  have hfaithful := h.faithful .none (Nat.le_refl k)
  refine Follows.expectIdentifier_bind hm fun {name m₁} hm₁ _ => Follows.position_bind ?_
  refine Follows.bind (h.parameterList hm₁) fun {_ m₂} hlist hm₂ _ ⟨_, hplace₂⟩ => ?_
  refine Follows.bind (h.skippedStatements ⟨hm₂, hplace₂⟩)
    fun {s m₃} hbody hm₃ _ ⟨hs, hplace₃⟩ => ?_
  cases mode with
  | skip => exact Follows.pure hm₃ (.normal hplace₃)
  | execute =>
    obtain ⟨c₁, rfl, hg₁, hc₁, _, hs₁⟩ :=
      (hfaithful.inStep hm₁.sound).parameterList.skim_done hm₁.sound.inside hlist
    obtain ⟨c₂, rfl, hg₂, _, rfl, hs₂⟩ :=
      (hfaithful.inStep hm₂.sound).bracedStatements.skim_done hc₁ hbody
    have hcallable : Callable c₂.cache m₁.cursor.position :=
      .of_scans hm₁.sound.inside (hg₁.trans hg₂) ((bind_done hs₁).trans hs₂)
    have hheaded : (Stream.nesting source m₁.cursor.position).ahead = .procedure := by
      have hplace : Stream.nesting source m₁.cursor.position = _ := hm₁.place
      rw [hplace]
    refine Follows.currentScope_bind ?_
    refine (Arrives.declare name.1 name.2 ⟨hm₃, hplace₃⟩ fun v hv => ?_).bind fun hm₄ _ _ => ?_
    · cases hv
      exact ⟨hcallable, hheaded⟩
    · exact Follows.pure hm₄.toLexed (.normal hm₄.place)

theorem returnStatement (h : Rules.Lexical source k b r) (mode : Mode) {location : Location}
    (hm : m.Stands source ⟨braces, .block, 0⟩)
    (haims : Jump.Aims source ⟨.kwReturn, location⟩ (target? .kwReturn braces)) :
    Follows source none Signal.jump? (Signal.Ends source mode braces ⟨braces, .block, 0⟩)
      (fun w => (r w).returnStatement mode location) m := by
  have hjump {value : Option Value} (j : Jump)
    (hj : (Signal.returned value location).jump? = some j) :
      j.Aims source (target? j.keyword braces) := by
    cases hj
    exact haims
  refine Follows.peekIs_bind hm (fun hm₁ _ hsemicolon => ?_) fun hm₁ _ => ?_
  · exact Follows.sign_bind hm₁ hsemicolon fun hm₂ _ =>
      Follows.pure hm₂.toLexed (.jump hm₂.place hjump trivial)
  · refine (h.expression mode hm₁).bind fun hm₂ _ hvalue =>
      Follows.expect_bind hm₂ fun hm₃ hgrown => ?_
    exact Follows.pure hm₃.toLexed (.jump hm₃.place hjump (hvalue.mono hgrown))

/-! ## All statements -/

/-- A statement leaves the braces around it as they are, and ends with no jump but its own or one
that its braces do not take. -/
theorem statementRule (h : Rules.Lexical source k b r) (mode : Mode)
    (hm : m.Stands source ⟨braces, .block, 0⟩) (hb : b = m.opens) :
    Follows source none Signal.jump? (Signal.Ends source mode braces ⟨braces, .block, 0⟩)
      (fun w => (r w).statementRule mode) m := by
  refine Follows.next_bind hm fun {m₁} hm₁ _ hpos hopens => ?_
  have haims {keyword : Keyword} (hkeyword : keyword = .kwBreak ∨ keyword = .kwContinue ∨
    keyword = .kwReturn)
      (htoken : (Stream.lexeme source m.cursor.position).token = .keyword keyword) :
      Jump.Aims source ⟨keyword, (Stream.lexeme source m.cursor.position).location⟩
        (target? keyword braces) := by
    have hplace : Stream.nesting source m.cursor.position = _ := hm.place
    exact ⟨hkeyword, m.cursor.position, htoken, rfl, by rw [hplace]⟩
  have hnormal {m₂ : Machine} (hm₂ : m₂.Stands source ⟨braces, .block, 0⟩) :
      Follows source none Signal.jump? (Signal.Ends source mode braces ⟨braces, .block, 0⟩)
        (fun _ => expect .semicolon >>= fun _ => pure .normal) m₂ :=
    Follows.expect_bind hm₂ fun hm₃ _ => Follows.pure hm₃.toLexed (.normal hm₃.place)
  have hread {t : Token} (htoken : (Stream.lexeme source m.cursor.position).token = t) :
      m₁.Stands source (Nesting.step ⟨braces, .block, 0⟩ m.cursor.position t) ∧
      b = .opening m.cursor.position t := by
    rw [← htoken]
    exact ⟨hm₁, hb.trans hopens⟩
  split
  · next htoken =>
    obtain ⟨_, rfl⟩ := hread htoken
    exact Follows.rollback_bind hm₁.toLexed hpos hm.place fun hm₂ _ => h.block mode hm₂
  · next htoken =>
    obtain ⟨hm₁, rfl⟩ := hread htoken
    exact h.ifChain mode hm₁
  · next htoken =>
    obtain ⟨hm₁, rfl⟩ := hread htoken
    exact h.whileLoop mode hm₁
  · next htoken =>
    obtain ⟨hm₁, rfl⟩ := hread htoken
    exact h.doLoop mode hm₁
  · next htoken =>
    obtain ⟨hm₁, rfl⟩ := hread htoken
    exact h.forLoop mode hm₁
  · next htoken => exact h.procedureDefinition mode (hread htoken).1
  · next htoken => exact (h.declaration mode (hread htoken).1).bind fun hm₂ _ _ => hnormal hm₂
  · next htoken =>
    refine (h.expression mode (hread htoken).1).bind fun hm₂ _ _ =>
      Follows.expect_bind hm₂ fun hm₃ _ => ?_
    cases mode with
    | execute =>
      exact (Arrives.write _ hm₃).bind fun hm₄ _ _ => Follows.pure hm₄.toLexed (.normal hm₄.place)
    | skip => exact Follows.pure hm₃.toLexed (.normal hm₃.place)
  · next htoken =>
    refine Follows.expect_bind (hread htoken).1 fun hm₂ _ =>
      Follows.pure hm₂.toLexed (.jump hm₂.place ?_ trivial)
    intro j hj
    cases hj
    exact haims (.inl rfl) htoken
  · next htoken =>
    refine Follows.expect_bind (hread htoken).1 fun hm₂ _ =>
      Follows.pure hm₂.toLexed (.jump hm₂.place ?_ trivial)
    intro j hj
    cases hj
    exact haims (.inr (.inl rfl)) htoken
  · next htoken => exact h.returnStatement mode (hread htoken).1 (haims (.inr (.inr rfl)) htoken)
  · next htoken => exact Follows.pure hm₁.toLexed (.normal (hread htoken).1.place)
  · exact Follows.failParse _ _
  · refine Follows.rollback_bind hm₁.toLexed hpos hm.place fun hm₂ _ => ?_
    exact (h.expression mode hm₂).bind fun hm₃ _ _ => hnormal hm₃

/-! ## Calls -/

theorem declareAll (hm : m.Stands source n) (pairs : List ((String × Location) × Value))
    (hfine : ∀ pair ∈ pairs, pair.2.Fine source m.cursor) :
    Arrives source n anything (fun _ => Rules.declareAll pairs) m := by
  induction pairs generalizing m with
  | nil => exact Arrives.pure hm trivial
  | cons pair rest ih =>
    refine (Arrives.declare pair.1.1 pair.1.2 hm fun v hv => ?_).bind fun hm₁ hgrown _ => ?_
    · cases hv
      exact hfine pair List.mem_cons_self
    · exact ih hm₁ fun pair hpair => (hfine pair (List.mem_cons_of_mem _ hpair)).mono hgrown

theorem prepareCall (h : Rules.Lexical source k b r) (name : String) (location : Location)
    {ahead : Brace} (hm : m.Stands source ⟨braces, ahead, depth + 1⟩) :
    Arrives source ⟨braces, ahead, depth⟩
      (fun prepared c => (Value.procedure prepared.1).Fine source c ∧
        ∀ v ∈ prepared.2, v.Fine source c)
      (fun w => (r w).prepareCall name location) m := by
  have hresolve : Arrives source ⟨braces, ahead, depth + 1⟩
    (fun p c => (Value.procedure p).Fine source c)
      (fun _ => resolveProcedure name location) m := by
    refine (Arrives.lookup name hm).bind fun hm₁ _ hfound => ?_
    split
    · exact Arrives.pure hm₁ (hfound _ _ rfl rfl)
    · exact Follows.raise (fun _ => RuntimeCause.noConfusion) _
    · exact Follows.raise (fun _ => RuntimeCause.noConfusion) _
  refine hresolve.bind fun {p m₁} hm₁ _ hp =>
    (h.arguments .execute hm₁).bind fun {values m₂} hm₂ hgrown hvalues => ?_
  refine Follows.run_bind (b := m₂.scopes.contains p.scope) rfl (List.prefix_refl _) ?_
  split
  · exact Arrives.pure hm₂ ⟨hp.mono hgrown, hvalues⟩
  · exact Follows.raise (fun _ => RuntimeCause.noConfusion) _

/-- The body of a procedure, behind which the call is over. -/
theorem procedureBody (h : Rules.Lexical source k .procedure r)
    (hm : m.Stands source ⟨braces, .procedure, depth⟩)
    {rest : Array Call} {call : Call} (hcalls : m.calls.calls = rest.push call)
    (hfine : ∀ v ∈ call.arguments, v.Fine source m.cursor) (location : Location) :
    Follows source none Brace.procedure.leaves
      (Signal.Ends source .execute (.procedure :: braces) ⟨braces, .block, 0⟩)
      (fun w => (r w).bindParameters location >>= fun _ => (r w).bracedStatements .execute) m := by
  simp only [bindParameters, bind_assoc]
  refine Follows.bind (h.parameterList hm) fun {parameters m₁} hlist hm₁ hgrown hread => ?_
  have hplace := hread.2
  obtain ⟨c, rfl, _⟩ :=
    ((h.faithful .none (Nat.le_refl k)).inStep hm.sound).parameterList.skim_done
      hm.sound.inside hlist
  have htop : topCall (m.on c) = .done call (m.on c) := by
    simp only [topCall, CallStack.top, Machine.on_calls, hcalls, Array.back?_push]
  refine Follows.run_bind htop (List.prefix_refl _) ?_
  have hbind : Arrives source ⟨braces, .procedure, depth⟩ anything (fun _ =>
      if parameters.length < call.arguments.length then
        raise (.tooManyParameters parameters.length call.arguments.length) location
      else if call.arguments.length < parameters.length then
        raise (.tooFewParameters parameters.length call.arguments.length) location
      else Rules.declareAll (parameters.zip call.arguments)) (m.on c) := by
    split
    · exact Follows.raise (fun _ => RuntimeCause.noConfusion) _
    · split
      · exact Follows.raise (fun _ => RuntimeCause.noConfusion) _
      · exact declareAll ⟨hm₁, hplace⟩ _ fun pair hpair =>
          (hfine _ (List.of_mem_zip hpair).2).mono hgrown
  exact hbind.bind fun hm₂ _ _ => h.bracedStatements .execute hm₂ fun _ => rfl

/-- The body of a procedure that is called from a place with `n` around it leads back to that place.
A jump that comes out of it has nowhere to go. -/
theorem callBody (h : Rules.Lexical source k .procedure r) (hm : m.Stands source n) {p : Procedure}
    {call : Call}
    (hscope : m.scopes.contains p.scope = true) (hp : (Value.procedure p).Fine source m.cursor)
    (hfine : ∀ v ∈ call.arguments, v.Fine source m.cursor)
    (hresume : call.resume = m.cursor.position) (location : Location) :
    Follows source none Brace.procedure.leaves
      (fun s c => (∀ j, Brace.procedure.leaves s = some j → j.Aims source none) ∧ s.Fine source c ∧
        c.nesting source = n)
      (fun w => (r w).callBody p location) (m.entered call p.entry) := by
  obtain ⟨hle, fuel, stop, hscan⟩ := hp.good
  have hsound :=
    Machine.entered_sound hm.sound (hresume ▸ hm.sound.inside) (fun v hv => (hfine v hv).good) hle
  have hentered : (m.entered call p.entry).Lexed source := ⟨hsound, hm.tracks.placed hle, hm.headed⟩
  obtain ⟨scope, hfound⟩ := ScopeTree.contains_iff.mp hscope
  rcases createScope_cases hsound hfound .procedure with ⟨id, t, hok, hc⟩ | ⟨hno, _⟩
  · have hcreated := hentered.created hfound hok hc
    have hinside : { m.entered call p.entry with scopes := t, current := id }.Sound :=
      { hcreated.sound with current := ScopeTree.contains_of_find? hc.find?_self }
    have hfaithful (w : Lookout) := h.faithful w (Nat.le_max_left k fuel)
    have hskip :=
      procedureText_mono (Nat.le_max_right k fuel) hsound.inside
        (hscan m.cursor (List.prefix_refl _))
    have hplace : Stream.nesting source p.entry =
        ⟨(Stream.nesting source p.entry).braces, .procedure,
          (Stream.nesting source p.entry).depth⟩ :=
      congrArg (Nesting.mk _ · _) hp.headed
    have hbody := h.procedureBody (m := { m.entered call p.entry with scopes := t, current := id })
      ⟨⟨hinside, hcreated.tracks, hcreated.headed⟩, hplace⟩ rfl
      (fun v hv => (hfine v hv).mono (List.prefix_refl _)) location
    refine Follows.run_bind hok (List.prefix_refl _)
      (Follows.ensuring (Follows.inScope hbody fun hrun => ?_) ?_ ?_)
    · exact (((hfaithful .none).procedureBody hinside rfl location).done hrun).kept.contains
        hcreated.sound.current
    · rintro s m₁ hrun ⟨hm₁, _, hends⟩
      obtain ⟨m₂, hclean, hreturned⟩ :=
        (((hfaithful .none).inBody hsound hfound hc rfl location).done hrun).returned hskip hsound
          hfound hc hresume
      have hheaded := hm₁.headed.behindBody hclean
      refine ⟨m₂, hclean, ⟨hreturned.sound, hreturned.cursor ▸ hm.tracks, hheaded⟩, ?_, ?_, ?_, ?_⟩
      · rw [hreturned.cursor]
        exact List.prefix_refl _
      · intro j hj
        exact hends.astray hj
      · cases s with
        | returned value location =>
          cases value with
          | none => trivial
          | some v => exact ⟨hreturned.good v (List.mem_singleton.mpr rfl), hends.fine.headed⟩
        | _ => trivial
      · rw [hreturned.cursor]
        exact hm.place
    · intro w e m₁ hrun
      obtain ⟨m₂, hclean, _⟩ :=
        (((hfaithful w).inBody hsound hfound hc rfl location).fault hrun).aborted hskip hsound
          hfound hc hresume
      exact ⟨m₂, hclean⟩
  · exact Follows.of_fault (fun _ => bind_fault hno) fun _ => Error.noConfusion

theorem callValue {s : Signal} (hm : m.Stands source n)
    (haims : ∀ j, Brace.procedure.leaves s = some j → j.Aims source none)
    (hfine : s.Fine source m.cursor) :
    Follows source (Brace.procedure.leaves s) nothing
      (fun v c => v.Fine source c ∧ c.nesting source = n)
      (fun _ => Rules.callValue s) m := by
  cases s with
  | normal => exact Arrives.pure hm (.of_kind Kind.noConfusion)
  | returned value location =>
    cases value with
    | none => exact Arrives.pure hm (.of_kind Kind.noConfusion)
    | some v => exact Arrives.pure hm hfine
  | broke location => exact Follows.complain (haims _ rfl)
  | continued location => exact Follows.complain (haims _ rfl)

theorem callRule (h : Rules.Lexical source k .procedure r) (name : String) (location : Location)
    (mode : Mode) (hm : m.Stands source n) :
    Arrives source n (fun v c => v.Fine source c)
      (fun w => (r w).callRule name location mode) m := by
  obtain ⟨braces, ahead, depth⟩ := n
  refine Follows.expect_bind hm fun {m₁} hm₁ _ => ?_
  cases mode with
  | skip =>
    exact (h.arguments .skip hm₁).bind fun hm₂ _ _ => Arrives.pure hm₂ (.of_kind Kind.noConfusion)
  | execute =>
    simp only [enterCall, bind_assoc, pure_bind]
    refine Follows.bind (h.prepareCall name location hm₁)
      fun {prepared m₂} hrun hm₂ _ hprepared => ?_
    obtain ⟨p, arguments⟩ := prepared
    obtain ⟨⟨hp, harguments⟩, hplace⟩ := hprepared
    refine Follows.position_bind ?_
    by_cases hdepth : m₂.calls.depth < m₂.calls.maxDepth
    · have hpush : pushCall ⟨m₂.cursor.position, arguments⟩ location m₂ =
          .done () (m₂.calling (m₂.calls.calls.push ⟨m₂.cursor.position, arguments⟩)) := by
        simp only [pushCall, CallStack.push, if_pos hdepth]
        rfl
      refine Follows.run_bind hpush (List.prefix_refl _)
        (Follows.run_bind (seek_run hp.good.1) (List.prefix_refl _) ?_)
      refine Follows.bind
        (h.callBody ⟨hm₂, hplace⟩ (prepareCall_alive hrun) hp harguments rfl location) ?_
      rintro s m₃ - hm₃ - ⟨haims, hfine, hplace₃⟩
      exact callValue ⟨hm₃, hplace₃⟩ haims hfine
    · have hpush : pushCall ⟨m₂.cursor.position, arguments⟩ location m₂ =
          .fault (.runtime ⟨.stackOverflow m₂.calls.maxDepth, location⟩) m₂ := by
        simp only [pushCall, CallStack.push, if_neg hdepth]
      refine Follows.of_fault (fun _ => bind_fault hpush) fun j hj => ?_
      cases hj

end Rules.Lexical

/-! ## All rules -/

namespace Rules

variable {source : String} {m : Machine} {braces : List Brace}

/-- A statement of the next level, given that the rules of this one keep to the text inside of all
braces. -/
theorem opened_statement {k : Nat}
    (h : ∀ b, Rules.Lexical source k b fun w => (noted w k).inside w b) (mode : Mode)
    (hm : m.Stands source ⟨braces, .block, 0⟩) :
    Follows source none Signal.jump? (Signal.Ends source mode braces ⟨braces, .block, 0⟩)
      (fun w => (noted w (k + 1)).statement mode) m := by
  have hopened : Follows source none Signal.jump?
    (Signal.Ends source mode braces ⟨braces, .block, 0⟩)
      (fun w => (noted w k).openedStatement w mode) m :=
    ((h m.opens).statementRule mode hm rfl).congr (List.prefix_refl _) fun _ => rfl
  exact hopened.making fun hends hj => ⟨_, hends.aims _ hj⟩

theorem noted_lexical (source : String) (k : Nat) (b : Brace) :
    Rules.Lexical source k b fun w => (noted w k).inside w b := by
  have hfaithful (k : Nat) (b : Brace) (w : Lookout) {l : Nat} (hl : k ≤ l) :
      ((noted w k).inside w b).Faithful l :=
    (noted_faithful w hl).inside w b
  induction k generalizing b with
  | zero =>
    exact {
      fuel := fun w => rfl
      faithful := hfaithful 0 b
      statement := fun _ _ _ => Follows.outOfFuel.congr (List.prefix_refl _) fun _ =>
        heeding_outOfFuel rfl
      assignment := fun _ _ => Follows.outOfFuel
      conditional := fun _ _ => Follows.outOfFuel
      binary := fun _ _ _ => Follows.outOfFuel
      call := fun _ _ _ _ => Follows.outOfFuel }
  | succ k ih =>
    refine {
      fuel := fun w => rfl
      faithful := hfaithful (k + 1) b
      statement := fun {m braces} mode hm hb =>
        (opened_statement ih mode hm).taking fun {s c j} hends hj htakes => ?_
      assignment := fun mode hm => (ih b).assignmentRule mode hm
      conditional := fun mode hm => (ih b).conditionalRule mode hm
      binary := fun least mode hm => (ih b).binaryRule least mode hm
      call := fun name location mode hm => (ih .procedure).callRule name location mode hm }
    have haims := hends.aims j hj
    -- A statement that is skipped ends without a jump.
    cases mode with
    | skip =>
      rw [hends.skipped rfl] at hj
      cases hj
    | execute =>
      obtain ⟨outer, rfl⟩ := List.head?_eq_some_iff.mp (hb rfl)
      rw [target?_of_takes htakes] at haims
      exact haims

theorem noted_statement (k : Nat) (mode : Mode) (hm : m.Stands source ⟨braces, .block, 0⟩) :
    Follows source none Signal.jump? (Signal.Ends source mode braces ⟨braces, .block, 0⟩)
      (fun w => (noted w k).statement mode) m := by
  cases k with
  | zero => exact Follows.outOfFuel
  | succ k => exact opened_statement (noted_lexical source k) mode hm

end Rules
end Replay
