import Replay.Proofs.Jumps.Expression
/-!
Courses of loops, and of what they are made of.

Braces are opened for what was announced last.  Inside of them all jumps are dealt with that they
take, and what is left of a jump leads further out.
-/

namespace Replay

open Exec

/-! ## Signals -/

namespace Signal.Ends

variable {source : String} {mode : Mode} {braces : List Brace} {n n' : Nesting} {s : Signal}
  {c : Cursor}

theorem normal (h : c.nesting source = n) : Ends source mode braces n .normal c :=
  ⟨fun _ => rfl, fun _ => h, fun _ hj => absurd hj (Option.some_ne_none _).symm, trivial⟩

/-- Where the statement would have ended does not matter for a jump. -/
theorem interrupted (h : Ends source mode braces n s c) (hs : s ≠ .normal) :
    Ends source mode braces n' s c :=
  { h with place := fun heq => absurd heq hs }

theorem block (h : Ends source mode (.block :: braces) n s c) : Ends source mode braces n s c :=
  ⟨h.skipped, h.place, h.aims, h.fine⟩

/-- A `return` leads out of loops. -/
theorem returned {i : Nat} {value : Option Value} {location : Location}
    (h : Ends source mode (.loop i :: braces) n (.returned value location) c) :
    Ends source mode braces n (.returned value location) c := by
  refine ⟨h.skipped, h.place, fun j hj => ?_, h.fine⟩
  have haims := h.aims j hj
  cases hj
  exact haims

end Signal.Ends

namespace Brace

theorem leaves_block : Brace.block.leaves = Signal.jump? := by
  funext s
  cases s <;> rfl

theorem jump_of_leaves {b : Brace} {s : Signal} {j : Jump} (h : b.leaves s = some j) :
    s.jump? = some j := by
  unfold leaves at h
  exact (Option.filter_eq_some_iff.mp h).1

end Brace

namespace Rules.Lexical

variable {source : String} {k : Nat} {b ahead : Brace} {r : Lookout → Rules} {n : Nesting}
  {m : Machine}
  {braces : List Brace} {depth : Nat}

/-! ## Clauses -/

theorem parenthesized (h : Rules.Lexical source k b r) (mode : Mode) (hm : m.Stands source n) :
    Arrives source n (fun holds _ => mode = .skip → holds = false)
      (fun w => (r w).parenthesized mode) m := by
  refine Follows.expect_bind hm fun hm₁ _ => Follows.peek_bind hm₁ fun hm₂ _ _ => ?_
  refine (h.expression mode hm₂).bind fun hm₃ _ _ => Follows.expect_bind hm₃ fun hm₄ _ => ?_
  cases mode with
  | execute => exact Arrives.ofRuntime _ hm₄ (fun _ => Mode.noConfusion) Value.condition_error
  | skip => exact Arrives.pure hm₄ fun _ => rfl

theorem declaration (h : Rules.Lexical source k b r) (mode : Mode) (hm : m.Stands source n) :
    Arrives source n anything (fun w => (r w).declaration mode) m := by
  refine Arrives.loop (I := anything) (fun hm₁ _ => ?_) h.fuel hm trivial
  have hinitial {m : Machine} (hm : m.Stands source n) :
      Arrives source n (fun found c => ∀ v, found = some v → v.Fine source c)
          (fun w => (r w).initialValue mode) m := by
    refine Follows.peekIs_bind hm (fun hm₁ _ hequals => ?_) fun hm₁ _ => ?_
    · refine Follows.sign_bind hm₁ hequals fun hm₂ _ =>
        (h.assignment mode hm₂).bind fun hm₃ _ hvalue => ?_
      refine Arrives.pure hm₃ fun v hv => ?_
      cases hv
      exact hvalue
    · refine Arrives.pure hm₁ fun v hv => ?_
      cases hv
  have hrest {m : Machine} (hm : m.Stands source n) :
      Arrives source n (fun turn c => turn.All (anything · c) (anything · c)) (fun _ => (do
        if ← peekIs .comma then
          let _ ← next
          return .again ()
        else return .stop () : Exec (Turn Unit Unit))) m := by
    refine Follows.peekIs_bind hm (fun hm₁ _ hcomma => ?_) fun hm₁ _ => Arrives.pure hm₁ trivial
    exact Follows.sign_bind hm₁ hcomma fun hm₂ _ => Arrives.pure hm₂ trivial
  refine Follows.expectIdentifier_bind hm₁ fun {name m₂} hm₂ _ =>
    (hinitial hm₂).bind fun hm₃ _ hvalue => ?_
  cases mode with
  | execute => exact (Arrives.declare name.1 name.2 hm₃ hvalue).bind fun hm₄ _ _ => hrest hm₄
  | skip => exact hrest hm₃

theorem parameterList (h : Rules.Lexical source k b r) (hm : m.Stands source n) :
    Arrives source n anything (fun w => (r w).parameterList) m := by
  have hname {n : Nesting} {m : Machine} (hm : m.Stands source n) :
      Arrives source n anything (fun _ => expectIdentifier) m := by
    rw [← bind_pure expectIdentifier]
    exact Follows.expectIdentifier_bind hm fun hm₁ _ => Arrives.pure hm₁ trivial
  refine Follows.expect_bind hm fun hm₁ _ => ?_
  exact (Arrives.closedList (fun _ _ => trivial) hname h.fuel hm₁).imp fun _ _ _ => trivial

/-! ## Braces -/

theorem bracedStatements (h : Rules.Lexical source k b r) (mode : Mode)
    (hm : m.Stands source ⟨braces, ahead, depth⟩) (hmode : mode = .execute → ahead = b) :
    Follows source none b.leaves (Signal.Ends source mode (ahead :: braces) ⟨braces, .block, 0⟩)
      (fun w => (r w).bracedStatements mode) m := by
  refine Follows.expect_bind hm fun hm₁ _ => ?_
  refine Follows.loop (J := fun _ c => c.nesting source = ⟨ahead :: braces, .block, 0⟩) ?_ h.fuel
    hm₁.toLexed hm₁.place
  rintro ⟨⟩ m₂ hm₂ - hplace
  refine Follows.peek_bind ⟨hm₂, hplace⟩ fun {m₃} hm₃ _ hpos => ?_
  split
  · next htoken =>
    rw [← hpos] at htoken
    exact Follows.sign_bind hm₃ htoken fun hm₄ _ =>
      Follows.pure hm₄.toLexed (Signal.Ends.normal hm₄.place)
  · exact Follows.failParse _ _
  · refine Follows.bind (h.statement mode hm₃ fun hexecute => congrArg some (hmode hexecute))
      fun {s m₄} _ hm₄ _ hs => ?_
    cases s with
    | normal => exact Follows.pure hm₄ (hs.place rfl)
    | broke location => exact Follows.pure_of hm₄ (hs.interrupted Signal.noConfusion) fun _ hj => hj
    | continued location =>
      exact Follows.pure_of hm₄ (hs.interrupted Signal.noConfusion) fun _ hj => hj
    | returned value location =>
      exact Follows.pure_of hm₄ (hs.interrupted Signal.noConfusion) fun _ hj => hj

/-- Nothing is made of braces that are skipped. -/
theorem skippedStatements (h : Rules.Lexical source k b r)
    (hm : m.Stands source ⟨braces, ahead, depth⟩) :
    Arrives source ⟨braces, .block, 0⟩ (fun s _ => s = .normal)
      (fun w => (r w).bracedStatements .skip) m := by
  have hskip := h.bracedStatements .skip hm Mode.noConfusion
  refine (hskip.passing fun hs hj => ?_).imp fun s c hs =>
    ⟨hs.skipped rfl, hs.place (hs.skipped rfl)⟩
  rw [hs.skipped rfl] at hj
  cases hj

theorem block (h : Rules.Lexical source k .block r) (mode : Mode)
    (hm : m.Stands source ⟨braces, .block, depth⟩) :
    Follows source none Signal.jump? (Signal.Ends source mode braces ⟨braces, .block, 0⟩)
      (fun w => (r w).block mode) m := by
  rw [← Brace.leaves_block]
  refine Follows.imp ?_ fun s c hs => Signal.Ends.block hs
  cases mode with
  | skip => exact h.bracedStatements .skip hm fun _ => rfl
  | execute =>
    refine Follows.currentScope_bind
      (Follows.inChild hm.toLexed hm.sound.current (fun w {id m₁} hm₁ _ hcursor => ?_)
        fun {id m₁} hm₁ _ hcursor =>
          h.bracedStatements .execute ⟨hm₁, hcursor ▸ hm.place⟩ fun _ => rfl)
    exact (((h.faithful w (Nat.le_refl k)).bracedStatements hm₁).exempting (some id)).tidy

end Rules.Lexical

/-! ## Passes -/

namespace Pass

def leaves (b : Brace) : Pass → Option Jump
  | leave s => b.leaves s
  | _ => none

/-- How a pass ends, if these are the braces around the loop.  After a `break` it does not matter
where. -/
def Ends (source : String) (braces : List Brace) : Pass → Cursor → Prop
  | again, _ => True
  | exit, c => c.nesting source = ⟨braces, .block, 0⟩
  | leave s, c =>
    (∃ location, s = .broke location) ∨ s.Ends source .execute braces ⟨braces, .block, 0⟩ c

theorem Ends.signal {source : String} {braces : List Brace} {s : Signal} {c : Cursor}
    (h : Ends source braces (.leave s) c) (hs : ∀ location, s ≠ .broke location) :
    s.Ends source .execute braces ⟨braces, .block, 0⟩ c := by
  rcases h with ⟨location, heq⟩ | hends
  · exact absurd heq (hs location)
  · exact hends

end Pass

namespace Rules.Lexical

variable {source : String} {k i : Nat} {b ahead : Brace} {r : Lookout → Rules} {n : Nesting}
  {m : Machine}
  {braces : List Brace} {depth : Nat}

/-- A pass that is over after a `break` or `return` in its body. -/
theorem bodyPass {f : Lookout → Signal → Exec Pass} (h : Rules.Lexical source k (.loop i) r)
    (hm : m.Stands source ⟨braces, .loop i, depth⟩)
    (hnormal : ∀ {m₁}, (r .none).bracedStatements .execute m = .done .normal m₁ →
      m₁.Stands source ⟨braces, .block, 0⟩ →
      Follows source none (Pass.leaves (.loop i)) (Pass.Ends source braces)
      (fun w => f w .normal) m₁)
    (hcontinued : ∀ {location m₁},
      (r .none).bracedStatements .execute m = .done (.continued location) m₁ →
      m₁.Lexed source →
      Follows source none (Pass.leaves (.loop i)) (Pass.Ends source braces)
      (fun w => f w (.continued location)) m₁)
    (hbroke : ∀ w location, f w (.broke location) = pure (.leave (.broke location)))
    (hreturned : ∀ w value location,
      f w (.returned value location) = pure (.leave (.returned value location))) :
    Follows source none (Pass.leaves (.loop i)) (Pass.Ends source braces)
      (fun w => (r w).bracedStatements .execute >>= f w) m := by
  refine Follows.bind (h.bracedStatements .execute hm fun _ => rfl) fun {s m₁} hrun hm₁ _ hs => ?_
  cases s with
  | normal => exact hnormal hrun ⟨hm₁, hs.place rfl⟩
  | continued location => exact hcontinued hrun hm₁
  | broke location =>
    simp only [hbroke]
    exact Follows.pure_of hm₁ (.inl ⟨location, rfl⟩) fun _ hj => hj
  | returned value location =>
    simp only [hreturned]
    exact Follows.pure_of hm₁ (.inr hs.returned) fun _ hj => hj

/-- The passes of a loop.  All of them start at the place where the first one does. -/
theorem passes (h : Rules.Lexical source k (.loop i) r) {skipRest : Lookout → Exec Unit}
    {pass : Lookout → Exec Pass} (hm : m.Stands source n)
    (hskip : ∀ {m₁}, m₁.Stands source n → Arrives source ⟨braces, .block, 0⟩ anything skipRest m₁)
    (htidy : ∀ {m₁}, m₁.Sound → m.Kept none m₁ → m₁.cursor.position = m.cursor.position →
      (pass .none).Tidy none m₁)
    (hpass : ∀ {m₁}, m₁.Stands source n → m.Kept none m₁ → m₁.cursor.position = m.cursor.position →
      Follows source none (Pass.leaves (.loop i)) (Pass.Ends source braces) pass m₁) :
    Follows source none Signal.jump? (Signal.Ends source .execute braces ⟨braces, .block, 0⟩)
      (fun w => (r w).passes m.cursor.position (skipRest w) (pass w)) m := by
  have hentry {m₁ : Machine} (hk : m.Kept none m₁) : m.cursor.position ≤ m₁.cursor.cache.size :=
    Nat.le_trans hm.sound.inside (size_le_of_cache_le hk.cache)
  simp only [Rules.passes, h.fuel]
  suffices hloop : ∀ {m₁}, m₁.Lexed source → m.Kept none m₁ →
      Follows source none Signal.jump? (Signal.Ends source .execute braces ⟨braces, .block, 0⟩)
        (fun w => loop (passTurn m.cursor.position (skipRest w) (pass w)) k ()) m₁ from
        hloop hm.toLexed (.refl _ _)
  clear h
  induction k with
  | zero => exact fun _ _ => Follows.outOfFuel
  | succ k ih =>
    intro m₁ hm₁ hk
    simp only [loop_succ, passTurn, bind_assoc]
    refine Follows.seek_bind hm₁ (hentry hk) hm.place fun {m₂} hm₂ heq => ?_
    have hk₂ : m.Kept none m₂ := hk.trans (heq ▸ .placed _)
    have hpos₂ : m₂.cursor.position = m.cursor.position := by
      rw [heq]
      rfl
    refine Follows.bind (hpass hm₂ hk₂ hpos₂) fun {p m₃} hrun hm₃ _ hp => ?_
    have hk₃ := hk₂.trans ((htidy hm₂.sound hk₂ hpos₂).done hrun).2
    cases p with
    | again => exact ih hm₃ hk₃
    | exit => exact Follows.pure_of hm₃ (.normal hp) fun _ hj => by cases hj
    | leave s =>
      cases s with
      | broke location =>
        simp only [settle, bind_assoc, pure_bind]
        refine Follows.seek_bind hm₃ (hentry hk₃) hm.place fun hm₄ _ => ?_
        exact (hskip hm₄).bind fun hm₅ _ _ => Follows.pure hm₅.toLexed (.normal hm₅.place)
      | normal => exact Follows.pure_of hm₃ (hp.signal fun _ => Signal.noConfusion) fun _ hj => hj
      | continued location =>
        exact Follows.pure_of hm₃ (hp.signal fun _ => Signal.noConfusion) fun _ hj =>
          Brace.jump_of_leaves hj
      | returned value location =>
        exact Follows.pure_of hm₃ (hp.signal fun _ => Signal.noConfusion) fun _ hj =>
          Brace.jump_of_leaves hj

/-- Every pass has a scope of its own. -/
theorem childPasses (h : Rules.Lexical source k (.loop i) r) {s : Exec Unit} {kind : ScopeKind}
    {skipRest : Lookout → Exec Unit} {body : Lookout → ScopeId → Exec Pass} (hm : m.Stands source n)
    (hskip : ∀ {m₁}, m₁.Stands source n → Arrives source ⟨braces, .block, 0⟩ anything skipRest m₁)
    (hhonours : ∀ w {id m₁}, m₁.Sound → m₁.scopes.kindOf id = some kind →
      m₁.cursor.position = m.cursor.position → Honours .pass none s m₁.cursor (body w id) m₁)
    (hbody : ∀ {id m₁}, m₁.Stands source n → m₁.scopes.kindOf id = some kind →
      m₁.cursor.position = m.cursor.position →
      Follows source none (Pass.leaves (.loop i)) (Pass.Ends source braces)
      (fun w => body w id) m₁) :
    Follows source none Signal.jump? (Signal.Ends source .execute braces ⟨braces, .block, 0⟩)
      (fun w => (r w).passes m.cursor.position (skipRest w) do
        Exec.withChild (← currentScope) kind fun scope => inScope scope (body w scope)) m := by
  refine h.passes hm hskip (fun {m₁} hm₁ _ hpos => ?_) fun {m₁} hm₁ _ hpos =>
    Follows.currentScope_bind ?_
  · have hpass : Honours .pass none s m₁.cursor
        (currentScope >>= fun current =>
          Exec.withChild current kind fun scope => inScope scope (body .none scope)) m₁ := by
      refine Honours.currentScope_bind
        (Honours.inChild hm₁ hm₁.current kind fun {id m₂} hm₂ hkind hcursor => ?_)
      exact hcursor ▸ (hhonours .none hm₂ hkind (hcursor ▸ hpos)).exempting (some id)
    exact hpass.tidy
  · refine Follows.inChild hm₁.toLexed hm₁.sound.current (fun w {id m₂} hm₂ hkind hcursor => ?_)
      fun hm₂ hkind hcursor => ?_
    · exact ((hhonours w hm₂ hkind (hcursor ▸ hpos)).exempting (some id)).tidy
    · exact hbody ⟨hm₂, hcursor ▸ hm₁.place⟩ hkind (hcursor ▸ hpos)

/-! ## While loops -/

theorem skipWhile (h : Rules.Lexical source k b r) (hm : m.Stands source ⟨braces, ahead, depth⟩) :
    Arrives source ⟨braces, .block, 0⟩ anything (fun w => (r w).skipWhile) m := by
  refine (h.parenthesized .skip hm).bind fun hm₁ _ _ => ?_
  exact (h.skippedStatements hm₁).bind fun hm₂ _ _ => Arrives.pure hm₂ trivial

theorem whilePass (h : Rules.Lexical source k (.loop i) r)
    (hm : m.Stands source ⟨braces, .loop i, depth⟩) :
    Follows source none (Pass.leaves (.loop i)) (Pass.Ends source braces)
      (fun w => (r w).whilePass) m := by
  refine (h.parenthesized .execute hm).bind fun {holds m₁} hm₁ _ _ => ?_
  cases holds with
  | true =>
    exact h.bodyPass hm₁ (fun _ hm₂ => Follows.pure hm₂.toLexed trivial)
      (fun _ hm₂ => Follows.pure hm₂ trivial)
      (fun _ _ => rfl) fun _ _ _ => rfl
  | false => exact (h.skippedStatements hm₁).bind fun hm₂ _ _ => Follows.pure hm₂.toLexed hm₂.place

theorem whileLoop (h : Rules.Lexical source k (.loop i) r) (mode : Mode)
    (hm : m.Stands source ⟨braces, .loop i, depth⟩) :
    Follows source none Signal.jump? (Signal.Ends source mode braces ⟨braces, .block, 0⟩)
      (fun w => (r w).whileLoop mode) m := by
  refine Follows.position_bind ?_
  cases mode with
  | skip => exact (h.skipWhile hm).bind fun hm₁ _ _ => Follows.pure hm₁.toLexed (.normal hm₁.place)
  | execute =>
    exact h.childPasses hm h.skipWhile
      (fun w {_ _} hm₁ _ _ => (h.faithful w (Nat.le_refl k)).whilePass hm₁)
      fun hm₁ _ _ => h.whilePass hm₁

/-! ## Do loops -/

theorem doCondition (h : Rules.Lexical source k b r) (mode : Mode)
    (hm : m.Stands source ⟨braces, ahead, 0⟩) :
    Arrives source ⟨braces, .block, 0⟩ anything (fun w => (r w).doCondition mode) m := by
  refine Follows.expectKeyword_bind hm fun hm₁ _ =>
    (h.parenthesized mode hm₁).bind fun hm₂ _ _ => ?_
  exact Follows.expect_bind hm₂ fun hm₃ _ => Arrives.pure hm₃ trivial

theorem skipDo (h : Rules.Lexical source k b r) (hm : m.Stands source ⟨braces, ahead, depth⟩) :
    Arrives source ⟨braces, .block, 0⟩ anything (fun w => (r w).skipDo) m := by
  refine (h.skippedStatements hm).bind fun hm₁ _ _ => ?_
  exact (h.doCondition .skip hm₁).bind fun hm₂ _ _ => Arrives.pure hm₂ trivial

/-- After `continue` the body is gone through once more, from where the scope says it starts. -/
theorem doPass (h : Rules.Lexical source k (.loop i) r)
    (hm : m.Stands source ⟨braces, .loop i, depth⟩)
    {scope : ScopeId} (hkind : m.scopes.kindOf scope = some (.doWhile m.cursor.position)) :
    Follows source none (Pass.leaves (.loop i)) (Pass.Ends source braces)
      (fun w => (r w).doPass scope) m := by
  have hend {m₁ : Machine} (hm₁ : m₁.Stands source ⟨braces, .block, 0⟩) :
      Follows source none (Pass.leaves (.loop i)) (Pass.Ends source braces)
          (fun w => (r w).doPassEnd) m₁ := by
    refine (h.doCondition .execute hm₁).bind fun {holds m₂} hm₂ _ _ => ?_
    cases holds with
    | true => exact Follows.pure hm₂.toLexed trivial
    | false => exact Follows.pure hm₂.toLexed hm₂.place
  refine h.bodyPass hm (fun _ hm₁ => hend hm₁) (fun {location m₁} hrun hm₁ => ?_) (fun _ _ => rfl)
    fun _ _ _ => rfl
  have hd := ((h.faithful .none (Nat.le_refl k)).bracedStatements hm.sound).done hrun
  have hkind₁ := (hd.kept.kinds scope (Option.some_ne_none _).symm).trans hkind
  have hentry : m.cursor.position ≤ m₁.cursor.cache.size :=
    Nat.le_trans hm.sound.inside (size_le_of_cache_le hd.kept.cache)
  simp only [resumePastBody, bind_assoc, pure_bind]
  refine Follows.run_bind (resumePosition_run hkind₁ rfl) (List.prefix_refl _) ?_
  refine Follows.seek_bind hm₁ hentry hm.place fun hm₂ _ => ?_
  exact (h.skippedStatements hm₂).bind fun hm₃ _ _ => hend hm₃

theorem doLoop (h : Rules.Lexical source k (.loop i) r) (mode : Mode)
    (hm : m.Stands source ⟨braces, .loop i, depth⟩) :
    Follows source none Signal.jump? (Signal.Ends source mode braces ⟨braces, .block, 0⟩)
      (fun w => (r w).doLoop mode) m := by
  refine Follows.position_bind ?_
  cases mode with
  | skip => exact (h.skipDo hm).bind fun hm₁ _ _ => Follows.pure hm₁.toLexed (.normal hm₁.place)
  | execute =>
    exact h.childPasses hm h.skipDo
      (fun w {_ _} hm₁ hkind hpos => (h.faithful w (Nat.le_refl k)).doPass hm₁ (hpos ▸ hkind))
      fun hm₁ hkind hpos => h.doPass hm₁ (hpos ▸ hkind)

/-! ## For loops -/

theorem forInitializer (h : Rules.Lexical source k b r) (mode : Mode)
    (hm : m.Stands source ⟨braces, ahead, depth + 1⟩) :
    Arrives source ⟨braces, ahead, depth + 1⟩ anything (fun w => (r w).forInitializer mode) m := by
  have hend {m₁ : Machine} (hm₁ : m₁.Stands source ⟨braces, ahead, depth + 1⟩) :
      Arrives source ⟨braces, ahead, depth + 1⟩ anything (fun _ => expect .semicolon) m₁ :=
    Arrives.expect (p := .semicolon) hm₁
  refine Follows.peek_bind hm fun {m₁} hm₁ _ hpos => ?_
  split
  · next htoken =>
    refine Follows.next_bind hm₁ fun {m₂} hm₂ _ _ _ => ?_
    rw [hpos, Stream.token, htoken] at hm₂
    exact (h.declaration mode hm₂).bind fun hm₃ _ _ => hend hm₃
  · exact hend hm₁
  · exact (h.expression mode hm₁).bind fun hm₂ _ _ => hend hm₂

theorem forCondition (h : Rules.Lexical source k b r) (mode : Mode)
    (hm : m.Stands source ⟨braces, ahead, depth + 1⟩) :
    Arrives source ⟨braces, ahead, depth + 1⟩ anything (fun w => (r w).forCondition mode) m := by
  have hend {m₁ : Machine} (hm₁ : m₁.Stands source ⟨braces, ahead, depth + 1⟩) (holds : Bool) :
      Arrives source ⟨braces, ahead, depth + 1⟩ anything (fun _ => (do
        expect .semicolon
        return holds : Exec Bool)) m₁ :=
    Follows.expect_bind hm₁ fun hm₂ _ => Arrives.pure hm₂ trivial
  refine Follows.peek_bind hm fun {m₁} hm₁ _ _ => ?_
  split
  · exact hend hm₁ true
  · refine (h.expression mode hm₁).bind fun {value m₂} hm₂ _ _ => ?_
    cases mode with
    | execute =>
      refine (Arrives.ofRuntime (A := anything) _ hm₂ (fun _ => trivial) Value.condition_error).bind
        fun hm₃ _ _ => ?_
      exact hend hm₃ _
    | skip => exact hend hm₂ true

theorem forIncrement (h : Rules.Lexical source k b r) (mode : Mode)
    (hm : m.Stands source ⟨braces, ahead, depth + 1⟩) :
    Arrives source ⟨braces, ahead, depth⟩ anything (fun w => (r w).forIncrement mode) m := by
  have hend {m₁ : Machine} (hm₁ : m₁.Stands source ⟨braces, ahead, depth + 1⟩) :
      Arrives source ⟨braces, ahead, depth⟩ anything (fun _ => expect .rightParen) m₁ :=
    Arrives.expect (p := .rightParen) hm₁
  refine Follows.peekIs_bind hm (fun hm₁ _ _ => hend hm₁) fun hm₁ _ => ?_
  exact (h.expression mode hm₁).bind fun hm₂ _ _ => hend hm₂

theorem skipForRest (h : Rules.Lexical source k b r)
    (hm : m.Stands source ⟨braces, ahead, depth + 1⟩) :
    Arrives source ⟨braces, .block, 0⟩ anything (fun w => (r w).skipForRest) m := by
  refine (h.forCondition .skip hm).bind fun hm₁ _ _ =>
    (h.forIncrement .skip hm₁).bind fun hm₂ _ _ => ?_
  exact (h.skippedStatements hm₂).bind fun hm₃ _ _ => Arrives.pure hm₃ trivial

/-- The increment is gone to after the body, and the scope says where it is. -/
theorem forBody (h : Rules.Lexical source k (.loop i) r)
    (hm : m.Stands source ⟨braces, .loop i, depth + 1⟩) {scope : ScopeId} (holds : Bool)
    (hkind : m.scopes.kindOf scope = some (.loop m.cursor.position)) :
    Follows source none (Pass.leaves (.loop i)) (Pass.Ends source braces)
      (fun w => (r w).forBody scope holds) m := by
  have hfaithful := h.faithful .none (Nat.le_refl k)
  refine Follows.bind (h.forIncrement .skip hm) fun {_ m₁} hskip hm₁ _ ⟨_, hplace⟩ => ?_
  cases holds with
  | false =>
    exact (h.skippedStatements ⟨hm₁, hplace⟩).bind fun hm₂ _ _ => Follows.pure hm₂.toLexed hm₂.place
  | true =>
    obtain ⟨d, rfl, hg, _⟩ :=
      (hfaithful.inStep hm.sound).forIncrement.skim_done hm.sound.inside hskip
    have hadvance {s : Signal} {m₂ : Machine}
      (hrun : (r .none).bracedStatements .execute (m.on d) = .done s m₂)
        (hm₂ : m₂.Lexed source) :
        Follows source none (Pass.leaves (.loop i)) (Pass.Ends source braces)
            (fun w => (r w).forAdvance scope) m₂ := by
      have hd := (hfaithful.bracedStatements hm₁.sound).done hrun
      have hkind₂ := (hd.kept.kinds scope (Option.some_ne_none _).symm).trans hkind
      have hentry : m.cursor.position ≤ m₂.cursor.cache.size :=
        Nat.le_trans hm.sound.inside (Nat.le_trans hg.size_le (size_le_of_cache_le hd.kept.cache))
      refine Follows.run_bind (resumePosition_run hkind₂ rfl) (List.prefix_refl _) ?_
      refine Follows.seek_bind hm₂ hentry hm.place fun hm₃ _ => ?_
      exact (h.forIncrement .execute hm₃).bind fun hm₄ _ _ => Follows.pure hm₄.toLexed trivial
    exact h.bodyPass ⟨hm₁, hplace⟩ (fun hrun hm₂ => hadvance hrun hm₂.toLexed) hadvance
      (fun _ _ => rfl)
      fun _ _ _ => rfl

theorem forPass (h : Rules.Lexical source k (.loop i) r)
    (hm : m.Stands source ⟨braces, .loop i, depth + 1⟩)
    {scope : ScopeId} (hscope : m.scopes.contains scope = true) :
    Follows source none (Pass.leaves (.loop i)) (Pass.Ends source braces)
      (fun w => (r w).forPass scope) m := by
  refine Follows.bind (h.forCondition .execute hm) fun {holds m₁} hrun hm₁ _ ⟨_, hplace⟩ =>
    Follows.position_bind ?_
  have hd := ((h.faithful .none (Nat.le_refl k)).forCondition hm.sound).done hrun
  obtain ⟨found, hfound⟩ := ScopeTree.contains_iff.mp (hd.kept.contains hscope)
  obtain ⟨t, hok, hput⟩ := ScopeTree.modify_put hfound fun s =>
    { s with kind := .loop m₁.cursor.position }
  have hgood := hm₁.sound.bindings hfound
  obtain ⟨hsound, _⟩ := Machine.put_kept hm₁.sound hfound hput rfl rfl (.inr rfl) hgood
  have hmarked : { m₁ with scopes := t }.Stands source ⟨braces, .loop i, depth + 1⟩ :=
    ⟨⟨hsound, hm₁.tracks, hm₁.headed.modify hok fun _ hs => hs⟩, hplace⟩
  refine Follows.changeScopes_bind hok (h.forBody hmarked holds ?_)
  show t.kindOf scope = _
  rw [ScopeTree.kindOf, hput.find?, if_pos rfl]
  rfl

theorem forCopyPass (h : Rules.Lexical source k (.loop i) r)
    (hm : m.Stands source ⟨braces, .loop i, depth + 1⟩) {init scope : ScopeId}
    (hinit : m.scopes.contains init = true) (hscope : m.scopes.contains scope = true) :
    Follows source none (Pass.leaves (.loop i)) (Pass.Ends source braces)
      (fun w => (r w).forCopyPass init scope) m := by
  obtain ⟨t, hcopy, hsound, hk⟩ := Machine.copyBindings_kept hm.sound hinit hscope (some scope)
  have hinside : { m with scopes := t, current := scope }.Sound :=
    { hsound with current := hk.contains hscope }
  have hhonours := (h.faithful .none (Nat.le_refl k)).forPass hinside (hk.contains hscope)
  have hpass :=
    h.forPass ⟨⟨hinside, hm.tracks, hm.headed.copyBindings hcopy⟩, hm.place⟩ (hk.contains hscope)
  refine Follows.changeScopes_bind hcopy (Follows.bind (Follows.inScope hpass fun hrun => ?_)
    fun {p m₁} hrun hm₁ _ hp => ?_)
  · exact (hhonours.done hrun).kept.contains hsound.current
  · cases p with
    | again =>
      have hd := (Honours.inScope hsound hhonours).done hrun
      have hinit₁ := hd.kept.contains (hk.contains hinit)
      have hscope₁ := hd.kept.contains (hk.contains hscope)
      obtain ⟨t₁, hback, hsound₁, _⟩ := Machine.writeBack_kept hm₁.sound hscope₁ hinit₁ (some scope)
      exact Follows.changeScopes_bind hback
        (Follows.pure ⟨hsound₁, hm₁.tracks, hm₁.headed.writeBack hback⟩ trivial)
    | exit => exact Follows.pure hm₁ hp
    | leave s => exact Follows.pure_of hm₁ hp fun _ hj => hj

theorem forPasses (h : Rules.Lexical source k (.loop i) r)
    (hm : m.Stands source ⟨braces, .loop i, depth + 1⟩)
    {init : ScopeId} (hinit : m.scopes.contains init = true) :
    Follows source none Signal.jump? (Signal.Ends source .execute braces ⟨braces, .block, 0⟩)
      (fun w => (r w).forPasses init) m := by
  refine Follows.position_bind ?_
  refine h.passes hm h.skipForRest (fun {m₁} hm₁ hk _ => ?_) fun {m₁} hm₁ hk _ => ?_
  · have hpass : Honours .pass none (Rules.within k).skipForRest m₁.cursor
        (Exec.withChild init (.loop m.cursor.position) ((r .none).forCopyPass init)) m₁ := by
      refine .withChild hm₁ (hk.contains hinit) _ fun hp hc hsound => ?_
      exact (h.faithful .none (Nat.le_refl k)).forCopyPass hsound
        (hc.contains hp (hk.contains hinit))
        (ScopeTree.contains_of_find? hc.find?_self)
    exact hpass.tidy
  · refine Follows.withChild hm₁.toLexed (hk.contains hinit) (fun w {_ _ _} hp hc hsound => ?_)
      fun hp hc hlexed => ?_
    · exact ((h.faithful w (Nat.le_refl k)).forCopyPass hsound (hc.contains hp (hk.contains hinit))
        (ScopeTree.contains_of_find? hc.find?_self)).tidy
    · exact h.forCopyPass ⟨hlexed, hm₁.place⟩ (hc.contains hp (hk.contains hinit))
        (ScopeTree.contains_of_find? hc.find?_self)

theorem forLoop (h : Rules.Lexical source k (.loop i) r) (mode : Mode)
    (hm : m.Stands source ⟨braces, .loop i, depth⟩) :
    Follows source none Signal.jump? (Signal.Ends source mode braces ⟨braces, .block, 0⟩)
      (fun w => (r w).forLoop mode) m := by
  refine Follows.expect_bind hm fun {m₁} hm₁ _ => ?_
  cases mode with
  | skip =>
    refine (h.forInitializer .skip hm₁).bind fun hm₂ _ _ =>
      (h.skipForRest hm₂).bind fun hm₃ _ _ => ?_
    exact Follows.pure hm₃.toLexed (.normal hm₃.place)
  | execute =>
    have hcontains {id : ScopeId} {m₂ : Machine} (hkind : m₂.scopes.kindOf id = some .forInit) :
        m₂.scopes.contains id = true := by
      obtain ⟨found, hfound, _⟩ := Option.map_eq_some_iff.mp hkind
      exact ScopeTree.contains_of_find? hfound
    have hinitializer (w : Lookout) {m₂ : Machine} (hm₂ : m₂.Sound) :=
      (h.faithful w (Nat.le_refl k)).forInitializer hm₂
    refine Follows.currentScope_bind (Follows.inChild hm₁.toLexed hm₁.sound.current
      (fun w {id m₂} hm₂ hkind _ => ?_) fun {id m₂} hm₂ hkind hcursor => ?_)
    · have hbody := (hinitializer w hm₂).bind (fun _ => trivial) fun hd _ =>
        (h.faithful w (Nat.le_refl k)).forPasses hd.sound (hd.kept.contains (hcontains hkind))
      exact (hbody.exempting (some id)).tidy
    · refine Follows.bind (h.forInitializer .execute ⟨hm₂, hcursor ▸ hm₁.place⟩) fun hrun hm₃ _
        ⟨_, hplace⟩ => ?_
      exact h.forPasses ⟨hm₃, hplace⟩
        (((hinitializer .none hm₂.sound).done hrun).kept.contains (hcontains hkind))

end Rules.Lexical

end Replay
