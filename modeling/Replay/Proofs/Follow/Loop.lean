import Replay.Proofs.Follow.Statement
/-!
Loops are run as the tree says.

A loop of the interpreter goes through its text again and again, and has to find its way: back to
where a pass starts, past a body that was left in the middle, and behind the loop after a `break`.
The walk has none of this.
-/

namespace Replay

open Exec

/-! ## Passes -/

def Walk.afterPass (rest : Walk Signal) : Pass → Walk Signal
  | .again => rest
  | .exit | .leave (.broke _) => return .normal
  | .leave signal => return signal

theorem Walk.passes_succ (pass : Walk Pass) (turns : Nat) :
    passes pass (turns + 1) = pass >>= afterPass (passes pass turns) := rfl

namespace View

variable {V : View} {i j l n : Nat} {m : Machine} {w : World}

theorem Sim.seek_bind {γ δ : Type} {F : Nat → Unit → Exec γ} {y : Walk δ}
    {R : γ → δ → Machine → World → Prop} {p : Nat}
    (h : V.Agree i m w) (hp : p ≤ m.cursor.cache.size)
    (hf : V.Agree p (m.on (m.cursor.place p)) w →
      V.Sim n (fun k => F k ()) y R (m.on (m.cursor.place p)) w) :
    V.Sim n (fun k => seek p >>= F k) y R m w :=
  lead (seek_run hp) (.same _ p) (hf (h.place hp))

/-- How a pass of a loop has ended whose text ends before token number `j`. -/
structure Passed (V : View) (j : Nat) (a b : Pass) (c : Cursor) : Prop where
  same : a = b
  held : ∀ v ∈ Reading.pass.values a, V.Held c v
  jumps : ∀ signal, a = .leave signal → signal.isInterrupt = true
  position : a = .exit → c.position = j

theorem Passed.again {c : Cursor} : V.Passed j .again .again c :=
  ⟨rfl, fun _ hv => absurd hv List.not_mem_nil, fun _ h => (by cases h), fun h => by cases h⟩

theorem Passed.exit {c : Cursor} (h : c.position = j) : V.Passed j .exit .exit c :=
  ⟨rfl, fun _ hv => absurd hv List.not_mem_nil, fun _ h => (by cases h), fun _ => h⟩

theorem Passed.leave {c : Cursor} {signal : Signal}
    (hheld : ∀ v ∈ Reading.signal.values signal, V.Held c v)
    (hjumps : signal.isInterrupt = true) : V.Passed j (.leave signal) (.leave signal) c :=
  ⟨rfl, hheld, fun _ h => Pass.leave.inj h ▸ hjumps, fun h => by cases h⟩

/-- What follows a pass: the cursor is behind the loop in the end. -/
theorem Sim.settle {S : Nat → Exec Unit} {a b : Pass} {rest : Nat → Exec Signal} {y : Walk Signal}
    (hskip : V.Finds n S () i j) (h : V.Ended (V.Passed j) a b m w)
    (hentry : i ≤ m.cursor.cache.size)
    (hrest : a = .again → V.Sim n rest y (V.Ended (V.Signalled j)) m w) :
    V.Sim n (fun k => Rules.settle i (S k) a >>= afterTurn fun _ => rest k) (Walk.afterPass y b)
      (V.Ended (V.Signalled j)) m w := by
  obtain rfl := h.result.same
  have hagree := h.agree
  cases a with
  | again => exact hrest rfl
  | exit =>
    rw [h.result.position rfl] at hagree
    exact .pure hagree.normal
  | leave signal =>
    have hstop (hjumps : signal.isInterrupt = true) : V.Ended (V.Signalled j) signal signal m w :=
      ⟨hagree, rfl, h.result.held, fun hno => by cases hjumps.symm.trans hno⟩
    cases signal with
    | normal => cases h.result.jumps _ rfl
    | broke location =>
      simp only [Rules.settle, bind_assoc]
      refine seek_bind hagree hentry fun hagree => ?_
      exact hskip.bind hagree fun _ hagree => .pure hagree.normal
    | continued location => exact .pure (hstop rfl)
    | returned value location => exact .pure (hstop rfl)

/-- The passes of a loop keep what one pass keeps if it is not the last. -/
theorem Sim.passes {P : Nat → Exec Pass} {S : Nat → Exec Unit} {y : Walk Pass} {I : Machine → Prop}
    (hskip : V.Finds n S () i j)
    (hpass : ∀ {m w}, V.Agree i m w → I m →
      V.Sim n P y (fun a b m' w' => V.Ended (V.Passed j) a b m' w' ∧ (a = .again → I m')) m w)
    (hI : ∀ {m d}, I m → I (m.on d)) (turns : Nat) :
    ∀ {t l m w}, V.Agree l m w → I m → i ≤ m.cursor.cache.size → n ≤ turns + t →
      V.Sim n (fun k => loop (Rules.passTurn i (S k) (P k)) (k - t) ()) (Walk.passes y turns)
        (V.Ended (V.Signalled j)) m w := by
  induction turns with
  | zero =>
    intro t l m w _ _ _ hn
    refine .of_none rfl fun k hk => ?_
    rw [show k - t = 0 by omega]
    rfl
  | succ turns ih =>
    intro t l m w hagree hkept hentry hn
    refine Sim.turn ?_
    simp only [Rules.passTurn, Walk.passes_succ, bind_assoc]
    refine seek_bind hagree hentry fun hagree => ?_
    refine (hpass hagree (hI hkept)).bind fun hgrown hdone => ?_
    have hentry' := Nat.le_trans hentry hgrown.size_le
    exact settle hskip hdone.1 hentry' fun ha => ih hdone.1.agree (hdone.2 ha) hentry' (by omega)

/-- Passes that have a scope of their own each. -/
theorem Sim.childPasses (hV : V.Blind) {P : Nat → ScopeId → Exec Pass} {S : Nat → Exec Unit}
    {y : Walk Pass} {kind : ScopeKind} (hskip : V.Finds n S () i j)
    (hrun : ∀ {k id m}, m.Sound → m.cursor.position = i → m.scopes.kindOf id = some kind →
      Honours .pass none (S k) m.cursor (P k id) m)
    (hpass : ∀ {id m w}, V.Agree i m w → m.scopes.kindOf id = some kind →
      V.Sim n (fun k => P k id) y (V.Ended (V.Passed j)) m w)
    {turns : Nat} (hn : n ≤ turns) (hagree : V.Agree i m w) :
    V.Sim n (fun k => (Rules.within k).passes i (S k) (Exec.currentScope >>= fun parent =>
        Exec.withChild parent kind fun scope => Exec.inScope scope (P k scope)))
      (Walk.passes (Walk.inChild y) turns) (V.Ended (V.Signalled j)) m w := by
  have hchild {m : Machine} {w : World} (hagree : V.Agree i m w) :
      V.Sim n (fun k => Exec.currentScope >>= fun parent => Exec.withChild parent kind fun scope =>
        Exec.inScope scope (P k scope))
        (Walk.inChild y) (V.Ended (V.Passed j)) m w := by
    refine Sim.inChild (S := .pass) (s := S) hV hagree (fun {k id m₁} hm hkind hcursor => ?_)
      fun hagree _ hkind _ => hpass hagree hkind
    exact hcursor ▸ (hrun hm (hcursor ▸ hagree.position) hkind).exempting _
  simp only [Rules.passes, Rules.within_fuel]
  refine Sim.passes (I := fun _ => True) hskip (fun hagree _ => ?_) (fun _ => trivial) turns
    (t := 0) hagree trivial
    (hagree.position ▸ hagree.sound.inside) hn
  exact (hchild hagree).mono fun _ hended => ⟨hended, fun _ => trivial⟩

/-! ## While loops -/

section While

variable {c : Walk Bool} {y : Walk Signal} {turns : Nat}

theorem Finds.skipWhile (hc : V.Does n parenthesizeds c i l) (h : V.Runs n braces y l j) :
    V.Finds n (fun k => (Rules.within k).skipWhile) () i j := by
  intro m w hagree
  simp only [Rules.skipWhile]
  refine hc.skips.bind hagree fun _ hagree => ?_
  exact h.skips.bind hagree fun _ hagree => .pure ⟨rfl, hagree⟩

theorem Sim.whilePass (hc : V.Does n parenthesizeds c i l) (h : V.Runs n braces y l j)
    (hagree : V.Agree i m w) :
    V.Sim n (fun k => (Rules.within k).whilePass) (Walk.whilePass c y)
      (V.Ended (V.Passed j)) m w := by
  refine (hc .execute hagree).bind fun {holds b m₁ w₁} _ hholds => ?_
  obtain ⟨rfl, hagree⟩ := hholds
  cases holds with
  | false => exact h.skips.bind hagree fun _ hagree => .pure (hagree.ended (.exit hagree.position))
  | true =>
    refine (h .execute hagree).bind fun {signal b m₂ w₂} _ hended => ?_
    obtain rfl := hended.result.same
    cases signal with
    | normal => exact .pure (hended.agree.ended .again)
    | continued location => exact .pure (hended.agree.ended .again)
    | broke location => exact .pure (hended.agree.ended (.leave hended.result.held rfl))
    | returned value location => exact .pure (hended.agree.ended (.leave hended.result.held rfl))

theorem Runs.whileLoop (hV : V.Blind) (ht : V.tape.At i (.keyword .kwWhile))
    (hc : V.Does n parenthesizeds c (i + 1) l) (h : V.Runs n braces y l j) (hn : n ≤ turns) :
    V.Runs (n + 1) statements (Walk.passes (Walk.inChild (Walk.whilePass c y)) turns) i j := by
  intro mode m w hagree
  refine Sim.succ rfl (Sim.next_bind hagree ht fun {d index} _ hagree => ?_)
  show V.Sim n (fun k => (Rules.within k).whileLoop mode) _ _ _ _
  simp only [Rules.whileLoop]
  refine Sim.position_bind hagree ?_
  cases mode with
  | skip => exact (Finds.skipWhile hc h).bind hagree fun _ hagree => .pure hagree.normal
  | execute =>
    refine Sim.childPasses hV (Finds.skipWhile hc h) (fun {k id m} hm _ _ => ?_)
      (fun hagree _ => ?_) hn hagree
    · exact (Rules.within_faithful (Nat.le_refl k)).whilePass hm
    · exact Sim.whilePass hc h hagree

end While

/-! ## Do loops -/

section Do

variable {c : Walk Bool} {y : Walk Signal} {turns : Nat}

abbrev doConditions (mode : Mode) (k : Nat) : Exec Bool := (Rules.within k).doCondition mode

theorem Does.doCondition (ht : V.tape.At i (.keyword .kwWhile))
    (hc : V.Does n parenthesizeds c (i + 1) l)
    (hend : V.tape.At l (.punct .semicolon)) : V.Does n doConditions c i (l + 1) := by
  intro mode m w hagree
  show V.Sim n (fun k => (Rules.within k).doCondition mode) _ _ _ _
  simp only [Rules.doCondition]
  refine Sim.expectKeyword_bind hagree ht fun _ hagree => ?_
  rw [← bind_pure (Walk.inMode mode c)]
  refine (hc mode hagree).bind fun _ hholds => ?_
  exact Sim.expect_bind hholds.agree hend fun _ hagree => .pure ⟨hholds.same, hagree⟩

theorem Finds.skipDo (h : V.Runs n braces y i l) (hc : V.Does n doConditions c l j) :
    V.Finds n (fun k => (Rules.within k).skipDo) () i j := by
  intro m w hagree
  simp only [Rules.skipDo]
  refine h.skips.bind hagree fun _ hagree => ?_
  exact hc.skips.bind hagree fun _ hagree => .pure ⟨rfl, hagree⟩

theorem Sim.doPassEnd (hc : V.Does n doConditions c l j) (hagree : V.Agree l m w) :
    V.Sim n (fun k => (Rules.within k).doPassEnd) (do if ← c then return .again else return .exit)
      (V.Ended (V.Passed j)) m w := by
  refine (hc .execute hagree).bind fun {holds b m₁ w₁} _ hholds => ?_
  obtain ⟨rfl, hagree⟩ := hholds
  cases holds with
  | true => exact .pure (hagree.ended .again)
  | false => exact .pure (hagree.ended (.exit hagree.position))

theorem Sim.resumePosition_bind {γ δ : Type} {F : Nat → Nat → Exec γ} {y : Walk δ}
    {R : γ → δ → Machine → World → Prop} {scope : ScopeId} {kind : ScopeKind} {p : Nat}
    (hkind : m.scopes.kindOf scope = some kind) (hp : kind.resume? = some p)
    (hf : V.Sim n (fun k => F k p) y R m w) :
    V.Sim n (fun k => Rules.resumePosition scope >>= F k) y R m w :=
  lead (Rules.resumePosition_run hkind hp) (.refl _) hf

/-- The condition is looked at also if the body was left with a `continue`. -/
theorem Sim.doPass (h : V.Runs n braces y i l) (hc : V.Does n doConditions c l j) {scope : ScopeId}
    (hagree : V.Agree i m w) (hkind : m.scopes.kindOf scope = some (.doWhile i)) :
    V.Sim n (fun k => (Rules.within k).doPass scope) (Walk.doPass y c)
      (V.Ended (V.Passed j)) m w := by
  have hbody :=
    (h .execute hagree).and (P := fun _ m' => m'.scopes.kindOf scope = some (.doWhile i))
    fun {k a m'} hdone => by
      have hd := ((Rules.within_faithful (Nat.le_refl k)).bracedStatements hagree.sound).done hdone
      exact (hd.kept.kinds scope (Option.some_ne_none _).symm).trans hkind
  have hentry : i ≤ m.cursor.cache.size := hagree.position ▸ hagree.sound.inside
  refine hbody.bind fun {signal b m₁ w₁} hgrown hdone => ?_
  obtain ⟨hended, hkind⟩ := hdone
  obtain rfl := hended.result.same
  cases signal with
  | normal => exact Sim.doPassEnd hc (hended.at rfl)
  | continued location =>
    simp only [Rules.resumePastBody, bind_assoc, pure_bind]
    refine Sim.resumePosition_bind hkind rfl ?_
    refine Sim.seek_bind hended.agree (Nat.le_trans hentry hgrown.size_le) fun hagree => ?_
    exact h.skips.bind hagree fun _ hagree => Sim.doPassEnd hc hagree
  | broke location => exact .pure (hended.agree.ended (.leave hended.result.held rfl))
  | returned value location => exact .pure (hended.agree.ended (.leave hended.result.held rfl))

theorem Runs.doLoop (hV : V.Blind) (ht : V.tape.At i (.keyword .kwDo))
    (h : V.Runs n braces y (i + 1) l) (hc : V.Does n doConditions c l j) (hn : n ≤ turns) :
    V.Runs (n + 1) statements (Walk.passes (Walk.inChild (Walk.doPass y c)) turns) i j := by
  intro mode m w hagree
  refine Sim.succ rfl (Sim.next_bind hagree ht fun {d index} _ hagree => ?_)
  show V.Sim n (fun k => (Rules.within k).doLoop mode) _ _ _ _
  simp only [Rules.doLoop]
  refine Sim.position_bind hagree ?_
  cases mode with
  | skip => exact (Finds.skipDo h hc).bind hagree fun _ hagree => .pure hagree.normal
  | execute =>
    refine Sim.childPasses hV (Finds.skipDo h hc) (fun {k id m} hm hpos hkind => ?_)
      (fun hagree hkind => ?_) hn hagree
    · exact (Rules.within_faithful (Nat.le_refl k)).doPass hm (hpos ▸ hkind)
    · exact Sim.doPass h hc hagree hkind

end Do

/-! ## For loops -/

section For

variable {holds : Walk Bool} {step : Walk Unit} {y : Walk Signal} {turns : Nat} {l' : Nat}
  {init scope : ScopeId}

abbrev forInitializers (mode : Mode) (k : Nat) : Exec Unit := (Rules.within k).forInitializer mode
abbrev forIncrements (mode : Mode) (k : Nat) : Exec Unit := (Rules.within k).forIncrement mode

/-- What a `for` loop does when it looks at its condition.  A condition that is skipped is taken to
hold. -/
structure Checks (V : View) (n : Nat) (holds : Walk Bool) (i j : Nat) : Prop where
  execute : ∀ {m w}, V.Agree i m w →
    V.Sim n (fun k => (Rules.within k).forCondition .execute) holds (V.Same j) m w
  skips : V.Finds n (fun k => (Rules.within k).forCondition .skip) true i j

theorem Finds.skipForRest (hc : V.Checks n holds i l) (hstep : V.Does n forIncrements step l l')
    (h : V.Runs n braces y l' j) : V.Finds n (fun k => (Rules.within k).skipForRest) () i j := by
  intro m w hagree
  simp only [Rules.skipForRest]
  refine hc.skips.bind hagree fun _ hagree => ?_
  refine hstep.skips.bind hagree fun _ hagree => ?_
  exact h.skips.bind hagree fun _ hagree => .pure ⟨rfl, hagree⟩

/-- Another kind for a scope, of which the walk knows nothing. -/
theorem Sim.setKind_bind (hV : V.Blind) {γ δ : Type} {F : Nat → Unit → Exec γ} {y : Walk δ}
    {R : γ → δ → Machine → World → Prop} {kind : ScopeKind} (hagree : V.Agree i m w)
    (hscope : m.scopes.contains scope = true)
    (hf : ∀ {t}, t.kindOf scope = some kind → V.Agree i { m with scopes := t } w →
      V.Sim n (fun k => F k ()) y R { m with scopes := t } w) :
    V.Sim n (fun k => Exec.changeScopes (fun t => t.setKind scope kind) >>= F k) y R m w := by
  obtain ⟨found, hfound⟩ := ScopeTree.contains_iff.mp hscope
  obtain ⟨t, hok, hput⟩ := ScopeTree.modify_put hfound fun s => { s with kind }
  obtain ⟨t', hok', hplain⟩ := ScopeTree.setKind_plain hscope kind
  obtain rfl : t = t' := Except.ok.inj (hok.symm.trans hok')
  have hrun : Exec.changeScopes (fun t => t.setKind scope kind) m =
      .done () { m with scopes := t } := by
    simp only [Exec.changeScopes, hok']
  have hgood := hagree.sound.bindings hfound
  have hsound : { m with scopes := t }.Sound :=
    (Machine.put_kept hagree.sound hfound hput rfl rfl (.inr rfl) hgood).1
  have halike : V.alike t w.scopes := hV.mpr (hplain.trans (hV.mp hagree.scopes))
  have hlike : V.Like { m with scopes := t } w :=
    hagree.toLike.withScopes halike (hagree.known.modify hok fun _ hs => hs)
  refine lead hrun (.refl _) (hf ?_ ⟨hlike, hsound, hagree.position⟩)
  rw [ScopeTree.kindOf, hput.find?, if_pos rfl]
  rfl

/-- The increment, which was passed over at the start of the pass. -/
theorem Sim.forAdvance (hstep : V.Does n forIncrements step l l') (hagree : V.Agree i m w)
    (hkind : m.scopes.kindOf scope = some (.loop l)) (hle : l ≤ m.cursor.cache.size) :
    V.Sim n (fun k => (Rules.within k).forAdvance scope) (step >>= fun _ => Pure.pure .again)
      (V.Ended (V.Passed j)) m
      w := by
  refine Sim.resumePosition_bind hkind rfl ?_
  refine Sim.seek_bind hagree hle fun hagree => ?_
  exact (hstep .execute hagree).bind fun _ hdone => .pure (hdone.agree.ended .again)

/-- A pass behind its condition. -/
theorem Sim.forBody (hstep : V.Does n forIncrements step l l') (h : V.Runs n braces y l' j)
    (hagree : V.Agree l m w) (hkind : m.scopes.kindOf scope = some (.loop l)) (b : Bool) :
    V.Sim n (fun k => (Rules.within k).forBody scope b) (Walk.forPass (Pure.pure b) step y)
      (V.Ended (V.Passed j)) m
      w := by
  have hle : l ≤ m.cursor.cache.size := hagree.position ▸ hagree.sound.inside
  have hskip := (hstep.skips hagree).and (P := fun _ m' => m'.scopes.kindOf scope = some (.loop l))
    fun {k a m'} hdone => by
      obtain ⟨d, rfl, _⟩ :=
        (Rules.within_inStep (.frame m (.bare m.cursor)) (Nat.le_refl k)).forIncrement.skim_done
          hagree.sound.inside hdone
      exact hkind
  refine Sim.scan_bind hskip fun {_ m₁} hgrown hdone => ?_
  obtain ⟨⟨_, hagree⟩, hkind⟩ := hdone
  have hle₁ := Nat.le_trans hle hgrown.size_le
  simp only [Walk.forPass, Walk.whilePass, pure_bind]
  cases b with
  | false => exact h.skips.bind hagree fun _ hagree => .pure (hagree.ended (.exit hagree.position))
  | true =>
    have hbody := (h .execute hagree).and (P := fun _ m' => m'.scopes.kindOf scope = some (.loop l))
      fun {k a m'} hdone => by
        have hd := ((Rules.within_faithful (Nat.le_refl k)).bracedStatements hagree.sound).done
          hdone
        exact (hd.kept.kinds scope (Option.some_ne_none _).symm).trans hkind
    simp only [if_true, bind_assoc]
    refine hbody.bind fun {signal b m₂ w₂} hgrown hdone => ?_
    obtain ⟨hended, hkind⟩ := hdone
    obtain rfl := hended.result.same
    have hle₂ := Nat.le_trans hle₁ hgrown.size_le
    cases signal with
    | normal => exact Sim.forAdvance hstep hended.agree hkind hle₂
    | continued location => exact Sim.forAdvance hstep hended.agree hkind hle₂
    | broke location => exact .pure (hended.agree.ended (.leave hended.result.held rfl))
    | returned value location => exact .pure (hended.agree.ended (.leave hended.result.held rfl))

theorem Sim.forPass (hV : V.Blind) (hc : V.Checks n holds i l)
    (hstep : V.Does n forIncrements step l l') (h : V.Runs n braces y l' j) (hagree : V.Agree i m w)
    (hscope : m.scopes.contains scope = true) :
    V.Sim n (fun k => (Rules.within k).forPass scope) (Walk.forPass holds step y)
      (V.Ended (V.Passed j)) m w := by
  have hcond :=
      (hc.execute hagree).and (P := fun _ m' => m'.scopes.contains scope = true)
        fun {k a m'} hdone =>
    (((Rules.within_faithful (Nat.le_refl k)).forCondition hagree.sound).done hdone).kept.contains
      hscope
  have hwalk : Walk.forPass holds step y = holds >>= fun b =>
    Walk.forPass (Pure.pure b) step y := by
    simp only [Walk.forPass, Walk.whilePass, bind_assoc, pure_bind]
  rw [hwalk]
  refine hcond.bind fun {a b m₁ w₁} _ hdone => ?_
  obtain ⟨⟨rfl, hagree⟩, hscope⟩ := hdone
  refine Sim.position_bind hagree ?_
  exact Sim.setKind_bind hV hagree hscope fun hkind hagree => Sim.forBody hstep h hagree hkind a

/-- A pass works on copies of the loop's variables. -/
theorem Sim.forCopyPass (hV : V.Blind) (hc : V.Checks n holds i l)
    (hstep : V.Does n forIncrements step l l')
    (h : V.Runs n braces y l' j) (hagree : V.Agree i m w) (hinit : m.scopes.contains init = true)
    (hscope : m.scopes.contains scope = true) :
    V.Sim n (fun k => (Rules.within k).forCopyPass init scope)
      (Walk.copying init scope (Walk.forPass holds step y))
      (V.Ending (V.Passed j)) m w := by
  obtain ⟨t, hcopy, hsound, hkept⟩ :=
    Machine.copyBindings_kept hagree.sound hinit hscope (some scope)
  have hplain : (m.scopes.copyBindings init scope).map ScopeTree.plain =
      (w.scopes.copyBindings init scope).map ScopeTree.plain := by
    rw [← ScopeTree.copyBindings_plain, ← ScopeTree.copyBindings_plain, hV.mp hagree.scopes]
  refine (Sim.changeScopes hV hagree.toLike hplain fun hok => hagree.known.copyBindings hok).bind
    fun {_ _ m₁ w₁} _ hcopied => ?_
  obtain ⟨hlike, t', hcopy', rfl⟩ := hcopied
  obtain rfl : t = t' := Except.ok.inj (hcopy.symm.trans hcopy')
  have hpass : V.Sim n (fun k => Exec.inScope scope ((Rules.within k).forPass scope))
      (Walk.inScope scope (Walk.forPass holds step y)) (V.Ending (V.Passed j))
        { m with scopes := t } w₁ := by
    refine Sim.inScope hlike.current ?_
    have hinside : V.Agree i { m with scopes := t, current := scope }
        { w₁ with current := scope } :=
      ⟨{ hlike with current := rfl }, { hsound with current := hkept.contains hscope },
        hagree.position⟩
    exact (Sim.forPass hV hc hstep h hinside (hkept.contains hscope)).mono fun _ hended =>
      ⟨hended.agree.toLike, hended.result⟩
  refine hpass.bind fun {a b m₂ w₂} _ hending => ?_
  obtain rfl := hending.result.same
  cases a with
  | exit => exact .pure hending
  | leave signal => exact .pure hending
  | again =>
    have hback : (m₂.scopes.writeBack scope init).map ScopeTree.plain =
        (w₂.scopes.writeBack scope init).map ScopeTree.plain := by
      rw [← ScopeTree.writeBack_plain, ← ScopeTree.writeBack_plain, hV.mp hending.like.scopes]
    refine (Sim.changeScopes hV hending.like hback fun hok => hending.like.known.writeBack hok).bind
      fun {_ _ m₃ w₃} _ hwritten => ?_
    exact .pure ⟨hwritten.1, .again⟩

theorem Sim.forPasses (hV : V.Blind) (hc : V.Checks n holds i l)
    (hstep : V.Does n forIncrements step l l') (h : V.Runs n braces y l' j) (hn : n ≤ turns)
    (hagree : V.Agree i m w) (hinit : m.scopes.contains init = true) :
    V.Sim n (fun k => (Rules.within k).forPasses init)
      (Walk.passes (Walk.onCopies init (Walk.forPass holds step y)) turns)
        (V.Ended (V.Signalled j)) m w := by
  refine Sim.position_bind hagree ?_
  simp only [Rules.passes, Rules.within_fuel]
  refine Sim.passes (I := fun m => m.scopes.contains init = true) (Finds.skipForRest hc hstep h)
    (fun {m w} hagree hinit => ?_) (fun hinit => hinit) turns (t := 0) hagree hinit
    (hagree.position ▸ hagree.sound.inside) hn
  have hrun {k : Nat} {p : Scope} {id : ScopeId} {t : ScopeTree} (hp : m.scopes.find? init = some p)
      (hcreated : m.scopes.Created init p (.loop i) id t) (hsound : { m with scopes := t }.Sound) :
      Honours .pass (some id) (Rules.within k).skipForRest m.cursor
        ((Rules.within k).forCopyPass init id)
        { m with scopes := t } :=
    (Rules.within_faithful (Nat.le_refl k)).forCopyPass hsound (hcreated.contains hp hinit)
      (ScopeTree.contains_of_find? hcreated.find?_self)
  refine (Sim.withChild hV hagree hinit hrun fun hp hcreated hagree => ?_).and fun {k a m'}
    hdone _ => ?_
  · exact Sim.forCopyPass hV hc hstep h hagree (hcreated.contains hp hinit)
      (ScopeTree.contains_of_find? hcreated.find?_self)
  · have hhonours : Honours .pass none (Rules.within k).skipForRest m.cursor
        (Exec.withChild init (.loop i) ((Rules.within k).forCopyPass init)) m :=
        .withChild hagree.sound hinit _ hrun
    exact (hhonours.done hdone).kept.contains hinit

theorem Runs.forLoop (hV : V.Blind) {first : Walk Unit} (ht : V.tape.At i (.keyword .kwFor))
    (hopen : V.tape.At (i + 1) (.punct .leftParen)) {e : Nat}
    (hfirst : V.Does n forInitializers first (i + 2) e) (hc : V.Checks n holds e l)
    (hstep : V.Does n forIncrements step l l') (h : V.Runs n braces y l' j) (hn : n ≤ turns) :
    V.Runs (n + 1) statements
      (Walk.currentScope >>= fun parent => Walk.withChild parent fun scope =>
      Walk.inScope scope (first >>= fun _ =>
        Walk.passes (Walk.onCopies scope (Walk.forPass holds step y)) turns)) i j := by
  intro mode m w hagree
  refine Sim.succ rfl (Sim.next_bind hagree ht fun {d index} _ hagree => ?_)
  show V.Sim n (fun k => (Rules.within k).forLoop mode) _ _ _ _
  simp only [Rules.forLoop]
  refine Sim.expect_bind hagree hopen fun _ hagree => ?_
  cases mode with
  | skip =>
    refine hfirst.skips.bind hagree fun _ hagree => ?_
    exact (Finds.skipForRest hc hstep h).bind hagree fun _ hagree => .pure hagree.normal
  | execute =>
    have hexists {m : Machine} {id : ScopeId} {kind : ScopeKind}
      (hkind : m.scopes.kindOf id = some kind) :
        m.scopes.contains id = true := by
      obtain ⟨found, hfound, _⟩ := Option.map_eq_some_iff.mp hkind
      exact ScopeTree.contains_of_find? hfound
    refine Sim.inChild (S := .signal)
        (s := fun k => (Rules.within k).forInitializer .skip >>= fun _ =>
        (Rules.within k).skipForRest >>= fun _ => pure .normal) hV hagree
      (fun {k id m₁} hm hkind hcursor => ?_) (fun {id m₁ w₁} hagree _ hkind _ => ?_)
    · have hfaithful := Rules.within_faithful (Nat.le_refl k)
      rw [← hcursor]
      exact ((hfaithful.forInitializer hm).bind (fun _ => trivial) fun hd _ =>
        hfaithful.forPasses hd.sound (hd.kept.contains (hexists hkind))).exempting _
    · have hdone :=
          (hfirst .execute hagree).and (P := fun _ m' => m'.scopes.contains id = true)
            fun {k a m'} hdone =>
        (((Rules.within_faithful (Nat.le_refl k)).forInitializer hagree.sound).done
          hdone).kept.contains (hexists hkind)
      exact hdone.bind fun _ hended => Sim.forPasses hV hc hstep h hn hended.1.agree hended.2

end For

/-! ## Parts of a for loop -/

section Parts

variable {t : Token} {y : Walk Value}

theorem Sim.expect {p : Punct} (h : V.Agree i m w) (ht : V.tape.At i (.punct p)) :
    V.Sim n (fun _ => Exec.expect p) (Pure.pure ()) (V.Same (i + 1)) m w := by
  have hsim : V.Sim n (fun _ => Exec.expect p >>= Pure.pure) (Pure.pure ()) (V.Same (i + 1)) m w :=
    expect_bind h ht fun _ hagree => .pure ⟨rfl, hagree⟩
  simpa only [bind_pure] using hsim

theorem Does.noInitializer (ht : V.tape.At i (.punct .semicolon)) :
    V.Does n forInitializers (pure ()) i (i + 1) := by
  intro mode m w hagree
  rw [Walk.inMode_unit]
  exact Sim.peek_bind hagree ht fun _ hagree => Sim.expect hagree ht

theorem Declares.initializer {z : Walk Unit} (ht : V.tape.At i (.keyword .kwVar))
    (h : V.Declares n z (i + 1) l)
    (hend : V.tape.At l (.punct .semicolon)) : V.Does n forInitializers z i (l + 1) := by
  intro mode m w hagree
  refine Sim.peek_bind hagree ht fun _ hagree => ?_
  refine Sim.next_bind hagree ht fun _ hagree => ?_
  rw [← bind_pure_unit (x := Walk.inMode mode z)]
  exact (h.does mode hagree).bind fun _ hdone => Sim.expect hdone.agree hend

theorem Reads.initializer (ht : V.tape.At i t) (hstarts : t.starts = true)
    (h : V.Reads n expressions y i l) (hend : V.tape.At l (.punct .semicolon)) :
    V.Does n forInitializers (y >>= fun _ => pure ()) i (l + 1) := by
  intro mode m w hagree
  refine Sim.peek_bind hagree ht fun {d index} _ hagree => ?_
  have hgo : V.Sim n (fun k => (Rules.within k).expression mode >>= fun _ => expect .semicolon)
      (Walk.inMode mode (y >>= fun _ => pure ())) (V.Same (l + 1)) (m.on d) w := by
    rw [Walk.inMode_seq, Walk.inMode_unit]
    exact (h mode hagree).bind fun _ hvalued => Sim.expect hvalued.agree hend
  cases t with
  | punct p => cases p <;> first | exact hgo | cases hstarts
  | keyword q => cases q <;> first | exact hgo | cases hstarts
  | _ => exact hgo

theorem Checks.nothing (ht : V.tape.At i (.punct .semicolon)) :
    V.Checks n (pure true) i (i + 1) := by
  have hfinds (mode : Mode) : V.Finds n (fun k => (Rules.within k).forCondition mode) true i
      (i + 1) := by
    intro m w hagree
    refine Sim.peek_bind hagree ht fun _ hagree => ?_
    exact Sim.expect_bind hagree ht fun _ hagree => .pure ⟨rfl, hagree⟩
  exact ⟨fun hagree => hfinds .execute hagree, hfinds .skip⟩

theorem Reads.checks (ht : V.tape.At i t) (hstarts : t.starts = true)
    (h : V.Reads n expressions y i l) (hend : V.tape.At l (.punct .semicolon)) :
    V.Checks n (y >>= fun v => Walk.ofRuntime v.condition (V.tape.marks i).location) i (l + 1) := by
  have hsign : t.isPunct .semicolon = false := Token.not_punct_of_starts hstarts rfl
  refine ⟨fun {m w} hagree => ?_, fun m w hagree => ?_⟩
  · refine Sim.peek_bind hagree ht fun _ hagree => ?_
    simp only [hsign, Bool.false_eq_true, if_false]
    refine (h .execute hagree).bind fun {a b m₁ w₁} _ hvalued => ?_
    obtain rfl := hvalued.same rfl
    rw [← bind_pure (Walk.ofRuntime a.condition _)]
    refine Sim.ofRuntime_bind hvalued.agree.fails fun {holds} _ => ?_
    exact Sim.expect_bind hvalued.agree hend fun _ hagree => .pure ⟨rfl, hagree⟩
  · refine Sim.peek_bind hagree ht fun _ hagree => ?_
    simp only [hsign, Bool.false_eq_true, if_false, pure_bind]
    refine Sim.scan_bind (h .skip hagree) fun _ hvalued => ?_
    exact Sim.expect_bind hvalued.agree hend fun _ hagree => .pure ⟨rfl, hagree⟩

theorem Does.noIncrement (ht : V.tape.At i (.punct .rightParen)) :
    V.Does n forIncrements (pure ()) i (i + 1) := by
  intro mode m w hagree
  rw [Walk.inMode_unit]
  have hclose : (Token.punct .rightParen).isPunct .rightParen = true := rfl
  exact Sim.peekIs_bind hagree ht hclose fun _ hagree => Sim.expect hagree ht

theorem Reads.increment (ht : V.tape.At i t) (hstarts : t.starts = true)
    (h : V.Reads n expressions y i l) (hend : V.tape.At l (.punct .rightParen)) :
    V.Does n forIncrements (y >>= fun _ => pure ()) i (l + 1) := by
  intro mode m w hagree
  rw [Walk.inMode_seq, Walk.inMode_unit]
  refine Sim.peekIs_bind hagree ht (Token.not_punct_of_starts hstarts rfl) fun _ hagree => ?_
  exact (h mode hagree).bind fun _ hvalued => Sim.expect hvalued.agree hend

end Parts

end View
end Replay
