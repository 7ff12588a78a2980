import Replay.Proofs.Arena.Environment
import Replay.Proofs.Follow
/-!
Walks in scopes that are inside one another.

A walk that neither calls a procedure nor prints changes nothing but the scopes.  While each of
these is inside the next one, all there is to say about such a walk is what it makes of the names in
them.
-/

namespace Replay

open ScopeTree (Environment maxSlots)

/-- In the scope `current` the walk comes to the result `a`, and from the scopes `env` it leads to
the scopes `env'`.  Nothing else is changed. -/
def Walk.Leads {α : Type} (y : Walk α) (current : ScopeId) (env : Environment) (a : α)
    (env' : Environment) : Prop :=
  ∀ w : World, w.current = current → w.scopes.Nested env →
    ∃ scopes, y w = some (.ok a, { w with scopes }) ∧ scopes.Nested env'

namespace Walk.Leads

variable {α β : Type} {id init current : ScopeId} {b b' : Bindings}
  {env env' env₁ env₂ env₃ : Environment}
  {name : String} {value : Value}

/-! ## Primitives -/

theorem pure (a : α) : (pure a : Walk α).Leads current env a env :=
  fun w _ hn => ⟨w.scopes, rfl, hn⟩

theorem bind {x : Walk α} {f : α → Walk β} {a : α} {c : β} (hx : x.Leads current env a env₁)
    (hf : (f a).Leads current env₁ c env₂) : (x >>= f).Leads current env c env₂ := by
  intro w hw hn
  obtain ⟨t₁, hx, hn₁⟩ := hx w hw hn
  obtain ⟨t₂, hf, hn₂⟩ := hf { w with scopes := t₁ } hw hn₁
  exact ⟨t₂, (bind_ok hx).trans hf, hn₂⟩

theorem ofRuntime {result : Except RuntimeCause α} {a : α} (h : result = .ok a)
    (location : Location) :
    (Walk.ofRuntime result location).Leads current env a env := by
  rw [h]
  exact pure a

theorem currentScope : Walk.currentScope.Leads current env current env := by
  rintro w rfl hn
  exact ⟨w.scopes, rfl, hn⟩

theorem changeScopes {f : ScopeTree → Except InternalError ScopeTree}
    (h : ∀ t : ScopeTree, t.Nested env → ∃ t', f t = .ok t' ∧ t'.Nested env') :
    (Walk.changeScopes f).Leads current env () env' := by
  intro w _ hn
  obtain ⟨t', hok, hn'⟩ := h w.scopes hn
  refine ⟨t', ?_, hn'⟩
  simp only [Walk.changeScopes, hok]

theorem inScope {body : Walk α} {a : α} (h : body.Leads id env a env') :
    (Walk.inScope id body).Leads current env a env' := by
  intro w _ hn
  obtain ⟨t', hok, hn'⟩ := h { w with current := id } rfl hn
  refine ⟨t', ?_, hn'⟩
  simp only [Walk.inScope, hok]

/-- The scope that is made for the walk is gone behind it, with the names that were declared
there. -/
theorem withChild {body : ScopeId → Walk α} {a : α} {x : ScopeId × Bindings}
    (hroom : env.length + 1 < maxSlots)
    (h : ∀ child, ∃ names, (body child).Leads current ((child, .empty) :: (id, b) :: env) a
      ((child, names) :: x :: env')) :
    (Walk.withChild id body).Leads current ((id, b) :: env) a (x :: env') := by
  intro w hw hn
  obtain ⟨child, t₁, hcreate, hn₁⟩ := hn.create hroom .block
  obtain ⟨names, hbody⟩ := h child
  obtain ⟨t₂, hbody, hn₂⟩ := hbody { w with scopes := t₁ } hw hn₁
  obtain ⟨t₃, hdestroy, hn₃⟩ := hn₂.destroy
  have hmade : createScope id w = some (.ok child, { w with scopes := t₁ }) := by
    simp only [createScope, hcreate]
  refine ⟨t₃, ?_, hn₃⟩
  rw [Walk.withChild, bind_ok hmade]
  simp only [ensuring, hbody, destroyScope, Walk.changeScopes, hdestroy]

/-! ## Names -/

theorem declare {value : Option Value} (h : b.declare? name value = some b') (location : Location) :
    (Walk.declare name value location).Leads id ((id, b) :: env) () ((id, b') :: env) := by
  intro w hw hn
  obtain ⟨t', hok, hn'⟩ := hn.declare? h
  refine ⟨t', ?_, hn'⟩
  simp only [Walk.declare, hw, hok]

theorem lookup (name : String) :
    (Walk.lookup name).Leads id ((id, b) :: env) (Environment.find? ((id, b) :: env) name)
      ((id, b) :: env) := by
  rintro w rfl hn
  refine ⟨w.scopes, ?_, hn⟩
  simp only [Walk.lookup, hn.lookup]

theorem readVariable (h : Environment.find? ((id, b) :: env) name = some ⟨name, some value⟩)
    (location : Location) :
    (Walk.readVariable name location).Leads id ((id, b) :: env) value ((id, b) :: env) := by
  refine (lookup name).bind ?_
  rw [h]
  exact pure value

theorem store {binding : Binding} (h : Environment.find? ((id, b) :: env) name = some binding)
    (value : Value) (location : Location) :
    (Walk.store name value location).Leads id ((id, b) :: env) ()
      (Environment.set ((id, b) :: env) name (some value)) := by
  intro w hw hn
  obtain ⟨t', hok, hn'⟩ := hn.assign? h (some value)
  refine ⟨t', ?_, hn'⟩
  simp only [Walk.store, hw, hok]

/-! ## Expressions -/

variable {invoke : Invocation} {place : Place}

theorem literal {l : Literal} (h : l.value? = some value) :
    ((Expr.literal place l).eval invoke).Leads current env value env := by
  rw [Expr.eval, h]
  exact pure value

theorem read (h : Environment.find? ((id, b) :: env) name = some ⟨name, some value⟩) :
    ((Expr.read place name).eval invoke).Leads id ((id, b) :: env) value ((id, b) :: env) := by
  rw [Expr.eval]
  exact readVariable h place.location

theorem binary {op : BinaryOperator} {x y : Expr Place} {left right : Value}
    (hx : (x.eval invoke).Leads current env left env₁) (hop : op.settledBy left = false)
    (hy : (y.eval invoke).Leads current env₁ right env₂)
    (hvalue : op.apply left right = .ok value) :
    ((Expr.binary op place x y).eval invoke).Leads current env value env₂ := by
  rw [Expr.eval]
  refine hx.bind ?_
  rw [operate_eq, hop]
  exact hy.bind (ofRuntime hvalue place.location)

theorem assignPlain {target : Place} {sign : AssignmentSign} (hsign : sign.meaning = .plain)
    {e : Expr Place} {binding : Binding} (he : (e.eval invoke).Leads id env value ((id, b) :: env₁))
    (h : Environment.find? ((id, b) :: env₁) name = some binding) :
    ((Expr.assign target name place sign e).eval invoke).Leads id env value
      (Environment.set ((id, b) :: env₁) name (some value)) := by
  rw [Expr.eval, hsign]
  refine he.bind
    (.bind (a := value) (.bind (lookup name) ?_)
      ((store h value target.location).bind (pure value)))
  rw [h]
  exact pure value

theorem assignCompound {target : Place} {sign : AssignmentSign} {op : BinaryOperator}
    (hsign : sign.meaning = .compound op) {e : Expr Place} {old right : Value}
    (he : (e.eval invoke).Leads id env right ((id, b) :: env₁))
    (h : Environment.find? ((id, b) :: env₁) name = some ⟨name, some old⟩)
    (hvalue : op.apply old right = .ok value) :
    ((Expr.assign target name place sign e).eval invoke).Leads id env value
      (Environment.set ((id, b) :: env₁) name (some value)) := by
  rw [Expr.eval, hsign]
  refine he.bind
    (.bind (a := value) (.bind (lookup name) ?_)
      ((store h value target.location).bind (pure value)))
  rw [h]
  exact ofRuntime hvalue place.location

theorem holds {c : Condition Place} {test : Bool}
    (h : (c.test.eval invoke).Leads current env (.boolean test) env') :
    (c.holds invoke).Leads current env test env' :=
  h.bind (ofRuntime rfl c.start.location)

/-! ## Statements -/

variable {turns : Nat}

theorem expression {e : Expr Place} (h : (e.eval invoke).Leads current env value env') :
    ((Stmt.expression e).run invoke turns).Leads current env .normal env' := by
  rw [Stmt.run]
  exact h.bind (pure _)

/-- Printing a value that the sink takes changes the sink as well. -/
theorem eval {e : Expr Place} {w : World} {out : Sink}
    (he : (e.eval invoke).Leads w.current env value env')
    (hn : w.scopes.Nested env) (hout : w.out.write (value.text ++ "\n") = (.ok (), out)) :
    ∃ scopes, (Stmt.eval e).run invoke turns w = some (.ok .normal, { w with scopes, out }) ∧
      scopes.Nested env' := by
  obtain ⟨t, hvalue, hn'⟩ := he w rfl hn
  refine ⟨t, ?_, hn'⟩
  have hwrite : write (value.text ++ "\n") { w with scopes := t } =
      some (.ok (), { w with scopes := t, out }) := by
    simp only [write, hout]
  rw [Stmt.run, bind_ok hvalue, bind_ok hwrite]
  rfl

theorem declareOne {e : Expr Place}
    (he : (e.eval invoke).Leads id ((id, b) :: env) value ((id, b) :: env))
    (h : b.declare? name (some value) = some b') :
    (Declarator.runAll invoke [⟨place, name, some e⟩]).Leads id ((id, b) :: env) ()
      ((id, b') :: env) :=
  .bind (.bind (he.bind (pure (some value))) (declare h place.location)) (pure ())

theorem declaration {first : Declarator Place} {rest : List (Declarator Place)}
    (h : (Declarator.runAll invoke (first :: rest)).Leads current env () env') :
    ((Stmt.declare first rest).run invoke turns).Leads current env .normal env' := by
  rw [Stmt.run]
  exact h.bind (pure _)

theorem outermost {s : Stmt Place} (h : (s.run invoke turns).Leads current env .normal env') :
    (s.run invoke turns >>= Walk.outermost).Leads current env () env' :=
  h.bind (pure ())

theorem runAll_nil : (Stmt.runAll invoke turns []).Leads current env .normal env := by
  rw [Stmt.runAll]
  exact pure _

theorem runAll_cons {s : Stmt Place} {rest : List (Stmt Place)} {signal : Signal}
    (hs : (s.run invoke turns).Leads current env .normal env₁)
    (hrest : (Stmt.runAll invoke turns rest).Leads current env₁ signal env₂) :
    (Stmt.runAll invoke turns (s :: rest)).Leads current env signal env₂ := by
  rw [Stmt.runAll]
  exact hs.bind hrest

/-! ## Loops -/

theorem forPass_again {holds : Walk Bool} {step : Walk Unit} {body : Walk Signal}
    (hholds : holds.Leads current env true env₁) (hbody : body.Leads current env₁ .normal env₂)
    (hstep : step.Leads current env₂ () env₃) :
    (Walk.forPass holds step body).Leads current env .again env₃ := by
  have hwhile : (whilePass holds body).Leads current env .again env₂ :=
    hholds.bind (hbody.bind (pure _))
  exact hwhile.bind (hstep.bind (pure _))

theorem forPass_exit {holds : Walk Bool} {step : Walk Unit} {body : Walk Signal}
    (hholds : holds.Leads current env false env₁) :
    (Walk.forPass holds step body).Leads current env .exit env₁ := by
  have hwhile : (whilePass holds body).Leads current env .exit env₁ := hholds.bind (pure _)
  exact hwhile.bind (pure _)

/-- Behind a pass that is not the last one the variables of the loop have the values of the
copies. -/
theorem onCopies_again {pass : Walk Pass} (hroom : env.length + 1 < maxSlots)
    (h : ∀ child, ∃ copies b₁, pass.Leads child ((child, b) :: (init, b) :: env) .again
      ((child, copies) :: (init, b₁) :: env') ∧ b₁.updateFrom copies = b') :
    (Walk.onCopies init pass).Leads init ((init, b) :: env) .again ((init, b') :: env') := by
  refine withChild hroom fun child => ?_
  obtain ⟨copies, b₁, hpass, rfl⟩ := h child
  refine ⟨copies, .bind (changeScopes fun t hn => hn.copyBindings) (.bind hpass.inScope ?_)⟩
  exact .bind (changeScopes fun t hn => hn.writeBack) (pure _)

theorem onCopies_exit {pass : Walk Pass} (hroom : env.length + 1 < maxSlots)
    (h : ∀ child, ∃ copies, pass.Leads child ((child, b) :: (init, b) :: env) .exit
      ((child, copies) :: (init, b') :: env')) :
    (Walk.onCopies init pass).Leads init ((init, b) :: env) .exit ((init, b') :: env') := by
  refine withChild hroom fun child => ?_
  obtain ⟨copies, hpass⟩ := h child
  exact ⟨copies, .bind (changeScopes fun t hn => hn.copyBindings) (.bind hpass.inScope (pure _))⟩

/-- A loop whose passes lead through the given scopes one after the other, until a pass is the last
one. -/
theorem passes {pass : Walk Pass} (stage : Nat → Environment) {n : Nat}
    (hagain : ∀ k, k < n → pass.Leads current (stage k) .again (stage (k + 1)))
    (hexit : pass.Leads current (stage n) .exit env') {k turns : Nat} (hk : k ≤ n)
    (hturns : n - k < turns) :
    (Walk.passes pass turns).Leads current (stage k) .normal env' := by
  -- One turn is used up by every pass, so as many are left as are needed for the passes to come and
  -- the last one.
  induction turns generalizing k with
  | zero => omega
  | succ turns ih =>
    rw [Walk.passes]
    by_cases hlast : k = n
    · subst hlast
      exact hexit.bind (pure _)
    · have hlt : k < n := by omega
      exact (hagain k hlt).bind (ih (by omega) (by omega))

end Walk.Leads
end Replay
