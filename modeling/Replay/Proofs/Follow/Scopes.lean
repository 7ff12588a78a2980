import Replay.Proofs.Follow.Expression
/-!
Scopes that both sides make and give up.

The interpreter notes in a scope what it belongs to, and the walk does not.  Apart from that the two
make the same scopes in the same slots, and so they find the same names in them, and have no slot
left at the same time.
-/

namespace Replay

open Exec

/-! ## Results of two requests -/

section

variable {ε α β γ : Type} {f : α → γ} {g : β → γ} {r : Except ε α} {r' : Except ε β}

theorem exists_ok_of_map (h : r.map f = r'.map g) {a : α} (hr : r = .ok a) :
    ∃ b, r' = .ok b ∧ f a = g b := by
  subst hr
  cases r' with
  | error e => cases h
  | ok b => exact ⟨b, rfl, Except.ok.inj h⟩

theorem eq_error_of_map (h : r.map f = r'.map g) {e : ε} (hr : r = .error e) : r' = .error e := by
  subst hr
  cases r' with
  | error e' => exact congrArg Except.error (Except.error.inj h).symm
  | ok b => cases h

end

/-- Updates that differ in nothing but kinds. -/
theorem UpdatesAlike.of_plain {alike : ScopeTree → ScopeTree → Prop}
    {r r' : Except InternalError (Option ScopeTree)}
    (halike : ∀ t u : ScopeTree, t.plain = u.plain → alike t u)
    (h : r.map (Option.map ScopeTree.plain) = r'.map (Option.map ScopeTree.plain)) :
    UpdatesAlike alike r r' := by
  cases hr : r with
  | error e => rw [eq_error_of_map h hr]; rfl
  | ok found =>
    obtain ⟨found', hr', hfound⟩ := exists_ok_of_map h hr
    rw [hr']
    cases found with
    | none =>
      cases found' with
      | none => trivial
      | some u => cases hfound
    | some t =>
      cases found' with
      | none => cases hfound
      | some u => exact halike t u (Option.some.inj hfound)

namespace View

variable {V : View} {i j n : Nat} {m : Machine} {w : World} {α β γ δ : Type}

/-- Trees of scopes that differ in nothing but kinds are taken for the same. -/
def Blind (V : View) : Prop := ∀ ⦃t u : ScopeTree⦄, V.alike t u ↔ t.plain = u.plain

structure Ended (V : View) (P : α → β → Cursor → Prop) (a : α) (b : β) (m : Machine) (w : World) :
    Prop where
  agree : V.Agree m.cursor.position m w
  result : P a b m.cursor

structure Ending (V : View) (P : α → β → Cursor → Prop) (a : α) (b : β) (m : Machine) (w : World) :
    Prop where
  like : V.Like m w
  result : P a b m.cursor

theorem Like.withScopes (h : V.Like m w) {t u : ScopeTree} (ha : V.alike t u)
    (hk : t.Holds V.known) :
    V.Like { m with scopes := t } { w with scopes := u } :=
  ⟨h.grown, ha, h.current, h.depth, h.maxDepth, h.out, hk⟩

def Cleans (V : View) (x : Exec Unit) (y : Walk Unit) (Q : Machine → World → Prop) (m : Machine)
    (w : World) : Prop :=
  (∃ m' w', x m = .done () m' ∧ y w = some (.ok (), w') ∧ m.cursor.Grown m'.cursor ∧ Q m' w') ∨
    ∃ e m' w', x m = .fault e m' ∧ y w = some (.error e, w') ∧ V.Fails m' w'

namespace Sim

variable {X : Nat → Exec α} {y : Walk β} {P : α → β → Cursor → Prop}
  {Q Q' : α → β → Machine → World → Prop}

/-- What is done in any case. -/
theorem ensuring {x' : Exec Unit} {y' : Walk Unit} (h : V.Sim n X y Q m w)
    (hdone : ∀ {a b m₁ w₁}, Q a b m₁ w₁ → V.Cleans x' y' (Q' a b) m₁ w₁)
    (hfault : ∀ {k e m₁ w₁}, X k m = .fault e m₁ → V.Fails m₁ w₁ → V.Cleans x' y' V.Fails m₁ w₁) :
    V.Sim n (fun k => Exec.ensuring (X k) x') (Walk.ensuring y y') Q' m w := by
  cases hy : y w with
  | none =>
    have hnone : Walk.ensuring y y' w = none := by simp only [Walk.ensuring, hy]
    exact of_none hnone fun k hk => ensuring_outOfFuel (h.spent hy k hk)
  | some r =>
    obtain ⟨result, w₁⟩ := r
    cases result with
    | ok b =>
      obtain ⟨a, m₁, hX, hgrown, hQ⟩ := h.done hy
      rcases hdone hQ with ⟨m', w', hx', hy', hgrown', hQ'⟩ | ⟨e, m', w', hx', hy', hfails⟩
      · have hW : Walk.ensuring y y' w = some (.ok b, w') := by simp only [Walk.ensuring, hy, hy']
        have hX' : Converges (fun k => Exec.ensuring (X k) x') m (.done a m') :=
          hX.through ensuring_outOfFuel fun hx => ensuring_done hx hx'
        exact of_ok hW ⟨a, m', hX', hgrown.trans hgrown', hQ'⟩
      · have hW : Walk.ensuring y y' w = some (.error e, w') := by
          simp only [Walk.ensuring, hy, hy']
        have hX' : Converges (fun k => Exec.ensuring (X k) x') m (.fault e m') :=
          hX.through ensuring_outOfFuel fun hx => by simp only [Exec.ensuring, hx, hx']
        exact of_error hW ⟨m', hX', hfails⟩
    | error e =>
      obtain ⟨m₁, hX, hF⟩ := h.fault hy
      obtain ⟨k, hk⟩ := hX.exists_run
      rcases hfault hk hF with ⟨m', w', hx', hy', _, hfails⟩ | ⟨e', m', w', hx', hy', hfails⟩
      · have hW : Walk.ensuring y y' w = some (.error e, w') := by
          simp only [Walk.ensuring, hy, hy']
        have hX' : Converges (fun k => Exec.ensuring (X k) x') m (.fault e m') :=
          hX.through ensuring_outOfFuel fun hx => ensuring_fault hx hx'
        exact of_error hW ⟨m', hX', hfails⟩
      · have hW : Walk.ensuring y y' w = some (.error e', w') := by
          simp only [Walk.ensuring, hy, hy']
        have hX' : Converges (fun k => Exec.ensuring (X k) x') m (.fault e' m') :=
          hX.through ensuring_outOfFuel fun hx => by simp only [Exec.ensuring, hx, hx']
        exact of_error hW ⟨m', hX', hfails⟩

/-- In another scope. -/
theorem inScope {scope : ScopeId} (hcurrent : m.current = w.current)
    (h : V.Sim n X y (V.Ending P) { m with current := scope } { w with current := scope }) :
    V.Sim n (fun k => Exec.inScope scope (X k)) (Walk.inScope scope y) (V.Ending P) m w := by
  have hout {k : Nat} (hx : X k { m with current := scope } = .outOfFuel) : Exec.inScope scope (X k)
      m = .outOfFuel := by
    simp only [Exec.inScope, hx]
  cases hy : y { w with current := scope } with
  | none =>
    have hnone : Walk.inScope scope y w = none := by simp only [Walk.inScope, hy]
    exact of_none hnone fun k hk => hout (h.spent hy k hk)
  | some r =>
    obtain ⟨result, w₁⟩ := r
    have hW : Walk.inScope scope y w = some (result, { w₁ with current := w.current }) := by
      simp only [Walk.inScope, hy]
    cases result with
    | ok b =>
      obtain ⟨a, m₁, hX, hgrown, hlike, hP⟩ := h.done hy
      refine of_ok hW ⟨a, { m₁ with current := m.current }, ?_, hgrown,
        { hlike with current := hcurrent }, hP⟩
      exact hX.through hout fun hx => by simp only [Exec.inScope, hx]
    | error e =>
      obtain ⟨m₁, hX, hF⟩ := h.fault hy
      refine of_error hW ⟨{ m₁ with current := m.current }, ?_, hF.scopes, hF.out⟩
      exact hX.through hout fun hx => by simp only [Exec.inScope, hx]

/-- Changes to the tree that come out alike. -/
theorem changeScopes (hV : V.Blind) {f g : ScopeTree → Except InternalError ScopeTree}
    (h : V.Like m w) (hfg : (f m.scopes).map ScopeTree.plain = (g w.scopes).map ScopeTree.plain)
    (hknown : ∀ {t}, f m.scopes = .ok t → t.Holds V.known) :
    V.Sim n (fun _ => Exec.changeScopes f) (Walk.changeScopes g)
      (fun _ _ m' w' => V.Like m' w' ∧ ∃ t, f m.scopes = .ok t ∧ m' = { m with scopes := t }) m
        w := by
  cases hf : f m.scopes with
  | error e =>
    have hx : Exec.changeScopes f m = .fault (.internal e) m := by simp only [Exec.changeScopes, hf]
    have hy : Walk.changeScopes g w = some (.error (.internal e), w) := by
      simp only [Walk.changeScopes, eq_error_of_map hfg hf]
    exact of_fault hx hy h.fails
  | ok t =>
    obtain ⟨u, hg, hplain⟩ := exists_ok_of_map hfg hf
    have hx : Exec.changeScopes f m = .done () { m with scopes := t } := by
      simp only [Exec.changeScopes, hf]
    have hy : Walk.changeScopes g w = some (.ok (), { w with scopes := u }) := by
      simp only [Walk.changeScopes, hg]
    exact of_done hx hy (.refl _) ⟨h.withScopes (hV.mpr hplain) (hknown hf), t, rfl, rfl⟩

end Sim

/-- Giving up a scope. -/
theorem Fails.destroy (hV : V.Blind) (h : V.Fails m w) (id : ScopeId) :
    (∃ t u, m.scopes.destroy id = .ok t ∧ w.scopes.destroy id = .ok u ∧ V.alike t u) ∨
      ∃ e, m.scopes.destroy id = .error e ∧ w.scopes.destroy id = .error e := by
  have hplain : (m.scopes.destroy id).map ScopeTree.plain =
      (w.scopes.destroy id).map ScopeTree.plain := by
    rw [← ScopeTree.destroy_plain, ← ScopeTree.destroy_plain, hV.mp h.scopes]
  cases hm : m.scopes.destroy id with
  | error e => exact .inr ⟨e, rfl, eq_error_of_map hplain hm⟩
  | ok t =>
    obtain ⟨u, hu, hplain⟩ := exists_ok_of_map hplain hm
    exact .inl ⟨t, u, rfl, hu, hV.mpr hplain⟩

theorem Cleans.destroyScope (hV : V.Blind) (id : ScopeId) {Q : Machine → World → Prop}
    (h : V.Fails m w)
    (hQ : ∀ {t u}, m.scopes.destroy id = .ok t → V.alike t u →
      Q { m with scopes := t } { w with scopes := u }) :
    V.Cleans (destroyScope id) (Walk.destroyScope id) Q m w := by
  rcases h.destroy hV id with ⟨t, u, hm, hw, halike⟩ | ⟨e, hm, hw⟩
  · refine .inl ⟨{ m with scopes := t }, { w with scopes := u }, destroyScope_done hm, ?_, .refl _,
      hQ hm halike⟩
    simp only [Walk.destroyScope, Walk.changeScopes, hw]
  · refine .inr ⟨.internal e, m, w, ?_, ?_, h⟩
    · simp only [Exec.destroyScope, Exec.changeScopes, hm]
    · simp only [Walk.destroyScope, Walk.changeScopes, hw]

namespace Sim

/-- A scope that both sides make, or that neither of them can make. -/
theorem createScope_bind (hV : V.Blind) {F : Nat → ScopeId → Exec γ} {g : ScopeId → Walk δ}
    {R : γ → δ → Machine → World → Prop} {parent : ScopeId} {kind : ScopeKind} (h : V.Agree i m w)
    (hparent : m.scopes.contains parent = true)
    (hf : ∀ {p id t u}, m.scopes.find? parent = some p → m.scopes.Created parent p kind id t →
      V.Agree i { m with scopes := t } { w with scopes := u } →
      V.Sim n (fun k => F k id) (g id) R { m with scopes := t } { w with scopes := u }) :
    V.Sim n (fun k => createScope parent kind >>= F k) (Walk.createScope parent >>= g) R m w := by
  obtain ⟨p, hp⟩ := ScopeTree.contains_iff.mp hparent
  have hplain : (m.scopes.create parent kind).map (fun made => (made.1, made.2.plain)) =
      (w.scopes.create parent .block).map fun made => (made.1, made.2.plain) := by
    rw [← ScopeTree.create_plain, ← ScopeTree.create_plain, hV.mp h.scopes]
  rcases ScopeTree.create_cases h.sound.stocked hp kind with ⟨id, t, hok, hc⟩ | ⟨hno, _⟩
  · obtain ⟨⟨id', u⟩, hu, hsame⟩ := exists_ok_of_map hplain hok
    obtain ⟨rfl, htu⟩ := Prod.mk.inj hsame
    have hx : createScope parent kind m = .done id { m with scopes := t } := by
      simp only [createScope, hok]
    have hy : Walk.createScope parent w = some (.ok id, { w with scopes := u }) := by
      simp only [Walk.createScope, hu]
    have hagree : V.Agree i { m with scopes := t } { w with scopes := u } :=
      ⟨h.toLike.withScopes (hV.mpr htu) (h.known.create hok),
        Machine.created_sound h.sound hp hc, h.position⟩
    exact done_bind hx hy (.refl _) (hf hp hc hagree)
  · have hx : createScope parent kind m = .fault (.internal ScopeTree.arenaFull) m := by
      simp only [createScope, hno]
    have hy : Walk.createScope parent w = some (.error (.internal ScopeTree.arenaFull), w) := by
      simp only [Walk.createScope, eq_error_of_map hplain hno]
    exact fault_bind hx hy h.fails

/-- A scope for a while. -/
theorem withChild (hV : V.Blind) {X : Nat → ScopeId → Exec α} {y : ScopeId → Walk β}
    {P : α → β → Cursor → Prop} {parent : ScopeId} {kind : ScopeKind} {ρ : Type} {S : Reading α ρ}
    {s : Nat → Exec ρ} (h : V.Agree i m w) (hparent : m.scopes.contains parent = true)
    (hrun : ∀ {k p id t}, m.scopes.find? parent = some p → m.scopes.Created parent p kind id t →
      { m with scopes := t }.Sound →
      Honours S (some id) (s k) m.cursor (X k id) { m with scopes := t })
    (hbody : ∀ {p id t u}, m.scopes.find? parent = some p → m.scopes.Created parent p kind id t →
      V.Agree i { m with scopes := t } { w with scopes := u } →
      V.Sim n (fun k => X k id) (y id) (V.Ending P) { m with scopes := t } { w with scopes := u }) :
    V.Sim n (fun k => Exec.withChild parent kind (X k)) (Walk.withChild parent y)
      (V.Ended P) m w := by
  have hending : V.Sim n (fun k => Exec.withChild parent kind (X k)) (Walk.withChild parent y)
      (V.Ending P) m w := by
    refine createScope_bind hV h hparent fun {p id t u} hp hc hagree =>
      ensuring (hbody hp hc hagree) (fun {a b m₁ w₁} hending => ?_) fun _ hfails => ?_
    · refine .destroyScope hV id hending.like.fails fun hdestroy halike => ?_
      exact ⟨hending.like.withScopes halike (hending.like.known.destroy hdestroy), hending.result⟩
    · exact .destroyScope hV id hfails fun _ halike => ⟨halike, hfails.out⟩
  have hsound {k : Nat} {a : α} {m' : Machine}
      (hdone : Exec.withChild parent kind (X k) m = .done a m') : m'.Sound := by
    have hhonours : Honours S none (s k) m.cursor (Exec.withChild parent kind (X k)) m :=
      .withChild h.sound hparent kind hrun
    exact (hhonours.done hdone).sound
  exact (hending.and hsound).mono fun _ hdone => ⟨⟨hdone.1.like, hdone.2, rfl⟩, hdone.1.result⟩

/-- In a new scope below the current one. -/
theorem inChild (hV : V.Blind) {X : Nat → ScopeId → Exec α} {y : ScopeId → Walk β}
    {P : α → β → Cursor → Prop}
    {kind : ScopeKind} {ρ : Type} {S : Reading α ρ} {s : Nat → Exec ρ} (h : V.Agree i m w)
    (hrun : ∀ {k id m₁}, m₁.Sound → m₁.scopes.kindOf id = some kind → m₁.cursor = m.cursor →
      Honours S (some id) (s k) m.cursor (X k id) m₁)
    (hbody : ∀ {id m₁ w₁}, V.Agree i m₁ w₁ → m₁.current = id → m₁.scopes.kindOf id = some kind →
      m₁.cursor = m.cursor → V.Sim n (fun k => X k id) (y id) (V.Ended P) m₁ w₁) :
    V.Sim n (fun k => Exec.currentScope >>= fun parent =>
        Exec.withChild parent kind fun scope => Exec.inScope scope (X k scope))
      (Walk.currentScope >>= fun parent => Walk.withChild parent fun scope =>
        Walk.inScope scope (y scope))
      (V.Ended P) m w := by
  have hy : Walk.currentScope w = some (.ok m.current, w) := by rw [h.current]; rfl
  refine done_bind (x := Exec.currentScope) rfl hy (.refl _) ?_
  have hkind {p : Scope} {id : ScopeId} {t : ScopeTree}
    (hc : m.scopes.Created m.current p kind id t) :
      t.kindOf id = some kind := by
    rw [ScopeTree.kindOf, hc.find?_self]
    rfl
  refine withChild (S := S) (s := s) hV h h.sound.current
    (fun {k p id t} _ hc hsound => .inScope hsound ?_)
    fun {p id t u} _ hc hagree => inScope h.current ?_
  · exact hrun { hsound with current := ScopeTree.contains_of_find? hc.find?_self } (hkind hc) rfl
  · have hinside : V.Agree i { m with scopes := t, current := id }
        { w with scopes := u, current := id } :=
      ⟨{ hagree.toLike with current := rfl },
        { hagree.sound with current := ScopeTree.contains_of_find? hc.find?_self }, hagree.position⟩
    exact (hbody hinside rfl (hkind hc) rfl).mono fun _ hended =>
      ⟨hended.agree.toLike, hended.result⟩

/-! ## Declarations and output -/

theorem declare (hV : V.Blind) {name : String} {value : Option Value} {location : Location}
    (h : V.Agree i m w) (hv : ∀ v, value = some v → V.Held m.cursor v) :
    V.Sim n (fun _ => Exec.declare name value location) (Walk.declare name value location)
      (fun _ _ m' w' => V.Agree i m' w' ∧ m'.cursor = m.cursor) m w := by
  have hrun : Honours .any none (Pure.pure ()) m.cursor (Exec.declare name value location) m :=
    .declare h.sound name location fun v hv' => (hv v hv').1
  have hx : Exec.declare name value location m =
    m.updated (.runtime ⟨.redefinedIdentifier name, location⟩)
      (m.scopes.declare? m.current name value) := rfl
  have hy : Walk.declare name value location w =
    w.updated (.runtime ⟨.redefinedIdentifier name, location⟩)
      (w.scopes.declare? w.current name value) := rfl
  have hplain : (m.scopes.declare? m.current name value).map (Option.map ScopeTree.plain) =
      (w.scopes.declare? m.current name value).map (Option.map ScopeTree.plain) := by
    rw [← ScopeTree.declare?_plain, ← ScopeTree.declare?_plain, hV.mp h.scopes]
  exact update h hx (h.current ▸ hy) (.of_plain (fun _ _ hsame => hV.mpr hsame) hplain)
    (fun hdone => (hrun.done hdone).sound)
    fun hok => h.known.declare? (fun v hv' => (hv v hv').2) hok

theorem write {text : String} (h : V.Agree i m w) :
    V.Sim n (fun _ => Exec.write text) (Walk.write text)
      (fun _ _ m' w' => V.Agree i m' w' ∧ m'.cursor = m.cursor) m w := by
  have hrun : Honours .any none (Pure.pure ()) m.cursor (Exec.write text) m := .write h.sound text
  cases hout : m.out.write text with
  | mk result out =>
    have hout' : w.out.write text = (result, out) := h.out ▸ hout
    cases result with
    | ok u =>
      have hx : Exec.write text m = .done () { m with out } := by simp only [Exec.write, hout]
      have hy : Walk.write text w = some (.ok (), { w with out }) := by
        simp only [Walk.write, hout']
      exact of_done hx hy (.refl _)
        ⟨⟨{ h.toLike with out := rfl }, (hrun.done hx).sound, h.position⟩, rfl⟩
    | error e =>
      have hx : Exec.write text m = .fault (.output e) { m with out } := by
        simp only [Exec.write, hout]
      have hy : Walk.write text w = some (.error (.output e), { w with out }) := by
        simp only [Walk.write, hout']
      exact of_fault hx hy ⟨h.scopes, rfl⟩

end Sim
end View
end Replay
