import Replay.Proofs.Contract
/-!
Contracts of what has no text: names, output, and scopes that are made for a while.

A scope that is made for a part of a rule is gone afterwards, however that part ended.  It was a
scope without children when it was made, and as every part leaves the tree as it was it is one when
it is given up.
-/

namespace Replay

open Exec
open ScopeTree (arenaFull maxSlots)

variable {α β : Type} {R : Reading α β} {exempt : Option ScopeId} {s : Exec β} {c : Cursor}
  {x : Exec α}
  {m m' : Machine} {a : α} {b : β} {e : Error}

namespace Honours

theorem of_done (hx : x m = .done a m') (hsound : m'.Sound) (hk : m.Kept exempt m')
    (hcalls : m'.calls = m.calls) (hcursor : m'.cursor = m.cursor) (hb : R.twin a b)
    (hgood : ∀ v ∈ R.values a, v.Good m.cursor.cache)
    (ha : R.complete a) : Honours R exempt (Pure.pure b) m.cursor x m where
  done h := by
    cases hx.symm.trans h
    refine ⟨hsound, hk, hcalls, hcursor ▸ hgood, hcursor ▸ .refl _, fun _ => ⟨b, hb, ?_⟩,
      fun h => absurd ha h⟩
    rw [hcursor]
    rfl
  fault h := nomatch hx.symm.trans h

/-! ## Names and output -/

theorem lookup (hm : m.Sound) (name : String) :
    Honours (.plain fun found => (found.bind Binding.value).toList) exempt (Pure.pure b) m.cursor
      (lookup name) m := by
  obtain ⟨found, hok, hfound⟩ := ScopeTree.lookup_ok hm.connected hm.current name
  refine of_done (a := found) (by simp only [Exec.lookup, hok]) hm (.refl _ _)
    rfl rfl trivial (fun v hv => ?_)
    trivial
  obtain ⟨binding, hbinding, hvalue⟩ := Option.bind_eq_some_iff.mp (Option.mem_toList.mp hv)
  obtain ⟨owner, scope, hs, hb⟩ := hfound binding hbinding
  exact (hm.bindings hs).find? hb hvalue

theorem readVariable (hm : m.Sound) (name : String) (location : Location) :
    Honours .value exempt (Pure.pure b) m.cursor (readVariable name location) m := by
  refine (lookup hm name).idle_bind (fun _ => trivial) fun {found m₁} hd hcursor => ?_
  match found with
  | some ⟨_, some value⟩ => exact pure hd.sound trivial hd.good trivial
  | some ⟨_, none⟩ => exact raise hd.sound _ _
  | none => exact raise hd.sound _ _

theorem declare (hm : m.Sound) (name : String) {value : Option Value} (location : Location)
    (hv : ∀ v, value = some v → v.Good m.cursor.cache) :
    Honours .any exempt (Pure.pure b) m.cursor (declare name value location) m := by
  obtain ⟨scope, hs⟩ := ScopeTree.contains_iff.mp hm.current
  rcases ScopeTree.declare?_cases hs name value with hno | ⟨bindings, t, hok, hb, hput⟩
  · refine of_fault (by simp only [Exec.declare, hno]; rfl) ?_
    exact ⟨hm, .refl _ _, fun _ => rfl, fun h => (nomatch h), fun h => (nomatch h)⟩
  · obtain ⟨hsound, hk⟩ :=
      Machine.put_kept hm hs hput rfl rfl (.inl rfl) ((hm.bindings hs).declare? hv hb)
    exact of_done (a := ()) (by simp only [Exec.declare, hok]) hsound hk rfl rfl trivial
      (fun _ hv => by cases hv) trivial

theorem store (hm : m.Sound) (name : String) {value : Value} (location : Location)
    (hv : value.Good m.cursor.cache) :
    Honours .any exempt (Pure.pure b) m.cursor (store name value location) m := by
  rcases ScopeTree.assign?_cases hm.connected hm.current name (some value) with
    hno | ⟨owner, scope, t, hok, hs, hput⟩
  · refine of_fault (by simp only [Exec.store, hno]; rfl) ?_
    exact ⟨hm, .refl _ _, fun _ => rfl, fun h => (nomatch h), fun h => (nomatch h)⟩
  · have hall : (scope.bindings.set name (some value)).All (Value.Good m.cursor.cache) :=
      (hm.bindings hs).set fun v h => by cases h; exact hv
    obtain ⟨hsound, hk⟩ := Machine.put_kept hm hs hput rfl rfl (.inl rfl) hall
    exact of_done (a := ()) (by simp only [Exec.store, hok]) hsound hk rfl rfl trivial
      (fun _ hv => by cases hv) trivial

/-- What is printed is of no consequence for the rest of the state. -/
theorem write (hm : m.Sound) (text : String) :
    Honours .any exempt (Pure.pure b) m.cursor (write text) m := by
  have hsound : { m with out := (m.out.write text).2 }.Sound :=
    ⟨hm.inside, hm.stocked, hm.connected, hm.current, hm.bindings, hm.calls⟩
  have hk : m.Kept exempt { m with out := (m.out.write text).2 } :=
    ⟨rfl, fun _ => rfl, fun _ _ => rfl, rfl, Nat.le_refl _, List.prefix_refl _, rfl,
      List.prefix_refl _⟩
  cases hw : m.out.write text with
  | mk result out =>
    rw [hw] at hsound hk
    cases result with
    | ok u =>
      exact of_done (a := ()) (by simp only [Exec.write, hw]) hsound hk rfl rfl trivial
        (fun _ hv => by cases hv) trivial
    | error e =>
      refine of_fault (by simp only [Exec.write, hw]; rfl) ?_
      exact ⟨hsound, hk, fun _ => rfl, fun h => (nomatch h), fun h => (nomatch h)⟩

end Honours

/-! ## Scopes for a while -/

namespace ScopeTree

variable {t t₁ t₂ t₃ : ScopeTree} {parent id : ScopeId} {p p₂ : Scope} {kind : ScopeKind}

/-- A scope that has been given up again has left no trace among its relatives. -/
theorem links_restored (ht : t.Connected) (hp : t.find? parent = some p)
    (hc : t.Created parent p kind id t₁) (hl : ∀ j, t₂.links j = t₁.links j)
    (hp₂ : t₂.find? parent = some p₂) (hd : t₂.Destroyed parent p₂ id t₃)
    (j : ScopeId) : t₃.links j = t.links j := by
  have hne := hc.ne_of_find? hp
  by_cases hj : j = id
  · rw [links, links, hd.find?, if_pos hj, hj, hc.fresh]
  · by_cases hjp : j = parent
    · subst hjp
      have hp₁ : t₁.find? j = some { p with children := p.children ++ [id] } := by
        rw [hc.find?, if_neg hj, if_pos rfl]
      obtain ⟨p₂', hp₂', hparent, hchildren⟩ := exists_of_links (hl j) hp₁
      cases hp₂.symm.trans hp₂'
      have hnew := hc.not_mem_children ht hp
      have hfilter : (p.children ++ [id]).filter (· ≠ id) = p.children := by
        rw [List.filter_append, List.filter_eq_self.mpr]
        · simp
        · intro k hk
          simp only [decide_eq_true_eq]
          rintro rfl
          exact hnew hk
      rw [links, links, hd.find?, if_neg hj, if_pos rfl, hp, Option.map_some, Option.map_some]
      simp only [hparent, hchildren, hfilter]
    · have h₂ : t₃.links j = t₂.links j := by rw [links, links, hd.find?, if_neg hj, if_neg hjp]
      have h₁ : t₁.links j = t.links j := by rw [links, links, hc.find?, if_neg hj, if_neg hjp]
      exact h₂.trans ((hl j).trans h₁)

theorem Created.kindOf (hc : t.Created parent p kind id t₁) (hp : t.find? parent = some p)
    {j : ScopeId} (hj : j ≠ id) : t₁.kindOf j = t.kindOf j := by
  rw [ScopeTree.kindOf, ScopeTree.kindOf, hc.find?, if_neg hj]
  split
  · rename_i hjp
    rw [hjp, hp]
    rfl
  · rfl

theorem Destroyed.kindOf (hd : t₂.Destroyed parent p₂ id t₃) (hp₂ : t₂.find? parent = some p₂)
    {j : ScopeId} (hj : j ≠ id) : t₃.kindOf j = t₂.kindOf j := by
  rw [ScopeTree.kindOf, ScopeTree.kindOf, hd.find?, if_neg hj]
  split
  · rename_i hjp
    rw [hjp, hp₂]
    rfl
  · rfl

end ScopeTree

namespace Machine

variable {t : ScopeTree} {parent id : ScopeId} {p : Scope} {kind : ScopeKind} {m₂ : Machine}

theorem created_sound (hm : m.Sound) (hp : m.scopes.find? parent = some p)
    (hc : m.scopes.Created parent p kind id t) : { m with scopes := t }.Sound where
  inside := hm.inside
  stocked := hc.stocked
  connected := hc.connected hp hm.connected
  current := hc.contains hp hm.current
  bindings {j s} hs := by
    rcases hc.find?_cases hs with ⟨_, rfl⟩ | ⟨_, rfl⟩ | hs
    · exact Bindings.All.empty
    · have hb := hm.bindings hp
      exact hb
    · exact hm.bindings hs
  calls := hm.calls

/-- A new scope can be given up after anything that keeps the tree, and then all is as it was
before. -/
theorem destroy_created (hm : m.Sound) (hp : m.scopes.find? parent = some p)
    (hc : m.scopes.Created parent p kind id t) (hm₂ : m₂.Sound)
    (hk : Kept (some id) { m with scopes := t } m₂) :
    ∃ t', m₂.scopes.destroy id = .ok t' ∧ t'.slots.size = m₂.scopes.slots.size ∧
      { m₂ with scopes := t' }.Sound ∧ m.Kept none { m₂ with scopes := t' } := by
  obtain ⟨s₂, hs₂, hparent, hchildren⟩ := ScopeTree.exists_of_links (hk.links id) hc.find?_self
  obtain ⟨p₁, hp₁, _⟩ := hc.exists_of_find? hp hp
  obtain ⟨p₂, hp₂, _⟩ := ScopeTree.exists_of_links (hk.links parent) hp₁
  have hne := hc.ne_of_find? hp
  have hroot := hc.ne_root hm.connected
  obtain ⟨t', hok, hd⟩ := ScopeTree.destroy_leaf hm₂.stocked hs₂ hroot hchildren hparent hp₂ hne
  have hlinks := ScopeTree.links_restored hm.connected hp hc hk.links hp₂ hd
  refine ⟨t', hok, hd.size,
    ⟨hm₂.inside, hd.stocked, hm.connected.of_links hlinks, ?_, ?_, hm₂.calls⟩,
    ⟨hk.current, hlinks, ?_, ?_, ?_, hk.calls, hk.maxDepth, hk.cache⟩⟩
  · refine ScopeTree.contains_of_links (hlinks _) ?_
    exact hk.current ▸ hm.current
  · intro j s hs
    change t'.find? j = some s at hs
    rw [hd.find?] at hs
    split at hs
    · cases hs
    · split at hs
      · cases hs
        have hb := hm₂.bindings hp₂
        exact hb
      · exact hm₂.bindings hs
  · intro j _
    by_cases hj : j = id
    · show t'.kindOf j = m.scopes.kindOf j
      rw [ScopeTree.kindOf, ScopeTree.kindOf, hd.find?, if_pos hj, hj, hc.fresh]
    · exact (hd.kindOf hp₂ hj).trans
        ((hk.kinds j fun h => hj (Option.some.inj h).symm).trans (hc.kindOf hp hj))
  · show t'.live = m.scopes.live
    have hlive := hk.live
    rw [hd.live, hlive]
    show t.live - 1 = m.scopes.live
    rw [hc.live, Nat.add_sub_cancel]
  · show m.scopes.slots.size ≤ t'.slots.size
    rw [hd.size]
    exact Nat.le_trans hc.size hk.slots

theorem copyBindings_kept (hm : m.Sound) {source into : ScopeId}
    (hsource : m.scopes.contains source = true)
    (hinto : m.scopes.contains into = true) (exempt : Option ScopeId) :
    ∃ t, m.scopes.copyBindings source into = .ok t ∧ { m with scopes := t }.Sound ∧
      m.Kept exempt { m with scopes := t } := by
  obtain ⟨s, hs⟩ := ScopeTree.contains_iff.mp hsource
  obtain ⟨i, hi⟩ := ScopeTree.contains_iff.mp hinto
  obtain ⟨t, hok, hput⟩ := ScopeTree.copyBindings_put hs hi
  have hgood := hm.bindings hs
  exact ⟨t, hok, put_kept hm hi hput rfl rfl (.inl rfl) hgood⟩

theorem writeBack_kept (hm : m.Sound) {source into : ScopeId}
    (hsource : m.scopes.contains source = true)
    (hinto : m.scopes.contains into = true) (exempt : Option ScopeId) :
    ∃ t, m.scopes.writeBack source into = .ok t ∧ { m with scopes := t }.Sound ∧
      m.Kept exempt { m with scopes := t } := by
  obtain ⟨s, hs⟩ := ScopeTree.contains_iff.mp hsource
  obtain ⟨i, hi⟩ := ScopeTree.contains_iff.mp hinto
  obtain ⟨t, hok, hput⟩ := ScopeTree.writeBack_put hs hi
  have hgood := (hm.bindings hi).updateFrom (hm.bindings hs)
  exact ⟨t, hok, put_kept hm hi hput rfl rfl (.inl rfl) hgood⟩

end Machine

theorem destroyScope_done {id : ScopeId} {t : ScopeTree} (h : m.scopes.destroy id = .ok t) :
    destroyScope id m = .done () { m with scopes := t } := by
  simp only [destroyScope, changeScopes, h]

theorem createScope_cases {parent : ScopeId} {p : Scope} (hm : m.Sound)
    (hp : m.scopes.find? parent = some p) (kind : ScopeKind) :
    (∃ id t, createScope parent kind m = .done id { m with scopes := t } ∧
      m.scopes.Created parent p kind id t) ∨
      (createScope parent kind m = .fault (.internal arenaFull) m ∧
        m.scopes.slots.size = maxSlots) := by
  rcases ScopeTree.create_cases hm.stocked hp kind with ⟨id, t, hok, hc⟩ | ⟨hno, hfull⟩
  · exact .inl ⟨id, t, by simp only [createScope, hok], hc⟩
  · exact .inr ⟨by simp only [createScope, hno], hm.stocked.size_eq_of_live hfull⟩

namespace Honours

theorem arenaFull {parent : ScopeId} {kind : ScopeKind} {f : ScopeId → Exec α} (hm : m.Sound)
    (hx : createScope parent kind m = .fault (.internal ScopeTree.arenaFull) m)
    (hsize : m.scopes.slots.size = maxSlots) :
    Honours R exempt s c (createScope parent kind >>= f) m :=
  of_fault (bind_fault hx)
    ⟨hm, .refl _ _, fun h => absurd rfl (h _), fun h => (nomatch h),
      fun h => by cases h; exact ⟨rfl, hsize⟩⟩

/-- A scope for the time that `body` takes, of which nothing is left. -/
theorem withChild {parent : ScopeId} (hm : m.Sound) (hparent : m.scopes.contains parent = true)
    (kind : ScopeKind) {body : ScopeId → Exec α}
    (hbody : ∀ {p id t}, m.scopes.find? parent = some p → m.scopes.Created parent p kind id t →
      { m with scopes := t }.Sound →
      Honours R (some id) s m.cursor (body id) { m with scopes := t }) :
    Honours R exempt s m.cursor (withChild parent kind body) m := by
  obtain ⟨p, hp⟩ := ScopeTree.contains_iff.mp hparent
  rcases createScope_cases hm hp kind with ⟨id, t, hok, hc⟩ | ⟨hno, hsize⟩
  · have hb := hbody hp hc (Machine.created_sound hm hp hc)
    cases hrun : body id { m with scopes := t } with
    | done a m₂ =>
      have hd := hb.done hrun
      obtain ⟨t', hdestroy, _, hsound, hk⟩ := Machine.destroy_created hm hp hc hd.sound hd.kept
      have hx : Exec.withChild parent kind body m = .done a { m₂ with scopes := t' } :=
        (bind_done hok).trans (ensuring_done hrun (destroyScope_done hdestroy))
      refine ⟨fun h => ?_, fun h => (nomatch hx.symm.trans h)⟩
      cases hx.symm.trans h
      exact ⟨hsound, hk.exempting exempt, hd.calls, hd.good, hd.grown, hd.scans, hd.short⟩
    | fault e m₂ =>
      have hf := hb.fault hrun
      obtain ⟨t', hdestroy, hslots, hsound, hk⟩ := Machine.destroy_created hm hp hc hf.sound hf.kept
      have hx : Exec.withChild parent kind body m = .fault e { m₂ with scopes := t' } :=
        (bind_done hok).trans (ensuring_fault hrun (destroyScope_done hdestroy))
      refine of_fault hx ⟨hsound, hk.exempting exempt, hf.calls, hf.parse, fun he => ?_⟩
      obtain ⟨hi, hsize⟩ := hf.internal he
      exact ⟨hi, hslots.trans hsize⟩
    | outOfFuel =>
      exact of_outOfFuel ((bind_done hok).trans (ensuring_outOfFuel hrun))
  · exact arenaFull hm hno hsize

theorem inScope {scope : ScopeId} {body : Exec α} (hm : m.Sound)
    (h : Honours R exempt s c body { m with current := scope }) :
    Honours R exempt s c (inScope scope body) m := by
  have hrestore {m₂ : Machine} (hsound : m₂.Sound)
    (hk : Machine.Kept exempt { m with current := scope } m₂) :
      { m₂ with current := m.current }.Sound ∧ m.Kept exempt { m₂ with current := m.current } :=
    ⟨{ hsound with current := ScopeTree.contains_of_links (hk.links m.current) hm.current },
      { hk with current := rfl }⟩
  cases hrun : body { m with current := scope } with
  | done a m₂ =>
    have hd := h.done hrun
    obtain ⟨hsound, hk⟩ := hrestore hd.sound hd.kept
    have hx : Exec.inScope scope body m = .done a { m₂ with current := m.current } := by
      simp only [Exec.inScope, hrun]
    refine ⟨fun h => ?_, fun h => (nomatch hx.symm.trans h)⟩
    cases hx.symm.trans h
    exact ⟨hsound, hk, hd.calls, hd.good, hd.grown, hd.scans, hd.short⟩
  | fault e m₂ =>
    have hf := h.fault hrun
    obtain ⟨hsound, hk⟩ := hrestore hf.sound hf.kept
    have hx : Exec.inScope scope body m = .fault e { m₂ with current := m.current } := by
      simp only [Exec.inScope, hrun]
    exact of_fault hx ⟨hsound, hk, hf.calls, hf.parse, hf.internal⟩
  | outOfFuel => exact of_outOfFuel (by simp only [Exec.inScope, hrun])

/-- In a new scope, which is the current one. -/
theorem inChild {parent : ScopeId} (hm : m.Sound) (hparent : m.scopes.contains parent = true)
    (kind : ScopeKind) {body : ScopeId → Exec α}
    (hbody : ∀ {id m₁}, m₁.Sound → m₁.scopes.kindOf id = some kind → m₁.cursor = m.cursor →
      Honours R (some id) s m.cursor (body id) m₁) :
    Honours R exempt s m.cursor
      (Exec.withChild parent kind fun scope => Exec.inScope scope (body scope)) m := by
  refine withChild hm hparent kind fun {p id t} hp hc hsound => inScope hsound ?_
  have hfind := hc.find?_self
  refine hbody { hsound with current := ScopeTree.contains_of_find? hfind } ?_ rfl
  show t.kindOf id = some kind
  rw [ScopeTree.kindOf, hfind]
  rfl

end Honours
end Replay
