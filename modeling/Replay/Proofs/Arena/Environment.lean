import Replay.Proofs.Arena.Branches
import Replay.Proofs.Arena.Chains
/-!
Scopes inside one another, as a list.

While a statement runs, every scope is inside the one before it: the tree is a single branch.  Such
a tree is known by the names in its scopes, from the innermost to the global one, and what the
operations do to it is what they do to this list.
-/

namespace Replay

theorem Bindings.contains_of_find? {b : Bindings} {name : String} {x : Binding}
    (h : b.find? name = some x) :
    b.contains name = true := by
  rw [contains, h]
  rfl

namespace ScopeTree

/-- Scopes from the innermost to the global one, with the names in each. -/
abbrev Environment : Type := List (ScopeId × Bindings)

namespace Environment

def find? (env : Environment) (name : String) : Option Binding :=
  env.findSome? fun x => x.2.find? name

def set (env : Environment) (name : String) (value : Option Value) : Environment :=
  match env with
  | [] => []
  | (id, b) :: env =>
    if b.contains name then (id, b.set name value) :: env else (id, b) :: set env name value

/-- The innermost declaration is in one of the scopes, and there is none in the scopes before that
one. -/
theorem exists_owner {env : Environment} {name : String} {binding : Binding}
    (h : find? env name = some binding) :
    ∃ before owner b after, env = before ++ (owner, b) :: after ∧
      (∀ x ∈ before, x.2.contains name = false) ∧
      b.find? name = some binding ∧
      ∀ value, set env name value = before ++ (owner, b.set name value) :: after := by
  induction env with
  | nil => cases h
  | cons x env ih =>
    obtain ⟨id, b⟩ := x
    rw [find?, List.findSome?_cons] at h
    cases hb : b.find? name with
    | some found =>
      rw [hb] at h
      have hcontains := Bindings.contains_of_find? hb
      refine ⟨[], id, b, env, rfl, fun x hx => absurd hx List.not_mem_nil, hb.trans h,
        fun value => ?_⟩
      rw [set, if_pos hcontains]
      rfl
    | none =>
      rw [hb] at h
      have hcontains : b.contains name = false := by
        rw [Bindings.contains, hb]
        rfl
      obtain ⟨before, owner, b', after, rfl, hbefore, hfound, hset⟩ := ih h
      refine ⟨(id, b) :: before, owner, b', after, rfl, fun x hx => ?_, hfound, fun value => ?_⟩
      · rcases List.mem_cons.mp hx with rfl | hx
        · exact hcontains
        · exact hbefore x hx
      · rw [set, if_neg (by rw [hcontains]; decide), hset]
        rfl

end Environment

/-- The scopes of the tree are these, each inside the next one. -/
structure Nested (t : ScopeTree) (env : Environment) : Prop where
  stocked : t.Stocked
  connected : t.Connected
  chain : ∃ id, t.Chain id (env.map Prod.fst)
  tables : ∀ x ∈ env, ∃ s, t.find? x.1 = some s ∧ s.bindings = x.2
  only : ∀ j, t.contains j = true → j ∈ env.map Prod.fst

theorem new_nested : new.Nested [(root, .empty)] where
  stocked := new_stocked
  connected := new_connected
  chain := ⟨root, .root rfl rfl⟩
  tables x hx := by
    cases List.mem_singleton.mp hx
    exact ⟨_, rfl, rfl⟩
  only j hj := by
    obtain ⟨s, hs⟩ := contains_iff.mp hj
    rw [find?_new] at hs
    split at hs
    · rename_i hroot
      exact hroot ▸ List.mem_cons_self
    · cases hs

namespace Nested

variable {t t' : ScopeTree} {id j parent : ScopeId} {s : Scope} {b b' inner outer : Bindings}
  {name : String}
  {env before after : Environment} {x : ScopeId × Bindings}

theorem chain_head (h : t.Nested ((id, b) :: env)) : t.Chain id (id :: env.map Prod.fst) := by
  obtain ⟨head, hchain⟩ := h.chain
  cases hchain.head?_eq
  exact hchain

theorem find? (h : t.Nested env) (hx : (id, b) ∈ env) : ∃ s, t.find? id = some s ∧ s.bindings = b :=
  h.tables (id, b) hx

theorem nodup (h : t.Nested env) : (env.map Prod.fst).Nodup := by
  obtain ⟨id, hchain⟩ := h.chain
  exact hchain.nodup h.connected

/-- There are as many scopes as there are in the list. -/
theorem live (h : t.Nested env) : t.live = env.length := by
  obtain ⟨id, hchain⟩ := h.chain
  rw [h.stocked.live_eq_length h.nodup fun j => ⟨fun hj => ?_, h.only j⟩, List.length_map]
  obtain ⟨s, hs⟩ := hchain.find? hj
  exact contains_of_find? hs

/-! ## Names -/

theorem declares (h : t.Nested env) (hx : x ∈ env) (name : String) :
    t.declares name x.1 = x.2.contains name := by
  obtain ⟨s, hs, hb⟩ := h.tables x hx
  rw [declares_eq hs, hb]

theorem resolve_none (h : t.Nested ((id, b) :: env))
    (hnone : Environment.find? ((id, b) :: env) name = none) :
    t.resolve id name = .ok none := by
  rw [h.chain_head.resolve h.connected, ← List.map_cons (f := Prod.fst) (a := (id, b)),
    List.find?_eq_none.mpr]
  intro j hj
  obtain ⟨x, hx, rfl⟩ := List.mem_map.mp hj
  rw [h.declares hx, Bindings.contains, List.findSome?_eq_none_iff.mp hnone x hx]
  decide

/-- A name that is declared somewhere belongs to the scope of its innermost declaration. -/
theorem exists_owner (h : t.Nested ((id, b) :: env)) {binding : Binding}
    (hfind : Environment.find? ((id, b) :: env) name = some binding) :
    ∃ before owner s after, (id, b) :: env = before ++ (owner, s.bindings) :: after ∧
      t.find? owner = some s ∧
      t.resolve id name = .ok (some owner) ∧ s.bindings.find? name = some binding ∧
      ∀ value, Environment.set ((id, b) :: env) name value =
        before ++ (owner, s.bindings.set name value) :: after := by
  obtain ⟨before, owner, outer, after, hsplit, hbefore, hfound, hset⟩ :=
    Environment.exists_owner hfind
  have howner : (owner, outer) ∈ (id, b) :: env :=
    hsplit ▸ List.mem_append_right _ List.mem_cons_self
  have hmem : ∀ x ∈ before, x ∈ (id, b) :: env := fun x hx => hsplit ▸ List.mem_append_left _ hx
  have hids : id :: env.map Prod.fst = before.map Prod.fst ++ owner :: after.map Prod.fst := by
    rw [← List.map_cons (f := Prod.fst) (a := (id, b)), hsplit, List.map_append, List.map_cons]
  have hfirst : (id :: env.map Prod.fst).find? (t.declares name) = some owner := by
    rw [hids, List.find?_eq_some_iff_append]
    refine ⟨?_, before.map Prod.fst, after.map Prod.fst, rfl, fun j hj => ?_⟩
    · rw [h.declares howner, Bindings.contains_of_find? hfound]
    · obtain ⟨x, hx, rfl⟩ := List.mem_map.mp hj
      rw [h.declares (hmem x hx), hbefore x hx]
      rfl
  obtain ⟨s, hs, rfl⟩ := h.find? howner
  refine ⟨before, owner, s, after, hsplit, hs, ?_, hfound, hset⟩
  rw [h.chain_head.resolve h.connected, hfirst]

/-- A name that is looked up is found where its innermost declaration is. -/
theorem lookup (h : t.Nested ((id, b) :: env)) (name : String) :
    t.lookup id name = .ok (Environment.find? ((id, b) :: env) name) := by
  cases hfind : Environment.find? ((id, b) :: env) name with
  | none => exact lookup_of_resolve_none (h.resolve_none hfind)
  | some binding =>
    obtain ⟨_, owner, s, _, _, hs, hresolve, hfound, _⟩ := h.exists_owner hfind
    rw [lookup_of_resolve_some hresolve hs, hfound]

/-! ## Changing names -/

/-- Other names in one of the scopes. -/
theorem put (before after : Environment) (h : t.Nested (before ++ (j, b) :: after))
    (hs : t.find? j = some s)
    (hput : t.Put j { s with bindings := b' } t') : t'.Nested (before ++ (j, b') :: after) := by
  have hlinks := hput.links hs rfl rfl
  have hids : (before ++ (j, b') :: after).map Prod.fst =
      (before ++ (j, b) :: after).map Prod.fst := by
    simp only [List.map_append, List.map_cons]
  have hnodup := h.nodup
  rw [List.map_append, List.map_cons, List.nodup_middle, List.nodup_cons, List.mem_append] at hnodup
  have hother : ∀ x, x ∈ before ∨ x ∈ after → ∃ s, t'.find? x.1 = some s ∧ s.bindings = x.2 := by
    intro x hx
    have hne : x.1 ≠ j := by
      rintro rfl
      exact hnodup.1 (hx.imp (List.mem_map.mpr ⟨x, ·, rfl⟩) (List.mem_map.mpr ⟨x, ·, rfl⟩))
    obtain ⟨s, hs, hb⟩ := h.tables x (by rcases hx with hx | hx <;> simp [hx])
    exact ⟨s, by rw [hput.find?, if_neg hne, hs], hb⟩
  refine ⟨hput.stocked hs h.stocked, h.connected.of_links hlinks, ?_, fun x hx => ?_,
    fun i hi => ?_⟩
  · obtain ⟨id, hchain⟩ := h.chain
    rw [hids]
    refine ⟨id, hchain.congr fun i _ s hs => ?_⟩
    obtain ⟨s', hs', hp, _⟩ := exists_of_links (hlinks i) hs
    exact ⟨s', hs', hp⟩
  · rcases List.mem_append.mp hx with hx | hx
    · exact hother x (.inl hx)
    · rcases List.mem_cons.mp hx with rfl | hx
      · exact ⟨_, by rw [hput.find?, if_pos rfl], rfl⟩
      · exact hother x (.inr hx)
  · rw [hids]
    exact h.only i ((contains_eq_of_links (hlinks i)).symm.trans hi)

theorem assign? (h : t.Nested ((id, b) :: env)) {binding : Binding}
    (hfind : Environment.find? ((id, b) :: env) name = some binding) (value : Option Value) :
    ∃ t', t.assign? id name value = .ok (some t') ∧
      t'.Nested (Environment.set ((id, b) :: env) name value) := by
  obtain ⟨before, owner, s, after, hsplit, hs, hresolve, _, hset⟩ := h.exists_owner hfind
  obtain ⟨t', hok, hput⟩ := assign?_of_resolve_some value hresolve hs
  rw [hsplit] at h
  exact ⟨t', hok, hset value ▸ put before after h hs hput⟩

theorem declare? (h : t.Nested ((id, b) :: env)) {value : Option Value}
    (hnew : b.declare? name value = some b') :
    ∃ t', t.declare? id name value = .ok (some t') ∧ t'.Nested ((id, b') :: env) := by
  obtain ⟨s, hs, hb⟩ := h.find? List.mem_cons_self
  obtain ⟨t', hmod, hput⟩ := modify_put hs fun s => { s with bindings := b' }
  refine ⟨t', ?_, put [] _ h hs hput⟩
  simp only [ScopeTree.declare?, get_of_find? hs, hb, hnew, hmod, bind, Except.bind, pure,
    Except.pure]

theorem copyBindings (h : t.Nested ((id, inner) :: (parent, outer) :: env)) :
    ∃ t', t.copyBindings parent id = .ok t' ∧
      t'.Nested ((id, outer) :: (parent, outer) :: env) := by
  obtain ⟨p, hp, hb⟩ := h.find? (List.mem_cons_of_mem _ List.mem_cons_self)
  obtain ⟨s, hs, _⟩ := h.find? List.mem_cons_self
  obtain ⟨t', hok, hput⟩ := copyBindings_put hp hs
  rw [hb] at hput
  exact ⟨t', hok, put [] _ h hs hput⟩

theorem writeBack (h : t.Nested ((id, inner) :: (parent, outer) :: env)) :
    ∃ t', t.writeBack id parent = .ok t' ∧
      t'.Nested ((id, inner) :: (parent, outer.updateFrom inner) :: env) := by
  obtain ⟨p, hp, hb⟩ := h.find? (List.mem_cons_of_mem _ List.mem_cons_self)
  obtain ⟨s, hs, hinner⟩ := h.find? List.mem_cons_self
  obtain ⟨t', hok, hput⟩ := writeBack_put hs hp
  rw [hb, hinner] at hput
  exact ⟨t', hok, put [(id, inner)] _ h hp hput⟩

/-! ## Going in and out -/

theorem create (h : t.Nested ((id, b) :: env)) (hroom : env.length + 1 < maxSlots)
    (kind : ScopeKind) :
    ∃ child t', t.create id kind = .ok (child, t') ∧
      t'.Nested ((child, .empty) :: (id, b) :: env) := by
  obtain ⟨p, hp, _⟩ := h.find? List.mem_cons_self
  rcases create_cases h.stocked hp kind with ⟨child, t', hok, hcreated⟩ | ⟨_, hfull⟩
  · refine ⟨child, t', hok, hcreated.stocked, hcreated.connected hp h.connected, ⟨child, ?_⟩,
      fun x hx => ?_, fun j hj => ?_⟩
    · refine .child hcreated.find?_self rfl (h.chain_head.congr fun j _ s hs => ?_)
      obtain ⟨s', hs', hpar, _⟩ := hcreated.exists_of_find? hp hs
      exact ⟨s', hs', hpar⟩
    · rcases List.mem_cons.mp hx with rfl | hx
      · exact ⟨_, hcreated.find?_self, rfl⟩
      · obtain ⟨s, hs, hb⟩ := h.tables x hx
        obtain ⟨s', hs', _, hb', _⟩ := hcreated.exists_of_find? hp hs
        exact ⟨s', hs', hb'.trans hb⟩
    · obtain ⟨s, hs⟩ := contains_iff.mp hj
      rw [List.map_cons]
      by_cases hchild : j = child
      · exact hchild ▸ List.mem_cons_self
      · obtain ⟨s₀, hs₀, _⟩ := hcreated.find?_old hp hs hchild
        exact List.mem_cons_of_mem _ (h.only j (contains_of_find? hs₀))
  · have hlive := h.live
    rw [List.length_cons] at hlive
    omega

theorem destroy (h : t.Nested ((id, b) :: x :: env)) :
    ∃ t', t.destroy id = .ok t' ∧ t'.Nested (x :: env) := by
  have hchain := h.chain_head
  cases hchain with
  | @child _ parent _ _ hs hp hup =>
    have hroot := h.connected.ne_root hs hp
    obtain ⟨t', hok, hpruned⟩ := destroy_pruned h.stocked h.connected hs hroot
    have houtside : ∀ {j}, j ∈ (x :: env).map Prod.fst → ¬ t.Under id j :=
      fun hj => hup.not_under h.connected hs hp hj
    refine ⟨t', hok, hpruned.stocked, hpruned.connected h.connected hroot, ⟨parent, ?_⟩,
      fun y hy => ?_, fun j hj => ?_⟩
    · exact hup.congr fun j hj s hs => ⟨_, hpruned.exists_of_find? (houtside hj) hs, rfl⟩
    · obtain ⟨s, hs, hb⟩ := h.tables y (List.mem_cons_of_mem _ hy)
      exact ⟨_, hpruned.exists_of_find? (houtside (List.mem_map_of_mem hy)) hs, hb⟩
    · obtain ⟨s, hs⟩ := contains_iff.mp hj
      obtain ⟨hnot, s₀, hs₀, _⟩ := hpruned.find?_cases hs
      have hmem := h.only j (contains_of_find? hs₀)
      rw [List.map_cons] at hmem
      refine (List.mem_cons.mp hmem).resolve_left fun heq => hnot (heq ▸ .refl)

end Nested
end ScopeTree
end Replay
