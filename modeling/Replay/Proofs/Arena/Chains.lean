import Replay.Proofs.Arena.Edits
/-!
Names along the chain of parents.

From a scope a name is looked for in the scope itself, then in its parent, and so on up to the
global scope.  The scopes on this way are all that the answer depends on: whatever is done to the
rest of the tree, every name that is looked up from the scope means what it meant before.
-/

namespace Replay

namespace Bindings

/-- A variable that is declared has the value that it is given. -/
theorem find?_set (b : Bindings) (name : String) (value : Option Value) :
    (b.set name value).find? name = (b.find? name).map fun _ => ⟨name, value⟩ := by
  rw [set, find?, find?, List.find?_map]
  have hname : ((fun x : Binding => x.name == name) ∘
      fun x => if x.name == name then ⟨x.name, value⟩ else x) = fun x => x.name == name := by
    funext x
    rw [Function.comp_apply]
    split <;> rfl
  rw [hname]
  cases hfind : b.toList.find? fun x => x.name == name with
  | none => rfl
  | some x =>
    have hx := List.find?_some hfind
    rw [Option.map_some, Option.map_some, if_pos hx, beq_iff_eq.mp hx]

theorem contains_set (b : Bindings) (name : String) (value : Option Value) :
    (b.set name value).contains name = b.contains name := by
  rw [contains, contains, find?_set, Option.isSome_map]

theorem contains_of_declare? {b b' : Bindings} {name : String} {value : Option Value}
    (h : b.declare? name value = some b') : b.contains name = false := by
  rw [declare?] at h
  split at h
  · cases h
  · exact Bool.eq_false_iff.mpr ‹_›

end Bindings

namespace ScopeTree

variable {t t' : ScopeTree} {id j parent owner : ScopeId} {s p : Scope}
  {ids : List ScopeId} {n : Nat}

/-- The way up from a scope to the global one, with both ends. -/
inductive Chain (t : ScopeTree) : ScopeId → List ScopeId → Prop where
  | root {s : Scope} : t.find? root = some s → s.parent = none → Chain t root [root]
  | child {id parent : ScopeId} {s : Scope} {ids : List ScopeId} :
    t.find? id = some s → s.parent = some parent →
    Chain t parent ids → Chain t id (id :: ids)

def declares (t : ScopeTree) (name : String) (id : ScopeId) : Bool :=
  (t.find? id).any (·.bindings.contains name)

theorem declares_eq (h : t.find? id = some s) (name : String) :
    t.declares name id = s.bindings.contains name := by
  rw [declares, h, Option.any_some]

/-! ## Chains -/

namespace Chain

theorem find? (h : t.Chain id ids) (hj : j ∈ ids) : ∃ s, t.find? j = some s := by
  induction h with
  | root hs _ =>
    cases List.mem_singleton.mp hj
    exact ⟨_, hs⟩
  | child hs _ _ ih =>
    rcases List.mem_cons.mp hj with rfl | hj
    · exact ⟨_, hs⟩
    · exact ih hj

theorem head?_eq (h : t.Chain id ids) : ids.head? = some id := by
  cases h <;> rfl

theorem unique {ids' : List ScopeId} (h : t.Chain id ids) (h' : t.Chain id ids') : ids = ids' := by
  induction h generalizing ids' with
  | root hs hp =>
    cases h' with
    | root _ _ => rfl
    | child hs' hp' _ =>
      cases hs.symm.trans hs'
      cases hp.symm.trans hp'
  | child hs hp _ ih =>
    cases h' with
    | root hs' hp' =>
      cases hs.symm.trans hs'
      cases hp.symm.trans hp'
    | child hs' hp' hup' =>
      cases hs.symm.trans hs'
      cases hp.symm.trans hp'
      rw [ih hup']

theorem atDepth (h : t.Chain id ids) : ∃ n, ids.length = n + 1 ∧ t.AtDepth id n := by
  induction h with
  | root hs _ => exact ⟨0, rfl, .root hs⟩
  | child hs hp _ ih =>
    obtain ⟨n, hn, hd⟩ := ih
    exact ⟨n + 1, by rw [List.length_cons, hn], .child hs hp hd⟩

theorem length_le (h : t.Chain id ids) (hc : t.Connected) : ids.length ≤ t.slots.size := by
  obtain ⟨n, hn, hd⟩ := h.atDepth
  have := hc.depth_lt hd
  omega

theorem depth_of_mem (h : t.Chain id ids) (hj : j ∈ ids) : ∃ k, k < ids.length ∧ t.AtDepth j k := by
  induction h with
  | root hs _ =>
    cases List.mem_singleton.mp hj
    exact ⟨0, Nat.one_pos, .root hs⟩
  | child hs hp hup ih =>
    rcases List.mem_cons.mp hj with rfl | hj
    · obtain ⟨n, hn, hd⟩ := hup.atDepth
      exact ⟨n + 1, by rw [List.length_cons]; omega, .child hs hp hd⟩
    · obtain ⟨k, hk, hd⟩ := ih hj
      exact ⟨k, by rw [List.length_cons]; omega, hd⟩

/-- What is on the chain of the parent is not below the scope. -/
theorem not_under (h : t.Chain parent ids) (hc : t.Connected) (hs : t.find? id = some s)
    (hp : s.parent = some parent) (hj : j ∈ ids) : ¬ t.Under id j := by
  intro hunder
  obtain ⟨n, hn, hd⟩ := h.atDepth
  obtain ⟨k, hk, hdk⟩ := h.depth_of_mem hj
  obtain ⟨m, hm, hdm⟩ := hc.depth_under hunder (.child hs hp hd)
  have := hc.depth_unique hdk hdm
  omega

theorem nodup (h : t.Chain id ids) (hc : t.Connected) : ids.Nodup := by
  induction h with
  | root _ _ => exact List.nodup_singleton _
  | child hs hp hup ih =>
    exact List.nodup_cons.mpr ⟨fun hmem => hup.not_under hc hs hp hmem .refl, ih⟩

/-- A chain is that of another tree too if the scopes on it have their parents there. -/
theorem congr (h : t.Chain id ids)
    (hsame : ∀ j ∈ ids,
      ∀ s, t.find? j = some s → ∃ s', t'.find? j = some s' ∧ s'.parent = s.parent) :
    t'.Chain id ids := by
  induction h with
  | root hs hp =>
    obtain ⟨s', hs', hp'⟩ := hsame _ List.mem_cons_self _ hs
    exact .root hs' (hp'.trans hp)
  | child hs hp _ ih =>
    obtain ⟨s', hs', hp'⟩ := hsame _ List.mem_cons_self _ hs
    exact .child hs' (hp'.trans hp) (ih fun j hj => hsame j (List.mem_cons_of_mem _ hj))

end Chain

theorem Connected.exists_chain (hc : t.Connected) (hs : t.find? id = some s) :
    ∃ ids, t.Chain id ids := by
  obtain ⟨n, hd⟩ := hc.depth hs
  clear hs
  induction hd with
  | root _ =>
    obtain ⟨r, hr, hp⟩ := hc.root
    exact ⟨_, .root hr hp⟩
  | child hs hp _ ih =>
    obtain ⟨ids, hids⟩ := ih
    exact ⟨_, .child hs hp hids⟩

/-! ## Looking a name up -/

/-- With steps enough for the chain the answer is the first scope on it that declares the name, or
that there is none. -/
theorem Chain.resolveWithin (h : t.Chain id ids) (name : String) {steps : Nat}
    (hsteps : ids.length ≤ steps) :
    t.resolveWithin name steps id = .ok (ids.find? (t.declares name)) := by
  induction h generalizing steps with
  | root hs hp =>
    obtain ⟨steps, rfl⟩ : ∃ k, steps = k + 1 :=
      ⟨steps - 1, by simp only [List.length_cons] at hsteps; omega⟩
    simp only [ScopeTree.resolveWithin, get_of_find? hs, hp, List.find?_cons, declares_eq hs, bind,
      Except.bind, pure, Except.pure]
    split <;> simp_all
  | child hs hp _ ih =>
    rw [List.length_cons] at hsteps
    obtain ⟨steps, rfl⟩ : ∃ k, steps = k + 1 := ⟨steps - 1, by omega⟩
    simp only [ScopeTree.resolveWithin, get_of_find? hs, hp, List.find?_cons, declares_eq hs, bind,
      Except.bind, pure, Except.pure]
    split
    · rename_i hhere
      rw [hhere]
    · rename_i hnot
      rw [Bool.eq_false_iff.mpr hnot]
      exact ih (by omega)

theorem Chain.resolve (h : t.Chain id ids) (hc : t.Connected) (name : String) :
    t.resolve id name = .ok (ids.find? (t.declares name)) :=
  h.resolveWithin name (h.length_le hc)

/-- What a name means that is looked up from a scope: the variable of its owner, if it has one. -/
structure Means (t : ScopeTree) (id : ScopeId) (name : String) (owner? : Option ScopeId) :
    Prop where
  resolve : t.resolve id name = .ok owner?
  undeclared : owner? = none → t.lookup id name = .ok none ∧
    ∀ value, t.assign? id name value = .ok none
  declared : ∀ {owner}, owner? = some owner →
    ∃ s b, t.find? owner = some s ∧ s.bindings.find? name = some b ∧
    t.lookup id name = .ok (some b) ∧
    ∀ value, ∃ t', t.assign? id name value = .ok (some t') ∧
      t.Put owner { s with bindings := s.bindings.set name value } t' ∧
      t'.lookup id name = .ok (some ⟨name, value⟩)

/-- Whether a scope declares a name depends on its own names only. -/
theorem declares_congr {name : String} (hs : t.find? id = some s) (hp : t'.find? id = some p)
    (h : p.bindings.contains name = s.bindings.contains name) :
    t'.declares name id = t.declares name id := by
  rw [declares_eq hs, declares_eq hp, h]

theorem Chain.means (h : t.Chain id ids) (hc : t.Connected) (name : String) :
    t.Means id name (ids.find? (t.declares name)) where
  resolve := h.resolve hc name
  undeclared hnone := by
    have hr := hnone ▸ h.resolve hc name
    exact ⟨lookup_of_resolve_none hr, fun value => assign?_of_resolve_none value hr⟩
  declared {owner} hsome := by
    have hr := hsome ▸ h.resolve hc name
    obtain ⟨s, hs⟩ := h.find? (List.mem_of_find?_eq_some hsome)
    have hhere : s.bindings.contains name = true := declares_eq hs name ▸ List.find?_some hsome
    obtain ⟨b, hb⟩ := Option.isSome_iff_exists.mp hhere
    refine ⟨s, b, hs, hb, hb ▸ lookup_of_resolve_some hr hs, fun value => ?_⟩
    obtain ⟨t', hok, hput⟩ := assign?_of_resolve_some value hr hs
    have hlinks := hput.links hs rfl rfl
    have hchain : t'.Chain id ids := h.congr fun j _ s hs => by
      obtain ⟨s', hs', hp', _⟩ := exists_of_links (hlinks j) hs
      exact ⟨s', hs', hp'⟩
    have hdeclares : t'.declares name = t.declares name := by
      funext j
      by_cases hj : j = owner
      · subst hj
        exact declares_congr hs (by rw [hput.find?, if_pos rfl])
          (Bindings.contains_set _ name value)
      · rw [declares, declares, hput.find?, if_neg hj]
    have hr' : t'.resolve id name = .ok (some owner) := by
      rw [hchain.resolve (hc.of_links hlinks), hdeclares, hsome]
    refine ⟨t', hok, hput, ?_⟩
    rw [lookup_of_resolve_some hr' (by rw [hput.find?, if_pos rfl]), Bindings.find?_set, hb,
      Option.map_some]

/-! ## Edits elsewhere -/

/-- The scopes whose names or values the edit changes, and those that it gives up.  That a scope
gets a child or loses one, or belongs to something else from now on, changes no name. -/
def Edit.Touches (t : ScopeTree) (j : ScopeId) : Edit → Prop
  | create _ _ => False
  | destroy id => id ≠ root ∧ t.Under id j
  | teardown => True
  | declare id name _ => j = id ∧ t.declares name id = false
  | assign id name _ => t.resolve id name = .ok (some j)
  | setKind _ _ => False
  | copyBindings source into => j = into ∧ t.contains source = true
  | writeBack source into => j = into ∧ t.contains source = true

/-- The scope is where it was, with the names and values that it had. -/
def SameNames (t t' : ScopeTree) (j : ScopeId) : Prop :=
  ∀ s, t.find? j = some s →
  ∃ s', t'.find? j = some s' ∧ s'.parent = s.parent ∧ s'.bindings = s.bindings

namespace SameNames

theorem refl (t : ScopeTree) (j : ScopeId) : t.SameNames t j :=
  fun s hs => ⟨s, hs, rfl, rfl⟩

theorem of_put {s' : Scope} (hs : t.find? id = some s) (hput : t.Put id s' t')
    (h : j = id → s'.parent = s.parent ∧ s'.bindings = s.bindings) : t.SameNames t' j := by
  intro p hp
  by_cases hj : j = id
  · obtain ⟨hpar, hb⟩ := h hj
    subst hj
    cases hs.symm.trans hp
    exact ⟨s', by rw [hput.find?, if_pos rfl], hpar, hb⟩
  · exact ⟨p, by rw [hput.find?, if_neg hj, hp], rfl, rfl⟩

theorem of_modify {f : Scope → Scope} {r : Except InternalError ScopeTree} (hr : t.modify id f = r)
    (hf : ∀ s, (f s).parent = s.parent) (h : j = id → ∀ s, (f s).bindings = s.bindings) :
    t.SameNames (settle t (r.map (Answer.done, ·))).2 j := by
  cases r with
  | error err => exact .refl t j
  | ok t₁ =>
    obtain ⟨s, hs, hput⟩ := put_of_modify hr
    exact .of_put hs hput fun hj => ⟨hf s, h hj s⟩

end SameNames

/-- One edit: a scope that it does not touch has the names and values that it had. -/
theorem Edit.sameNames (ht : t.Stocked) (hc : t.Connected) {e : Edit} (h : ¬ e.Touches t j) :
    t.SameNames (e.perform t).2 j := by
  rw [e.perform_eq ht hc]
  cases e with
  | create parent kind =>
    rw [apply]
    cases hp : t.find? parent with
    | none =>
      rw [create_dead hp]
      exact .refl t j
    | some p =>
      rcases create_cases ht hp kind with ⟨id, t₁, hok, hcreated⟩ | ⟨hno, _⟩
      · rw [hok]
        intro s hs
        obtain ⟨s', hs', hpar, hb, _⟩ := hcreated.exists_of_find? hp hs
        exact ⟨s', hs', hpar, hb⟩
      · rw [hno]
        exact .refl t j
  | destroy id =>
    by_cases hroot : id = root
    · subst hroot
      exact .refl t j
    · rw [apply]
      cases hid : t.find? id with
      | none =>
        rw [destroy_dead hid hroot]
        exact .refl t j
      | some p =>
        obtain ⟨t₁, hok, hpruned⟩ := destroy_pruned ht hc hid hroot
        rw [hok]
        exact fun s hs => ⟨_, hpruned.exists_of_find? (fun hu => h ⟨hroot, hu⟩) hs, rfl, rfl⟩
  | teardown => exact absurd trivial h
  | declare id name value =>
    rw [apply]
    cases hid : t.find? id with
    | none =>
      rw [declare?_dead hid]
      exact .refl t j
    | some p =>
      rcases declare?_cases hid name value with hno | ⟨bindings, t₁, hok, hdeclare, hput⟩
      · rw [hno]
        exact .refl t j
      · rw [hok]
        refine .of_put hid hput fun hj => absurd ⟨hj, ?_⟩ h
        rw [declares_eq hid]
        exact Bindings.contains_of_declare? hdeclare
  | assign id name value =>
    rw [apply]
    cases hid : t.find? id with
    | none =>
      rw [assign?_dead hc hid]
      exact .refl t j
    | some p =>
      obtain ⟨ids, hids⟩ := hc.exists_chain hid
      have hr := hids.resolve hc name
      cases howner : ids.find? (t.declares name) with
      | none =>
        rw [assign?_of_resolve_none value (howner ▸ hr)]
        exact .refl t j
      | some owner =>
        rw [howner] at hr
        obtain ⟨s, hs⟩ := hids.find? (List.mem_of_find?_eq_some howner)
        obtain ⟨t₁, hok, hput⟩ := assign?_of_resolve_some value hr hs
        rw [hok]
        exact .of_put hs hput fun hj => absurd (hj ▸ hr) h
  | setKind id kind => exact .of_modify rfl (fun _ => rfl) fun _ _ => rfl
  | copyBindings source into =>
    cases hs : t.find? source with
    | none =>
      rw [apply, copyBindings_dead (.inl hs)]
      exact .refl t j
    | some s =>
      rw [apply, ScopeTree.copyBindings, get_of_find? hs]
      exact .of_modify rfl (fun _ => rfl) fun hj => absurd ⟨hj, contains_of_find? hs⟩ h
  | writeBack source into =>
    cases hs : t.find? source with
    | none =>
      rw [apply, writeBack_dead (.inl hs)]
      exact .refl t j
    | some s =>
      rw [apply, ScopeTree.writeBack, get_of_find? hs]
      exact .of_modify rfl (fun _ => rfl) fun hj => absurd ⟨hj, contains_of_find? hs⟩ h

/-- None of the edits, each done to the tree that those before it have left, touches one of the
scopes. -/
def Avoids (ids : List ScopeId) (t : ScopeTree) : List Edit → Prop
  | [] => True
  | e :: edits => (∀ j ∈ ids, ¬ e.Touches t j) ∧ Avoids ids (e.perform t).2 edits

theorem sameNames_after (ht : t.Stocked) (hc : t.Connected) {edits : List Edit}
    (h : t.Avoids ids edits) (hj : j ∈ ids) : t.SameNames (t.after edits) j := by
  induction edits generalizing t with
  | nil => exact .refl t j
  | cons e edits ih =>
    intro s hs
    obtain ⟨ht', hc'⟩ := e.perform_keeps ht hc
    obtain ⟨s₁, hs₁, hp₁, hb₁⟩ := e.sameNames ht hc (h.1 j hj) s hs
    obtain ⟨s₂, hs₂, hp₂, hb₂⟩ := ih ht' hc' h.2 s₁ hs₁
    exact ⟨s₂, hs₂, hp₂.trans hp₁, hb₂.trans hb₁⟩

namespace Chain

variable (hsame : ∀ j ∈ ids, t.SameNames t' j)
include hsame

theorem of_sameNames (h : t.Chain id ids) : t'.Chain id ids :=
  h.congr fun j hj s hs => by
    obtain ⟨s', hs', hp, _⟩ := hsame j hj s hs
    exact ⟨s', hs', hp⟩

theorem find?_declares (h : t.Chain id ids) (name : String) :
    ids.find? (t'.declares name) = ids.find? (t.declares name) := by
  rw [← List.head?_filter, ← List.head?_filter]
  refine congrArg List.head? (List.filter_congr fun j hj => ?_)
  obtain ⟨s, hs⟩ := h.find? hj
  obtain ⟨s', hs', _, hb⟩ := hsame j hj s hs
  exact declares_congr hs hs' (by rw [hb])

/-- Two trees with the same scopes on the chain agree on every name. -/
theorem lookup_eq (h : t.Chain id ids) (hc : t.Connected) (hc' : t'.Connected) (name : String) :
    t'.resolve id name = t.resolve id name ∧ t'.lookup id name = t.lookup id name := by
  have hr := h.resolve hc name
  have hr' := (h.of_sameNames hsame).resolve hc' name
  rw [h.find?_declares hsame name] at hr'
  refine ⟨hr'.trans hr.symm, ?_⟩
  cases howner : ids.find? (t.declares name) with
  | none =>
    exact (lookup_of_resolve_none (howner ▸ hr')).trans (lookup_of_resolve_none (howner ▸ hr)).symm
  | some owner =>
    have hmem := List.mem_of_find?_eq_some howner
    obtain ⟨s, hs⟩ := h.find? hmem
    obtain ⟨s', hs', _, hb⟩ := hsame owner hmem s hs
    rw [howner] at hr hr'
    rw [lookup_of_resolve_some hr hs, lookup_of_resolve_some hr' hs', hb]

end Chain

/-- Looking a name up from a scope always ends, at the first scope on the chain of parents that
declares it; no edit that touches none of the scopes on the chain makes a difference to what is
found. -/
theorem names_resolve_along_chain (edits : List Edit) (id : ScopeId)
    (hid : (new.after edits).contains id = true) :
    ∃ ids, (new.after edits).Chain id ids ∧
      (∀ name, (new.after edits).Means id name (ids.find? ((new.after edits).declares name))) ∧
      (∀ name steps, ids.length ≤ steps →
        (new.after edits).resolveWithin name steps id = (new.after edits).resolve id name) ∧
      ∀ later, (new.after edits).Avoids ids later →
        ((new.after edits).after later).Chain id ids ∧
        ∀ name, ((new.after edits).after later).resolve id name =
          (new.after edits).resolve id name ∧
          ((new.after edits).after later).lookup id name = (new.after edits).lookup id name := by
  obtain ⟨ht, hc⟩ := after_keeps new_stocked new_connected edits
  obtain ⟨s, hs⟩ := contains_iff.mp hid
  obtain ⟨ids, hids⟩ := hc.exists_chain hs
  refine ⟨ids, hids, hids.means hc, fun name steps hsteps => ?_, fun later hlater => ?_⟩
  · rw [hids.resolveWithin name hsteps, hids.resolve hc name]
  · have hsame : ∀ j ∈ ids, (new.after edits).SameNames ((new.after edits).after later) j :=
      fun j hj => sameNames_after ht hc hlater hj
    obtain ⟨_, hc'⟩ := after_keeps ht hc later
    exact ⟨hids.of_sameNames hsame, hids.lookup_eq hsame hc hc'⟩

/-- A name that two blocks declare around a third one: the inner declaration counts, and goes on to
count when a block next to them declares the name, gives it a value, and is given up. -/
theorem names_resolve_along_chain_beside :
    let before := [.create root .block, .create root .block, .create ⟨1, 0⟩ .block,
      .declare root "x" (some (.integer 1)), .declare ⟨1, 0⟩ "x" (some (.integer 2))]
    let later :=
      [.declare ⟨2, 0⟩ "x" none, .assign ⟨2, 0⟩ "x" (some (.integer 3)), .create ⟨3, 0⟩ .block,
        .destroy ⟨2, 0⟩]
    (new.after before).contains ⟨3, 0⟩ = true ∧
    (new.after before).Avoids [⟨3, 0⟩, ⟨1, 0⟩, root] later ∧
      (new.after before).resolve ⟨3, 0⟩ "x" = .ok (some ⟨1, 0⟩) ∧
      ((new.after before).after later).resolve ⟨3, 0⟩ "x" = .ok (some ⟨1, 0⟩) ∧
      ((new.after before).after later).lookup ⟨3, 0⟩ "x" = .ok (some ⟨"x", some (.integer 2)⟩) := by
  intro before later
  have havoids : (new.after before).Avoids [⟨3, 0⟩, ⟨1, 0⟩, root] later := by
    have hbeside : ⟨2, 0⟩ ∉ ([⟨3, 0⟩, ⟨1, 0⟩, root] : List ScopeId) := by decide
    refine ⟨fun j hj h => hbeside (h.1 ▸ hj), fun j hj h => ?_, fun _ _ h => h,
      fun j hj h => ?_, trivial⟩
    · have howner : ((new.after before).after [.declare ⟨2, 0⟩ "x" none]).resolve ⟨2, 0⟩ "x" =
        .ok (some ⟨2, 0⟩) := rfl
      cases howner.symm.trans h
      exact hbeside hj
    · have hleaf :
        ((new.after before).after [.declare ⟨2, 0⟩ "x" none, .assign ⟨2, 0⟩ "x" (some (.integer 3)),
          .create ⟨3, 0⟩ .block]).childrenOf ⟨2, 0⟩ = [] := by decide
      rcases Relation.ReflTransGen.cases_head h.2 with rfl | ⟨c, hc, _⟩
      · exact hbeside hj
      · exact absurd (hleaf ▸ hc) List.not_mem_nil
  obtain ⟨ids, hids, _, _, hlater⟩ := names_resolve_along_chain before ⟨3, 0⟩ (by decide)
  cases hids.unique (.child rfl rfl (.child rfl rfl (.root rfl rfl)))
  obtain ⟨hresolve, hlookup⟩ := (hlater later havoids).2 "x"
  exact ⟨by decide, havoids, rfl, hresolve, hlookup⟩

end ScopeTree
end Replay
