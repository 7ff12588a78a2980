import Replay.Proofs.Arena.Subtree
import Mathlib.Data.List.Count
/-!
A tree of scopes that is edited in place.

An operation that changes the tree in several steps could fail between two of them and leave the
tree half changed.  Here the operations are taken step by step, with the tree kept as it is when a
step fails.  No such failure happens: whatever is done to the tree, with whatever handles, it stays
intact, and an operation that fails has changed nothing.
-/

namespace Replay
namespace ScopeTree

variable {t t' : ScopeTree} {id j parent : ScopeId} {s p : Scope}

/-- An operation in place: what it answers, and the tree as it leaves it behind, also when it
fails. -/
abbrev InPlace := ExceptT InternalError (StateM ScopeTree)

def settle {α : Type} (t : ScopeTree) :
    Except InternalError (α × ScopeTree) → Except InternalError α × ScopeTree
  | .ok (a, t') => (.ok a, t')
  | .error e => (.error e, t)

theorem settle_eq_ok {α : Type} {r : Except InternalError (α × ScopeTree)} {a : α} :
    settle t r = (.ok a, t') ↔ r = .ok (a, t') := by
  cases r <;> simp [settle, Prod.ext_iff]

theorem settle_eq_error {α : Type} {r : Except InternalError (α × ScopeTree)} {e : InternalError} :
    settle t r = (.error e, t') ↔ r = .error e ∧ t' = t := by
  cases r <;> simp [settle, eq_comm]

namespace InPlace

variable {α β : Type} {t₁ : ScopeTree}

/-- One step, which is done as a whole or fails before it changes anything. -/
def step (f : ScopeTree → Except InternalError (α × ScopeTree)) : InPlace α :=
  fun t => settle t (f t)

def read (f : ScopeTree → Except InternalError α) : InPlace α :=
  step fun t => (f t).map (·, t)

def change (f : ScopeTree → Except InternalError ScopeTree) : InPlace Unit :=
  step fun t => (f t).map ((), ·)

def create (parent : ScopeId) (kind : ScopeKind) : InPlace ScopeId := do
  let _ ← read (·.get parent)
  let id ← step (·.allocate (Scope.fresh (some parent) kind))
  change (·.modify parent fun s => { s with children := s.children ++ [id] })
  return id

def destroy (id : ScopeId) : InPlace Unit := do
  if id = root then throw (.invalidHandle .globalScope)
  else
    let scope ← read (·.get id)
    let order ← read (·.subtree id)
    forM order.reverse fun s => change fun t => .ok (t.release s)
    match scope.parent with
    | some parent =>
      change (·.modify parent fun s => { s with children := s.children.filter (· ≠ id) })
    | none => return ()

def teardown : InPlace Unit := do
  let scope ← read (·.get root)
  forM scope.children.reverse destroy
  change (·.modify root fun s => { s with bindings := Bindings.empty })

theorem bind_ok {x : InPlace α} {f : α → InPlace β} {a : α} (h : x t = (.ok a, t₁)) :
    (x >>= f) t = f a t₁ := by
  simp only [bind, ExceptT.bind, ExceptT.mk, StateT.bind, h]
  rfl

theorem bind_error {x : InPlace α} {f : α → InPlace β} {e : InternalError}
    (h : x t = (.error e, t₁)) :
    (x >>= f) t = (.error e, t₁) := by
  simp only [bind, ExceptT.bind, ExceptT.mk, StateT.bind, h]
  rfl

theorem step_ok {f : ScopeTree → Except InternalError (α × ScopeTree)} {a : α}
    (h : f t = .ok (a, t₁)) :
    step f t = (.ok a, t₁) := by
  rw [step, h]
  rfl

theorem step_error {f : ScopeTree → Except InternalError (α × ScopeTree)} {e : InternalError}
    (h : f t = .error e) :
    step f t = (.error e, t) := by
  rw [step, h]
  rfl

theorem read_ok {f : ScopeTree → Except InternalError α} {a : α} (h : f t = .ok a) :
    read f t = (.ok a, t) :=
  step_ok (by rw [h]; rfl)

theorem read_error {f : ScopeTree → Except InternalError α} {e : InternalError}
    (h : f t = .error e) :
    read f t = (.error e, t) :=
  step_error (by rw [h]; rfl)

theorem change_ok {f : ScopeTree → Except InternalError ScopeTree} (h : f t = .ok t₁) :
    change f t = (.ok (), t₁) :=
  step_ok (by rw [h]; rfl)

theorem map_settle {x : InPlace α} {r : Except InternalError (α × ScopeTree)} (f : α → β)
    (h : x t = settle t r) :
    (f <$> x) t = settle t (r.map fun (a, t) => (f a, t)) := by
  rw [map_eq_pure_bind]
  cases r with
  | ok at' => exact bind_ok h
  | error e => exact bind_error h

/-! ## Step by step and all at once -/

theorem create_eq (ht : t.Stocked) (parent : ScopeId) (kind : ScopeKind) :
    create parent kind t = settle t (t.create parent kind) := by
  cases hp : t.find? parent with
  | none =>
    rw [create_dead hp]
    exact bind_error (read_error (get_dead hp))
  | some p =>
    rw [create, bind_ok (read_ok (get_of_find? hp))]
    rcases allocate_cases ht (.fresh (some parent) kind) with ⟨id, t₁, halloc, ha⟩ | ⟨halloc, _⟩
    · obtain ⟨t', hmod, _⟩ := modify_put (ha.find?_old hp) fun s =>
        { s with children := s.children ++ [id] }
      have hcreate : t.create parent kind = .ok (id, t') := by
        simp only [ScopeTree.create, get_of_find? hp, halloc, hmod, bind, Except.bind, pure,
          Except.pure]
      rw [bind_ok (step_ok halloc), bind_ok (change_ok hmod), hcreate]
      rfl
    · have hcreate : t.create parent kind = .error arenaFull := by
        simp only [ScopeTree.create, get_of_find? hp, halloc, bind, Except.bind]
      rw [bind_error (step_error halloc), hcreate]
      rfl

theorem forM_release (order : List ScopeId) (t : ScopeTree) :
    (forM order.reverse fun s => change fun t => .ok (t.release s)) t =
      (.ok (), order.foldr (fun s t => t.release s) t) := by
  induction order with
  | nil => rfl
  | cons id order ih =>
    rw [List.reverse_cons, List.forM_append, bind_ok ih]
    rfl

theorem destroy_of_ok (h : t.destroy id = .ok t') : destroy id t = (.ok (), t') := by
  rw [ScopeTree.destroy] at h
  by_cases hroot : id = root
  · rw [if_pos hroot] at h
    cases h
  · rw [if_neg hroot] at h
    rw [destroy, if_neg hroot]
    cases hget : t.get id with
    | error e =>
      rw [hget] at h
      cases h
    | ok s =>
      cases hsub : t.subtree id with
      | error e =>
        rw [hget, hsub] at h
        cases h
      | ok order =>
        simp only [hget, hsub, bind, Except.bind, pure, Except.pure] at h
        rw [bind_ok (read_ok hget), bind_ok (read_ok hsub), bind_ok (forM_release order t)]
        cases hpar : s.parent with
        | none =>
          rw [hpar] at h
          cases h
          rfl
        | some parent =>
          rw [hpar] at h
          exact change_ok h

theorem destroy_eq (ht : t.Stocked) (hc : t.Connected) (id : ScopeId) :
    destroy id t = settle t ((t.destroy id).map ((), ·)) := by
  by_cases hroot : id = root
  · subst hroot
    rfl
  · cases hs : t.find? id with
    | none =>
      rw [destroy_dead hs hroot, destroy, if_neg hroot]
      exact bind_error (read_error (get_dead hs))
    | some s =>
      obtain ⟨t', hok, _⟩ := destroy_pruned ht hc hs hroot
      rw [hok]
      exact destroy_of_ok hok

theorem forM_destroy_of_ok {branches : List ScopeId}
    (h : branches.foldlM ScopeTree.destroy t = .ok t') :
    forM branches destroy t = (.ok (), t') := by
  induction branches generalizing t with
  | nil =>
    cases h
    rfl
  | cons id branches ih =>
    rw [List.foldlM_cons] at h
    cases hok : t.destroy id with
    | error e =>
      rw [hok] at h
      cases h
    | ok t₁ =>
      rw [hok] at h
      rw [List.forM_cons, bind_ok (destroy_of_ok hok)]
      exact ih h

theorem teardown_eq (ht : t.Stocked) (hc : t.Connected) :
    teardown t = settle t (t.teardown.map ((), ·)) := by
  obtain ⟨t', hok, _⟩ := teardown_cleared ht hc
  obtain ⟨s, hs, _⟩ := hc.root
  obtain ⟨t₁, _, hfold, _⟩ := foldlM_destroy ht hc hs (List.reverse_reverse s.children).symm
  have hmod := hok
  simp only [ScopeTree.teardown, get_of_find? hs, hfold, bind, Except.bind] at hmod
  rw [hok, teardown, bind_ok (read_ok (get_of_find? hs)), bind_ok (forM_destroy_of_ok hfold)]
  exact change_ok hmod

end InPlace

/-! ## Edits -/

inductive Edit where
  | create (parent : ScopeId) (kind : ScopeKind)
  | destroy (id : ScopeId)
  | teardown
  | declare (id : ScopeId) (name : String) (value : Option Value)
  | assign (id : ScopeId) (name : String) (value : Option Value)
  | setKind (id : ScopeId) (kind : ScopeKind)
  | copyBindings (source into : ScopeId)
  | writeBack (source into : ScopeId)

inductive Answer where
  | scope (id : ScopeId)
  | done
  /-- The name is declared already, or there is no variable of that name. -/
  | declined

def orDeclined (t : ScopeTree) : Option ScopeTree → Answer × ScopeTree
  | some t' => (.done, t')
  | none => (.declined, t)

namespace Edit

def apply (t : ScopeTree) : Edit → Except InternalError (Answer × ScopeTree)
  | create parent kind => (t.create parent kind).map fun (id, t) => (.scope id, t)
  | destroy id => (t.destroy id).map (.done, ·)
  | teardown => t.teardown.map (.done, ·)
  | declare id name value => (t.declare? id name value).map t.orDeclined
  | assign id name value => (t.assign? id name value).map t.orDeclined
  | setKind id kind => (t.setKind id kind).map (.done, ·)
  | copyBindings source into => (t.copyBindings source into).map (.done, ·)
  | writeBack source into => (t.writeBack source into).map (.done, ·)

/-- The edit in place.  An edit that changes one scope is one step. -/
def perform : Edit → InPlace Answer
  | create parent kind => Answer.scope <$> InPlace.create parent kind
  | destroy id => (fun _ => Answer.done) <$> InPlace.destroy id
  | teardown => (fun _ => Answer.done) <$> InPlace.teardown
  | edit => InPlace.step edit.apply

theorem perform_eq (ht : t.Stocked) (hc : t.Connected) (e : Edit) :
    e.perform t = settle t (e.apply t) := by
  cases e with
  | create parent kind => exact InPlace.map_settle _ (InPlace.create_eq ht parent kind)
  | destroy id =>
    rw [apply, perform, InPlace.map_settle _ (InPlace.destroy_eq ht hc id)]
    cases t.destroy id <;> rfl
  | teardown =>
    rw [apply, perform, InPlace.map_settle _ (InPlace.teardown_eq ht hc)]
    cases t.teardown <;> rfl
  | declare id name value => rfl
  | assign id name value => rfl
  | setKind id kind => rfl
  | copyBindings source into => rfl
  | writeBack source into => rfl

end Edit

/-! ## What an edit does -/

inductive Edited (t : ScopeTree) : Edit → Answer → ScopeTree → Prop where
  | created {parent id : ScopeId} {p : Scope} {kind : ScopeKind} {t' : ScopeTree} :
    t.find? parent = some p → t.Created parent p kind id t' →
    Edited t (.create parent kind) (.scope id) t'
  | pruned {id : ScopeId} {s : Scope} {t' : ScopeTree} :
    t.find? id = some s → id ≠ root → t.Pruned id t' → Edited t (.destroy id) .done t'
  | cleared {t' : ScopeTree} : t.Cleared t' → Edited t .teardown .done t'
  | put {e : Edit} {id : ScopeId} {s s' : Scope} {t' : ScopeTree} :
    t.find? id = some s → t.Put id s' t' → s'.parent = s.parent → s'.children = s.children →
    Edited t e .done t'
  | declined {e : Edit} : Edited t e .declined t

theorem modify_edited {e : Edit} {a : Answer} {f : Scope → Scope}
    (h : (t.modify id f).map (Answer.done, ·) = .ok (a, t')) (hp : ∀ s, (f s).parent = s.parent)
    (hch : ∀ s, (f s).children = s.children) : t.Edited e a t' := by
  cases hok : t.modify id f with
  | error err =>
    rw [hok] at h
    cases h
  | ok t₁ =>
    rw [hok] at h
    cases h
    obtain ⟨s, hs, hput⟩ := put_of_modify hok
    exact .put hs hput (hp s) (hch s)

theorem Edit.edited {e : Edit} {a : Answer} (ht : t.Stocked) (hc : t.Connected)
    (h : e.apply t = .ok (a, t')) :
    t.Edited e a t' := by
  cases e with
  | create parent kind =>
    cases hp : t.find? parent with
    | none =>
      rw [Edit.apply, create_dead hp] at h
      cases h
    | some p =>
      rcases create_cases ht hp kind with ⟨id, t₁, hok, hcreated⟩ | ⟨hno, _⟩
      · rw [Edit.apply, hok] at h
        cases h
        exact .created hp hcreated
      · rw [Edit.apply, hno] at h
        cases h
  | destroy id =>
    by_cases hroot : id = root
    · subst hroot
      cases h
    · cases hs : t.find? id with
      | none =>
        rw [Edit.apply, destroy_dead hs hroot] at h
        cases h
      | some s =>
        obtain ⟨t₁, hok, hpruned⟩ := destroy_pruned ht hc hs hroot
        rw [Edit.apply, hok] at h
        cases h
        exact .pruned hs hroot hpruned
  | teardown =>
    obtain ⟨t₁, hok, hcleared⟩ := teardown_cleared ht hc
    rw [Edit.apply, hok] at h
    cases h
    exact .cleared hcleared
  | declare id name value =>
    cases hs : t.find? id with
    | none =>
      rw [Edit.apply, declare?_dead hs] at h
      cases h
    | some s =>
      rcases declare?_cases hs name value with hno | ⟨bindings, t₁, hok, _, hput⟩
      · rw [Edit.apply, hno] at h
        cases h
        exact .declined
      · rw [Edit.apply, hok] at h
        cases h
        exact .put hs hput rfl rfl
  | assign id name value =>
    cases hs : t.find? id with
    | none =>
      rw [Edit.apply, assign?_dead hc hs] at h
      cases h
    | some s =>
      rcases assign?_cases hc (contains_of_find? hs) name value with
        hno | ⟨owner, s₁, t₁, hok, hs₁, hput⟩
      · rw [Edit.apply, hno] at h
        cases h
        exact .declined
      · rw [Edit.apply, hok] at h
        cases h
        exact .put hs₁ hput rfl rfl
  | setKind id kind =>
    rw [Edit.apply, ScopeTree.setKind] at h
    exact modify_edited h (fun _ => rfl) fun _ => rfl
  | copyBindings source into =>
    cases hs : t.find? source with
    | none =>
      rw [Edit.apply, copyBindings_dead (.inl hs)] at h
      cases h
    | some s =>
      rw [Edit.apply, ScopeTree.copyBindings, get_of_find? hs] at h
      exact modify_edited h (fun _ => rfl) fun _ => rfl
  | writeBack source into =>
    cases hs : t.find? source with
    | none =>
      rw [Edit.apply, writeBack_dead (.inl hs)] at h
      cases h
    | some s =>
      rw [Edit.apply, ScopeTree.writeBack, get_of_find? hs] at h
      exact modify_edited h (fun _ => rfl) fun _ => rfl

theorem Edited.stocked {e : Edit} {a : Answer} (h : t.Edited e a t') (ht : t.Stocked) :
    t'.Stocked := by
  cases h with
  | created _ hcreated => exact hcreated.stocked
  | pruned _ _ hpruned => exact hpruned.stocked
  | cleared hcleared => exact hcleared.stocked
  | put hs hput _ _ => exact hput.stocked hs ht
  | declined => exact ht

theorem Edited.connected {e : Edit} {a : Answer} (h : t.Edited e a t') (hc : t.Connected) :
    t'.Connected := by
  cases h with
  | created hp hcreated => exact hcreated.connected hp hc
  | pruned _ hroot hpruned => exact hpruned.connected hc hroot
  | cleared hcleared => exact hcleared.connected
  | put hs hput hpar hch => exact hc.of_links (hput.links hs hpar hch)
  | declined => exact hc

/-! ## Runs of edits -/

/-- The tree after some edits, each of which may have failed. -/
def after (t : ScopeTree) : List Edit → ScopeTree
  | [] => t
  | e :: edits => (e.perform t).2.after edits

/-- One edit: it is done, or it fails and changes nothing. -/
theorem Edit.perform_cases (ht : t.Stocked) (hc : t.Connected) (e : Edit) :
    (∃ a, e.perform t = (.ok a, (e.perform t).2) ∧ t.Edited e a (e.perform t).2) ∨
      ∃ err, e.perform t = (.error err, t) := by
  rw [e.perform_eq ht hc]
  cases happly : e.apply t with
  | error err => exact .inr ⟨err, rfl⟩
  | ok r => exact .inl ⟨r.1, rfl, e.edited ht hc happly⟩

theorem Edit.perform_keeps (ht : t.Stocked) (hc : t.Connected) (e : Edit) :
    (e.perform t).2.Stocked ∧ (e.perform t).2.Connected := by
  rcases e.perform_cases ht hc with ⟨a, _, h⟩ | ⟨err, h⟩
  · exact ⟨h.stocked ht, h.connected hc⟩
  · rw [h]
    exact ⟨ht, hc⟩

theorem after_keeps (ht : t.Stocked) (hc : t.Connected) (edits : List Edit) :
    (t.after edits).Stocked ∧ (t.after edits).Connected := by
  induction edits generalizing t with
  | nil => exact ⟨ht, hc⟩
  | cons e edits ih =>
    obtain ⟨ht', hc'⟩ := e.perform_keeps ht hc
    exact ih ht' hc'

/-! ## Intact trees -/

def HasParent (t : ScopeTree) (id parent : ScopeId) : Prop :=
  ∃ s, t.find? id = some s ∧ s.parent = some parent

/-- Everything that keeps the slots, the handles and the counts of a tree together. -/
structure Intact (t : ScopeTree) : Prop where
  root : ∃ s, t.find? root = some s ∧ s.parent = none
  parent : ∀ {id s}, t.find? id = some s → id ≠ ScopeTree.root →
    ∃ parent p, s.parent = some parent ∧ t.find? parent = some p ∧ p.children.count id = 1
  child : ∀ {id s c}, t.find? id = some s → c ∈ s.children →
    ∃ s', t.find? c = some s' ∧ s'.parent = some id
  acyclic : ∀ id, ¬ Relation.TransGen t.HasParent id id
  rooted : ∀ {id}, t.contains id = true → Relation.ReflTransGen t.HasParent id ScopeTree.root
  free : t.free.Nodup ∧ ∀ i, i ∈ t.free ↔ ∃ slot, t.slots[i]? = some slot ∧ slot.scope = none
  live : t.live = t.slots.countP (·.scope.isSome)

theorem AtDepth.rooted {n : Nat} (h : t.AtDepth id n) :
    Relation.ReflTransGen t.HasParent id ScopeTree.root := by
  induction h with
  | root _ => exact .refl
  | child hs hp _ ih => exact .head ⟨_, hs, hp⟩ ih

theorem Connected.depth_above (hc : t.Connected) {n : Nat} (hd : t.AtDepth id n)
    (h : Relation.TransGen t.HasParent id j) : ∃ k, k < n ∧ t.AtDepth j k := by
  have hup : ∀ {i q k}, t.AtDepth i k → t.HasParent i q → ∃ k', k = k' + 1 ∧ t.AtDepth q k' := by
    rintro i q k hd ⟨s, hs, hp⟩
    cases hd with
    | root _ => exact absurd rfl (hc.ne_root hs hp)
    | child hs' hp' hd' =>
      cases hs.symm.trans hs'
      cases hp.symm.trans hp'
      exact ⟨_, rfl, hd'⟩
  induction h with
  | single h =>
    obtain ⟨k, rfl, hd'⟩ := hup hd h
    exact ⟨k, Nat.lt_succ_self k, hd'⟩
  | tail _ h ih =>
    obtain ⟨k, hk, hd'⟩ := ih
    obtain ⟨k', rfl, hd''⟩ := hup hd' h
    exact ⟨k', by omega, hd''⟩

theorem Connected.acyclic (hc : t.Connected) (id : ScopeId) :
    ¬ Relation.TransGen t.HasParent id id := by
  intro h
  obtain ⟨_, ⟨s, hs, _⟩, _⟩ := Relation.TransGen.head'_iff.mp h
  obtain ⟨n, hn⟩ := hc.depth hs
  obtain ⟨k, hk, hd⟩ := hc.depth_above hn h
  have := hc.depth_unique hn hd
  omega

/-- A slot is empty if no handle to it finds a scope. -/
theorem empty_iff {i : Nat} :
    (∃ slot, t.slots[i]? = some slot ∧ slot.scope = none) ↔
      i < t.slots.size ∧ ∀ g, t.find? ⟨i, g⟩ = none := by
  constructor
  · rintro ⟨slot, hslot, hnone⟩
    refine ⟨(Array.getElem?_eq_some_iff.mp hslot).1, fun g => ?_⟩
    simp only [find?, hslot, hnone, ite_self]
  · rintro ⟨hi, hnone⟩
    have hslot := Array.getElem?_eq_getElem hi
    refine ⟨t.slots[i], hslot, ?_⟩
    have hg := hnone t.slots[i].generation
    simpa only [find?, hslot, if_true] using hg

theorem Stocked.mem_free (ht : t.Stocked) (i : Nat) :
    i ∈ t.free ↔ ∃ slot, t.slots[i]? = some slot ∧ slot.scope = none := by
  rw [empty_iff]
  exact ⟨ht.free i, fun h => ht.unused i h.1 h.2⟩

theorem countP_range_getElem? {α : Type} (l : List α) (p : Option α → Bool) :
    (List.range l.length).countP (fun i => p l[i]?) = l.countP (fun a => p (some a)) := by
  induction l with
  | nil => rfl
  | cons a l ih =>
    rw [List.length_cons, List.range_succ_eq_map, List.countP_cons, List.countP_map,
      List.countP_cons, ← ih]
    rfl

/-- There are as many free slots as empty ones. -/
theorem Stocked.length_free (ht : t.Stocked) : t.free.length = t.slots.countP (·.scope.isNone) := by
  have hperm :
      t.free.Perm ((List.range t.slots.size).filter fun i => t.slots[i]?.any (·.scope.isNone)) := by
    refine (List.perm_ext_iff_of_nodup ht.nodup (List.nodup_range.filter _)).mpr fun i => ?_
    rw [ht.mem_free, List.mem_filter, List.mem_range]
    constructor
    · rintro ⟨slot, hslot, hnone⟩
      exact ⟨(Array.getElem?_eq_some_iff.mp hslot).1, by simp [hslot, hnone]⟩
    · rintro ⟨hi, hany⟩
      rw [Array.getElem?_eq_getElem hi] at hany
      exact ⟨_, Array.getElem?_eq_getElem hi, by simpa using hany⟩
  have hrange := countP_range_getElem? t.slots.toList (·.any (·.scope.isNone))
  simp only [Array.getElem?_toList, Array.length_toList, Option.any_some] at hrange
  rw [hperm.length_eq, ← List.countP_eq_length_filter, hrange, Array.countP_toList]

theorem Stocked.live_eq (ht : t.Stocked) : t.live = t.slots.countP (·.scope.isSome) := by
  have hcount := ht.count
  have hfree := ht.length_free
  have hall : t.slots.size = t.slots.countP (·.scope.isSome) + t.slots.countP (·.scope.isNone) := by
    rw [← Array.countP_toList, ← Array.countP_toList, ← Array.length_toList,
      List.length_eq_countP_add_countP (·.scope.isSome), Nat.add_left_cancel_iff]
    exact List.countP_congr fun slot _ => by simp
  omega

theorem intact (ht : t.Stocked) (hc : t.Connected) : t.Intact where
  root := hc.root
  parent := hc.parent
  child := hc.child
  acyclic := hc.acyclic
  rooted h := by
    obtain ⟨s, hs⟩ := contains_iff.mp h
    obtain ⟨n, hn⟩ := hc.depth hs
    exact hn.rooted
  free := ⟨ht.nodup, ht.mem_free⟩
  live := ht.live_eq

/-- Whatever is done to the tree, with live, stale or made-up handles, it stays intact; the steps of
every edit end as the edit as a whole does, and an edit that fails leaves the tree as it was. -/
theorem edits_keep_intact (edits : List Edit) :
    (new.after edits).Intact ∧
      (∀ (e : Edit) a t', e.perform (new.after edits) = (.ok a, t') ↔
        e.apply (new.after edits) = .ok (a, t')) ∧
      ∀ (e : Edit) err t', e.perform (new.after edits) = (.error err, t') ↔
        e.apply (new.after edits) = .error err ∧ t' = new.after edits := by
  obtain ⟨ht, hc⟩ := after_keeps new_stocked new_connected edits
  refine ⟨intact ht hc, fun e a t' => ?_, fun e err t' => ?_⟩
  · rw [e.perform_eq ht hc]
    exact settle_eq_ok
  · rw [e.perform_eq ht hc]
    exact settle_eq_error

end ScopeTree
end Replay
