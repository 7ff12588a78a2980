import Replay.Proofs.Arena
import Mathlib.Data.List.Nodup
import Mathlib.Logic.Relation
/-!
What is below a scope.

A scope is given up together with everything below it, level by level from the bottom.  A branch of
the tree is shorter than the slots are many, so no level is missed.  What is left is the tree
without that branch, and every handle into the branch is dead.
-/

namespace Replay

def Scope.without (s : Scope) (id : ScopeId) : Scope :=
  { s with children := s.children.filter (· ≠ id) }

namespace ScopeTree

variable {t t' : ScopeTree} {id j c parent : ScopeId} {s p : Scope} {n k : Nat}
  {level order : List ScopeId}

/-- The children of a scope; a handle that is dead has none. -/
def childrenOf (t : ScopeTree) (id : ScopeId) : List ScopeId :=
  ((t.find? id).map Scope.children).getD []

/-- The scope at the second handle is the one at the first, or is below it. -/
def Under (t : ScopeTree) : ScopeId → ScopeId → Prop :=
  Relation.ReflTransGen fun id c => c ∈ t.childrenOf id

theorem childrenOf_eq (h : t.find? id = some s) : t.childrenOf id = s.children := by
  rw [childrenOf, h]
  rfl

theorem exists_of_mem_childrenOf (h : c ∈ t.childrenOf id) :
    ∃ s, t.find? id = some s ∧ c ∈ s.children := by
  cases hs : t.find? id with
  | none =>
    rw [childrenOf, hs] at h
    cases h
  | some s => exact ⟨s, rfl, childrenOf_eq hs ▸ h⟩

/-! ## Depths -/

theorem AtDepth.find? (h : t.AtDepth id n) : ∃ s, t.find? id = some s := by
  cases h with
  | root hs => exact ⟨_, hs⟩
  | child hs _ _ => exact ⟨_, hs⟩

namespace Connected

theorem parent_of_mem (ht : t.Connected) (h : c ∈ t.childrenOf id) :
    ∃ s, t.find? c = some s ∧ s.parent = some id := by
  obtain ⟨p, hp, hc⟩ := exists_of_mem_childrenOf h
  exact ht.child hp hc

theorem mem_childrenOf (ht : t.Connected) (hs : t.find? id = some s) (hp : s.parent = some parent) :
    id ∈ t.childrenOf parent := by
  obtain ⟨q, qs, hq, hfind, hcount⟩ := ht.parent hs (ht.ne_root hs hp)
  cases hq.symm.trans hp
  rw [childrenOf_eq hfind]
  exact List.count_pos_iff.mp (hcount ▸ Nat.one_pos)

theorem nodup_childrenOf (ht : t.Connected) (id : ScopeId) : (t.childrenOf id).Nodup := by
  rw [List.nodup_iff_count_le_one]
  intro c
  by_cases hc : c ∈ t.childrenOf id
  · obtain ⟨s, hs, hp⟩ := ht.parent_of_mem hc
    obtain ⟨q, qs, hq, hfind, hcount⟩ := ht.parent hs (ht.ne_root hs hp)
    cases hq.symm.trans hp
    exact Nat.le_of_eq (childrenOf_eq hfind ▸ hcount)
  · rw [List.count_eq_zero_of_not_mem hc]
    exact Nat.zero_le 1

/-- A scope is at one depth. -/
theorem depth_unique (ht : t.Connected) (h : t.AtDepth id n) (h' : t.AtDepth id k) : n = k := by
  induction h generalizing k with
  | root hs =>
    cases h' with
    | root _ => rfl
    | child hs' hp' _ => exact absurd rfl (ht.ne_root hs' hp')
  | child hs hp _ ih =>
    cases h' with
    | root _ => exact absurd rfl (ht.ne_root hs hp)
    | child hs' hp' hd' =>
      cases hs.symm.trans hs'
      cases hp.symm.trans hp'
      rw [ih hd']

theorem depth_child (ht : t.Connected) (hd : t.AtDepth id n) (hc : c ∈ t.childrenOf id) :
    t.AtDepth c (n + 1) := by
  obtain ⟨s, hs, hp⟩ := ht.parent_of_mem hc
  exact .child hs hp hd

theorem depth_under (ht : t.Connected) (h : t.Under id j) (hd : t.AtDepth id n) :
    ∃ k, n ≤ k ∧ t.AtDepth j k := by
  induction h with
  | refl => exact ⟨n, Nat.le_refl n, hd⟩
  | tail _ hc ih =>
    obtain ⟨k, hk, hd'⟩ := ih
    exact ⟨k + 1, Nat.le_succ_of_le hk, ht.depth_child hd' hc⟩

/-- The scopes on the way up are different ones. -/
theorem chain (ht : t.Connected) (hd : t.AtDepth id n) :
    ∃ ids : List ScopeId, ids.length = n + 1 ∧ ids.Nodup ∧ ∀ j ∈ ids, ∃ k ≤ n, t.AtDepth j k := by
  induction hd with
  | root hs =>
    refine ⟨[ScopeTree.root], rfl, List.nodup_singleton _, fun j hj => ?_⟩
    cases List.mem_singleton.mp hj
    exact ⟨0, Nat.le_refl 0, .root hs⟩
  | @child id parent s n hs hp hd ih =>
    obtain ⟨ids, hlength, hnodup, hall⟩ := ih
    have hnew : id ∉ ids := fun hid => by
      obtain ⟨k, hk, hd'⟩ := hall id hid
      have := ht.depth_unique (.child hs hp hd) hd'
      omega
    refine ⟨id :: ids, by rw [List.length_cons, hlength], List.nodup_cons.mpr ⟨hnew, hnodup⟩,
      fun j hj => ?_⟩
    rcases List.mem_cons.mp hj with rfl | hj
    · exact ⟨n + 1, Nat.le_refl _, .child hs hp hd⟩
    · obtain ⟨k, hk, hd'⟩ := hall j hj
      exact ⟨k, Nat.le_succ_of_le hk, hd'⟩

/-- A branch has no more scopes than there are slots. -/
theorem depth_lt (ht : t.Connected) (hd : t.AtDepth id n) : n < t.slots.size := by
  obtain ⟨ids, hlength, hnodup, hall⟩ := ht.chain hd
  have hfound : ∀ j ∈ ids, ∃ s, t.find? j = some s := fun j hj => by
    obtain ⟨k, _, hd'⟩ := hall j hj
    exact hd'.find?
  have hindex : (ids.map ScopeId.index).Nodup := by
    refine hnodup.map_on fun a ha b hb hab => ?_
    obtain ⟨sa, hsa⟩ := hfound a ha
    obtain ⟨sb, hsb⟩ := hfound b hb
    exact eq_of_find? hsa hsb hab
  have hsub : ids.map ScopeId.index ⊆ List.range t.slots.size := by
    intro i hi
    obtain ⟨j, hj, rfl⟩ := List.mem_map.mp hi
    obtain ⟨s, hs⟩ := hfound j hj
    exact List.mem_range.mpr (index_lt_of_find? hs)
  have hle := (List.subperm_of_subset hindex hsub).length_le
  rw [List.length_map, hlength, List.length_range] at hle
  omega

/-- Nothing above a scope is below it. -/
theorem not_under_parent (ht : t.Connected) (hs : t.find? id = some s)
    (hp : s.parent = some parent) :
    ¬ t.Under id parent := by
  intro h
  obtain ⟨p, hfind⟩ := contains_iff.mp (ht.contains_parent hs hp)
  obtain ⟨n, hn⟩ := ht.depth hfind
  obtain ⟨k, hk, hd⟩ := ht.depth_under h (.child hs hp hn)
  have := ht.depth_unique hn hd
  omega

theorem not_under_root (ht : t.Connected) (hid : id ≠ ScopeTree.root) :
    ¬ t.Under id ScopeTree.root := by
  intro h
  rcases Relation.ReflTransGen.cases_tail h with heq | ⟨q, _, hc⟩
  · exact hid heq.symm
  · obtain ⟨s, hs, hp⟩ := ht.parent_of_mem hc
    exact ht.ne_root hs hp rfl

end Connected

/-! ## Level by level -/

theorem mapM_get_children (h : ∀ j ∈ level, ∃ s, t.find? j = some s) :
    ∃ scopes, level.mapM t.get = .ok scopes ∧
      scopes.flatMap Scope.children = level.flatMap t.childrenOf := by
  induction level with
  | nil => exact ⟨[], rfl, rfl⟩
  | cons id level ih =>
    obtain ⟨s, hs⟩ := h id List.mem_cons_self
    obtain ⟨scopes, hok, hch⟩ := ih fun j hj => h j (List.mem_cons_of_mem id hj)
    refine ⟨s :: scopes, ?_, ?_⟩
    · simp only [List.mapM_cons, get_of_find? hs, hok, bind, Except.bind, pure, Except.pure]
    · rw [List.flatMap_cons, List.flatMap_cons, hch, childrenOf_eq hs]

theorem Connected.nodup_flatMap (ht : t.Connected) (h : level.Nodup) :
    (level.flatMap t.childrenOf).Nodup := by
  refine List.nodup_flatMap.mpr ⟨fun id _ => ht.nodup_childrenOf id, h.imp fun hne c hc hc' => ?_⟩
  obtain ⟨s, hs, hp⟩ := ht.parent_of_mem hc
  obtain ⟨s', hs', hp'⟩ := ht.parent_of_mem hc'
  cases hs.symm.trans hs'
  exact hne (Option.some.inj (hp.symm.trans hp'))

theorem exists_under_iff :
    (∃ id ∈ level, t.Under id j) ↔ j ∈ level ∨ ∃ c ∈ level.flatMap t.childrenOf, t.Under c j := by
  constructor
  · rintro ⟨id, hid, h⟩
    rcases Relation.ReflTransGen.cases_head h with rfl | ⟨c, hc, h⟩
    · exact .inl hid
    · exact .inr ⟨c, List.mem_flatMap.mpr ⟨id, hid, hc⟩, h⟩
  · rintro (hj | ⟨c, hc, h⟩)
    · exact ⟨j, hj, .refl⟩
    · obtain ⟨id, hid, hc⟩ := List.mem_flatMap.mp hc
      exact ⟨id, hid, .head hc h⟩

/-- Enough levels are everything below, each scope once. -/
theorem Connected.levels_ok (ht : t.Connected) (hd : ∀ j ∈ level, t.AtDepth j n)
    (hnodup : level.Nodup) (hk : t.slots.size ≤ k + n) :
    ∃ order, t.levels k level = .ok order ∧ order.Nodup ∧
      ∀ j, j ∈ order ↔ ∃ id ∈ level, t.Under id j := by
  induction k generalizing level n with
  | zero =>
    -- a scope so deep would have as many scopes above it as there are slots
    have hnil : level = [] := List.eq_nil_iff_forall_not_mem.mpr fun j hj => by
      have := ht.depth_lt (hd j hj)
      omega
    subst hnil
    exact ⟨[], rfl, List.nodup_nil, fun j => by simp⟩
  | succ k ih =>
    by_cases hnil : level = []
    · subst hnil
      exact ⟨[], rfl, List.nodup_nil, fun j => by simp⟩
    · obtain ⟨scopes, hscopes, hch⟩ := mapM_get_children fun j hj => (hd j hj).find?
      have hdeeper : ∀ c ∈ level.flatMap t.childrenOf, t.AtDepth c (n + 1) := fun c hc => by
        obtain ⟨id, hid, hc⟩ := List.mem_flatMap.mp hc
        exact ht.depth_child (hd id hid) hc
      obtain ⟨deeper, hok, hdn, hmem⟩ := ih hdeeper (ht.nodup_flatMap hnodup) (by omega)
      have hlevels : t.levels (k + 1) level = .ok (level ++ deeper) := by
        rw [levels.eq_3 _ _ _ hnil, hscopes]
        simp only [bind, Except.bind, hch, hok, pure, Except.pure]
      refine ⟨level ++ deeper, hlevels, hnodup.append hdn fun j hj hj' => ?_, fun j => ?_⟩
      · obtain ⟨c, hc, h⟩ := (hmem j).mp hj'
        obtain ⟨d, hle, hd'⟩ := ht.depth_under h (hdeeper c hc)
        have := ht.depth_unique (hd j hj) hd'
        omega
      · rw [List.mem_append, hmem, ← exists_under_iff]

theorem Connected.subtree_ok (ht : t.Connected) (hs : t.find? id = some s) :
    ∃ order, t.subtree id = .ok order ∧ order.Nodup ∧ ∀ j, j ∈ order ↔ t.Under id j := by
  obtain ⟨n, hn⟩ := ht.depth hs
  have hlevel : ∀ j ∈ [id], t.AtDepth j n := fun j hj => List.mem_singleton.mp hj ▸ hn
  obtain ⟨order, hok, hnodup, hmem⟩ :=
    ht.levels_ok hlevel (List.nodup_singleton id) (Nat.le_add_right t.slots.size n)
  exact ⟨order, hok, hnodup, fun j => by simp [hmem]⟩

theorem Connected.find?_of_under (ht : t.Connected) (hs : t.find? id = some s) (h : t.Under id j) :
    ∃ s', t.find? j = some s' := by
  obtain ⟨n, hn⟩ := ht.depth hs
  obtain ⟨k, _, hd⟩ := ht.depth_under h hn
  exact hd.find?

/-! ## Giving up a branch -/

/-- Slots have been emptied and none has been filled; the generation of a slot that was emptied is
the next one. -/
structure Spent (t t' : ScopeTree) : Prop where
  occupied : ∀ i, t'.occupied i = true → t.occupied i = true
  generation : ∀ i,
    t'.generationAt i = t.generationAt i + if t.occupied i && !t'.occupied i then 1 else 0
  size : t'.slots.size = t.slots.size

namespace Spent

theorem refl (t : ScopeTree) : t.Spent t where
  occupied _ h := h
  generation i := by simp
  size := rfl

theorem trans {t'' : ScopeTree} (h : t.Spent t') (h' : t'.Spent t'') : t.Spent t'' where
  occupied i hi := h.occupied i (h'.occupied i hi)
  generation i := by
    rw [h'.generation, h.generation]
    have hbefore := h.occupied i
    have hafter := h'.occupied i
    cases hi : t.occupied i <;> cases hi' : t'.occupied i <;> cases hi'' : t''.occupied i
      <;> simp_all
  size := h'.size.trans h.size

end Spent

theorem Put.occupied (h : t.Put id s t') (hid : t.find? id = some p) (i : Nat) :
    t'.occupied i = t.occupied i := by
  refine Bool.eq_iff_iff.mpr ?_
  rw [occupied_iff, occupied_iff]
  constructor
  · rintro ⟨g, q, hq⟩
    rw [h.find?] at hq
    split at hq
    · rename_i heq
      exact ⟨g, p, heq ▸ hid⟩
    · exact ⟨g, q, hq⟩
  · rintro ⟨g, q, hq⟩
    by_cases heq : (⟨i, g⟩ : ScopeId) = id
    · exact ⟨g, s, by rw [h.find?, if_pos heq]⟩
    · exact ⟨g, q, by rw [h.find?, if_neg heq, hq]⟩

theorem Put.spent (h : t.Put id s t') (hid : t.find? id = some p) : t.Spent t' where
  occupied i hi := (h.occupied hid i) ▸ hi
  generation i := by
    rw [h.generation, h.occupied hid, Bool.and_not_self]
    simp
  size := h.size

theorem release_spent (h : t.find? id = some s) : t.Spent (t.release id) := by
  have hocc : ∀ i, (t.release id).occupied i = true ↔ t.occupied i = true ∧ i ≠ id.index := by
    intro i
    rw [occupied_iff, occupied_iff]
    constructor
    · rintro ⟨g, q, hq⟩
      rw [find?_release h] at hq
      split at hq
      · cases hq
      · rename_i hne
        exact ⟨⟨g, q, hq⟩, fun hi => hne (eq_of_find? hq h hi)⟩
    · rintro ⟨⟨g, q, hq⟩, hi⟩
      exact ⟨g, q, by rw [find?_release h, if_neg fun heq => hi (congrArg ScopeId.index heq), hq]⟩
  refine ⟨fun i hi => ((hocc i).mp hi).1, fun i => ?_, t.size_release id⟩
  have hgen : (t.release id).generationAt i = t.generationAt i + if i = id.index then 1 else 0 := by
    have hlt := index_lt_of_find? h
    rw [release, if_pos (contains_of_find? h)]
    simp only [generationAt, Array.getElem?_modify]
    by_cases hi : i = id.index
    · subst hi
      rw [if_pos rfl, if_pos rfl, Array.getElem?_eq_getElem hlt]
      rfl
    · rw [if_neg fun heq => hi heq.symm, if_neg hi]
      simp
  rw [hgen]
  by_cases hi : i = id.index
  · have hbefore : t.occupied i = true := hi ▸ occupied_iff.mpr ⟨id.generation, s, h⟩
    have hafter : (t.release id).occupied i = false :=
      Bool.eq_false_iff.mpr fun hocc' => ((hocc i).mp hocc').2 hi
    rw [if_pos hi, hbefore, hafter]
    rfl
  · have hsame : (t.release id).occupied i = t.occupied i :=
      Bool.eq_iff_iff.mpr ⟨fun h => ((hocc i).mp h).1, fun h => (hocc i).mpr ⟨h, hi⟩⟩
    rw [if_neg hi, hsame, Bool.and_not_self]
    simp

structure Released (t : ScopeTree) (order : List ScopeId) (t' : ScopeTree) : Prop where
  find? : ∀ j, t'.find? j = if j ∈ order then none else t.find? j
  stocked : t'.Stocked
  spent : t.Spent t'

theorem Stocked.released (ht : t.Stocked) (hnodup : order.Nodup)
    (h : ∀ j ∈ order, ∃ s, t.find? j = some s) :
    t.Released order (order.foldr (fun s t => t.release s) t) := by
  induction order with
  | nil => exact ⟨fun j => by simp, ht, .refl t⟩
  | cons id order ih =>
    obtain ⟨hid, hnodup⟩ := List.nodup_cons.mp hnodup
    obtain ⟨hfind, hstocked, hspent⟩ := ih hnodup fun j hj => h j (List.mem_cons_of_mem id hj)
    obtain ⟨s, hs⟩ := h id List.mem_cons_self
    have hs' : (order.foldr (fun s t => t.release s) t).find? id = some s := by
      rw [hfind, if_neg hid, hs]
    refine ⟨fun j => ?_, release_stocked hstocked hs', hspent.trans (release_spent hs')⟩
    rw [List.foldr_cons, find?_release hs', hfind]
    by_cases hj : j = id
    · rw [if_pos hj, if_pos (hj ▸ List.mem_cons_self)]
    · rw [if_neg hj]
      simp only [List.mem_cons, hj, false_or]

structure Pruned (t : ScopeTree) (id : ScopeId) (t' : ScopeTree) : Prop where
  gone : ∀ {j}, t.Under id j → t'.find? j = none
  kept : ∀ {j}, ¬ t.Under id j → t'.find? j = (t.find? j).map (·.without id)
  stocked : t'.Stocked
  spent : t.Spent t'

/-- Only the parent loses a child. -/
theorem Connected.without_eq (ht : t.Connected) (hid : t.find? id = some s)
    (hpar : s.parent = some parent)
    (hj : t.find? j = some p) (hne : j ≠ parent) : p.without id = p := by
  have hnone : id ∉ p.children := fun hmem => by
    obtain ⟨s', hs', hpar'⟩ := ht.child hj hmem
    cases hid.symm.trans hs'
    exact hne (Option.some.inj (hpar'.symm.trans hpar))
  have hfilter : p.children.filter (· ≠ id) = p.children := List.filter_eq_self.mpr fun c hc => by
    simp only [decide_eq_true_eq]
    rintro rfl
    exact hnone hc
  rw [Scope.without, hfilter]

theorem destroy_pruned (ht : t.Stocked) (hc : t.Connected) (hs : t.find? id = some s)
    (hroot : id ≠ root) :
    ∃ t', t.destroy id = .ok t' ∧ t.Pruned id t' := by
  obtain ⟨parent, p, hpar, hp, _⟩ := hc.parent hs hroot
  obtain ⟨order, horder, hnodup, hmem⟩ := hc.subtree_ok hs
  have hr := ht.released hnodup fun j hj => hc.find?_of_under hs ((hmem j).mp hj)
  have hparent : parent ∉ order := fun h => hc.not_under_parent hs hpar ((hmem parent).mp h)
  have hp' : (order.foldr (fun s t => t.release s) t).find? parent = some p := by
    rw [hr.find?, if_neg hparent, hp]
  obtain ⟨t', hmod, hput⟩ := modify_put hp' (·.without id)
  refine ⟨t', ?_, fun {j} hj => ?_, fun {j} hj => ?_, hput.stocked hp' hr.stocked,
    hr.spent.trans (hput.spent hp')⟩
  · simp only [destroy, if_neg hroot, get_of_find? hs, horder, hpar, bind, Except.bind]
    exact hmod
  · have hin := (hmem j).mpr hj
    rw [hput.find?, if_neg fun h : j = parent => hparent (h ▸ hin), hr.find?, if_pos hin]
  · rw [hput.find?, hr.find?, if_neg fun h => hj ((hmem j).mp h)]
    by_cases hjp : j = parent
    · rw [if_pos hjp, hjp, hp, Option.map_some]
    · rw [if_neg hjp]
      cases hf : t.find? j with
      | none => rfl
      | some q => rw [Option.map_some, hc.without_eq hs hpar hf hjp]

namespace Pruned

theorem exists_of_find? (h : t.Pruned id t') (hj : ¬ t.Under id j) (hs : t.find? j = some s) :
    t'.find? j = some (s.without id) := by
  rw [h.kept hj, hs, Option.map_some]

/-- The scopes that are found are those of the other branches. -/
theorem find?_cases (h : t.Pruned id t') (hs : t'.find? j = some s) :
    ¬ t.Under id j ∧ ∃ s₀, t.find? j = some s₀ ∧ s = s₀.without id := by
  have hj : ¬ t.Under id j := fun hj => absurd ((h.gone hj).symm.trans hs) (by simp)
  rw [h.kept hj] at hs
  obtain ⟨s₀, hs₀, heq⟩ := Option.map_eq_some_iff.mp hs
  exact ⟨hj, s₀, hs₀, heq.symm⟩

theorem atDepth (h : t.Pruned id t') (ht : t.Connected) (hj : ¬ t.Under id j) (hd : t.AtDepth j n) :
    t'.AtDepth j n := by
  induction hd with
  | root hs => exact .root (h.exists_of_find? hj hs)
  | child hs hp hd ih =>
    refine .child (h.exists_of_find? hj hs) hp (ih fun hpar => hj ?_)
    exact hpar.tail (ht.mem_childrenOf hs hp)

theorem connected (h : t.Pruned id t') (ht : t.Connected) (hroot : id ≠ ScopeTree.root) :
    t'.Connected where
  root := by
    obtain ⟨s, hs, hp⟩ := ht.root
    exact ⟨_, h.exists_of_find? (ht.not_under_root hroot) hs, hp⟩
  parent {j s} hs hne := by
    obtain ⟨hj, s₀, hs₀, rfl⟩ := h.find?_cases hs
    obtain ⟨parent, p, hpar, hp, hcount⟩ := ht.parent hs₀ hne
    have hparent : ¬ t.Under id parent := fun hu => hj (hu.tail (ht.mem_childrenOf hs₀ hpar))
    refine ⟨parent, p.without id, hpar, h.exists_of_find? hparent hp, ?_⟩
    have hjid : j ≠ id := fun heq => hj (heq ▸ .refl)
    show List.count j (p.children.filter (· ≠ id)) = 1
    rw [List.count_filter (by simpa using hjid), hcount]
  child {j s c} hs hmem := by
    obtain ⟨hj, s₀, hs₀, rfl⟩ := h.find?_cases hs
    obtain ⟨hmem, hcid⟩ := List.mem_filter.mp hmem
    obtain ⟨sc, hsc, hpar⟩ := ht.child hs₀ hmem
    have hc : ¬ t.Under id c := fun hu => by
      -- the way down to `c` ends at its parent `j`
      rcases Relation.ReflTransGen.cases_tail hu with heq | ⟨q, hq, hqc⟩
      · exact absurd heq (by simpa using hcid)
      · obtain ⟨sc', hsc', hpar'⟩ := ht.parent_of_mem hqc
        cases hsc.symm.trans hsc'
        cases hpar.symm.trans hpar'
        exact hj hq
    exact ⟨_, h.exists_of_find? hc hsc, hpar⟩
  depth {j s} hs := by
    obtain ⟨hj, s₀, hs₀, _⟩ := h.find?_cases hs
    obtain ⟨n, hn⟩ := ht.depth hs₀
    exact ⟨n, h.atDepth ht hj hn⟩

end Pruned

/-- A tree whose global scope has no children has no other scopes. -/
theorem Connected.eq_root (ht : t.Connected) (hr : t.childrenOf ScopeTree.root = [])
    (hs : t.find? id = some s) :
    id = ScopeTree.root := by
  obtain ⟨n, hn⟩ := ht.depth hs
  induction hn generalizing s with
  | root _ => rfl
  | child hs' hp _ ih =>
    obtain ⟨p, hfind⟩ := contains_iff.mp (ht.contains_parent hs' hp)
    have hmem := ht.mem_childrenOf hs' hp
    rw [ih hfind, hr] at hmem
    cases hmem

/-- Giving up the children of the global scope one after the other, the youngest first. -/
theorem foldlM_destroy (ht : t.Stocked) (hc : t.Connected) {branches : List ScopeId}
    (hs : t.find? root = some s) (hch : s.children = branches.reverse) :
    ∃ t' s', branches.foldlM destroy t = .ok t' ∧ t'.Stocked ∧ t'.Connected ∧ t.Spent t' ∧
      t'.find? root = some s' ∧ s'.children = [] := by
  induction branches generalizing t s with
  | nil => exact ⟨t, s, rfl, ht, hc, .refl t, hs, hch⟩
  | cons id branches ih =>
    rw [List.reverse_cons] at hch
    have hmem : id ∈ s.children := by simp [hch]
    obtain ⟨sc, hsc, hpar⟩ := hc.child hs hmem
    have hroot := hc.ne_root hsc hpar
    obtain ⟨t₁, hok, hpruned⟩ := destroy_pruned ht hc hsc hroot
    have hnodup : (branches.reverse ++ [id]).Nodup :=
      hch ▸ childrenOf_eq hs ▸ hc.nodup_childrenOf root
    have hrest : (s.without id).children = branches.reverse := by
      show s.children.filter (· ≠ id) = branches.reverse
      have hnew : id ∉ branches.reverse := fun h =>
        (List.disjoint_of_nodup_append hnodup) h List.mem_cons_self
      rw [hch, List.filter_append, List.filter_eq_self.mpr]
      · simp
      · intro c hc
        simp only [decide_eq_true_eq]
        rintro rfl
        exact hnew hc
    obtain ⟨t', s', hok', ht', hc', hspent, hleft⟩ :=
      ih hpruned.stocked (hpruned.connected hc hroot)
      (hpruned.exists_of_find? (hc.not_under_root hroot) hs) hrest
    refine ⟨t', s', ?_, ht', hc', hpruned.spent.trans hspent, hleft⟩
    simp only [List.foldlM_cons, hok, bind, Except.bind]
    exact hok'

structure Cleared (t t' : ScopeTree) : Prop where
  find? : ∀ {j s}, t'.find? j = some s → j = root ∧ s.parent = none ∧ s.children = [] ∧
    s.bindings = .empty
  stocked : t'.Stocked
  connected : t'.Connected
  spent : t.Spent t'

theorem teardown_cleared (ht : t.Stocked) (hc : t.Connected) :
    ∃ t', t.teardown = .ok t' ∧ t.Cleared t' := by
  obtain ⟨s, hs, hpar⟩ := hc.root
  obtain ⟨t₁, s₁, hok, hstocked, hconnected, hspent, hs₁, hch₁⟩ :=
    foldlM_destroy ht hc hs (List.reverse_reverse s.children).symm
  obtain ⟨t', hmod, hput⟩ := modify_put hs₁ fun s => { s with bindings := Bindings.empty }
  refine ⟨t', ?_, fun {j r} hr => ?_, hput.stocked hs₁ hstocked,
    hconnected.of_links (hput.links hs₁ rfl rfl), hspent.trans (hput.spent hs₁)⟩
  · simp only [teardown, get_of_find? hs, bind, Except.bind, hok]
    exact hmod
  · have hroot : j = root := by
      by_cases hj : j = root
      · exact hj
      · rw [hput.find?, if_neg hj] at hr
        exact hconnected.eq_root (childrenOf_eq hs₁ ▸ hch₁) hr
    rw [hput.find?, if_pos hroot] at hr
    cases hr
    obtain ⟨r, hr, hnone⟩ := hconnected.root
    cases hs₁.symm.trans hr
    exact ⟨hroot, hnone, hch₁, rfl⟩

/-! ## Errors -/

theorem get_error {e : InternalError} (h : t.get id = .error e) : e = .invalidHandle .scope := by
  rw [get] at h
  split at h <;> cases h
  rfl

theorem modify_error {f : Scope → Scope} {e : InternalError} (h : t.modify id f = .error e) :
    e = .invalidHandle .scope := by
  rw [modify] at h
  split at h <;> cases h
  rfl

theorem mapM_get_error {level : List ScopeId} {e : InternalError}
    (h : level.mapM t.get = .error e) :
    e = .invalidHandle .scope := by
  induction level with
  | nil => cases h
  | cons id level ih =>
    rw [List.mapM_cons] at h
    cases hget : t.get id with
    | error e' =>
      rw [hget] at h
      cases h
      exact get_error hget
    | ok s =>
      cases hrest : level.mapM t.get with
      | error e' =>
        rw [hget, hrest] at h
        cases h
        exact ih hrest
      | ok scopes =>
        rw [hget, hrest] at h
        cases h

theorem levels_error {k : Nat} {level : List ScopeId} {e : InternalError}
    (h : t.levels k level = .error e) :
    e = .invalidHandle .scope := by
  induction k generalizing level with
  | zero => cases h
  | succ k ih =>
    cases level with
    | nil => cases h
    | cons id level =>
      rw [levels] at h
      · cases hscopes : (id :: level).mapM t.get with
        | error e' =>
          rw [hscopes] at h
          cases h
          exact mapM_get_error hscopes
        | ok scopes =>
          cases hdeeper : t.levels k (scopes.flatMap Scope.children) with
          | error e' =>
            rw [hscopes] at h
            simp only [hdeeper, bind, Except.bind] at h
            cases h
            exact ih hdeeper
          | ok deeper =>
            rw [hscopes] at h
            simp only [hdeeper, bind, Except.bind] at h
            cases h
      · exact List.cons_ne_nil id level

/-- Nothing but a bad handle keeps a scope from being given up. -/
theorem destroy_error {e : InternalError} (h : t.destroy id = .error e) :
    ∃ handle, e = .invalidHandle handle := by
  rw [destroy] at h
  by_cases hroot : id = root
  · rw [if_pos hroot] at h
    cases h
    exact ⟨_, rfl⟩
  · rw [if_neg hroot] at h
    cases hget : t.get id with
    | error e' =>
      rw [hget] at h
      cases h
      exact ⟨_, get_error hget⟩
    | ok s =>
      cases hsub : t.subtree id with
      | error e' =>
        rw [hget, hsub] at h
        cases h
        exact ⟨_, levels_error hsub⟩
      | ok order =>
        simp only [hget, hsub, bind, Except.bind, pure, Except.pure] at h
        split at h
        · exact ⟨_, modify_error h⟩
        · cases h

end ScopeTree
end Replay
