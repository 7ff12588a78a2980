import Replay.Proofs.Arena.Edits
/-!
Giving up a branch, scope by scope.

The scopes of a branch are found by a walk that takes them from the front of a queue, and they are
released from the end of the walk.  So nothing is released while something below it is still there,
and what is left afterwards is the rest of the tree, scope by scope as it was.
-/

namespace Replay
namespace ScopeTree

variable {t t' : ScopeTree} {id j a b parent : ScopeId} {s p : Scope} {n k : Nat}
variable {level queue order : List ScopeId}

/-! ## The walk through a branch -/

/-- Takes scopes from the front of the queue, with the children of each put at the end of it, until
none is left. -/
inductive Visits (t : ScopeTree) : List ScopeId → List ScopeId → Prop where
  | nil : Visits t [] []
  | cons {id : ScopeId} {s : Scope} {queue order : List ScopeId} : t.find? id = some s →
    Visits t (queue ++ s.children) order → Visits t (id :: queue) (id :: order)

/-- A whole level is visited before what is below it. -/
theorem Visits.append_level (hlevel : ∀ j ∈ level, ∃ s, t.find? j = some s)
    (h : t.Visits (queue ++ level.flatMap t.childrenOf) order) :
    t.Visits (level ++ queue) (level ++ order) := by
  induction level generalizing queue with
  | nil =>
    rw [List.flatMap_nil, List.append_nil] at h
    exact h
  | cons id level ih =>
    obtain ⟨s, hs⟩ := hlevel id List.mem_cons_self
    rw [List.flatMap_cons, childrenOf_eq hs, ← List.append_assoc] at h
    have hrest := ih (fun j hj => hlevel j (List.mem_cons_of_mem id hj)) h
    rw [← List.append_assoc] at hrest
    exact .cons hs hrest

theorem levels_succ (hlevel : ∀ j ∈ level, ∃ s, t.find? j = some s)
    (h : t.levels (k + 1) level = .ok order) :
    ∃ deeper, t.levels k (level.flatMap t.childrenOf) = .ok deeper ∧ order = level ++ deeper := by
  by_cases hnil : level = []
  · subst hnil
    cases h
    exact ⟨[], by cases k <;> rfl, rfl⟩
  · obtain ⟨scopes, hscopes, hch⟩ := mapM_get_children hlevel
    rw [levels.eq_3 _ _ _ hnil, hscopes] at h
    simp only [bind, Except.bind, hch, pure, Except.pure] at h
    cases hdeeper : t.levels k (level.flatMap t.childrenOf) with
    | error e =>
      rw [hdeeper] at h
      cases h
    | ok deeper =>
      rw [hdeeper] at h
      cases h
      exact ⟨deeper, rfl, rfl⟩

/-- Of two scopes the deeper one is not above the other. -/
theorem Connected.not_under_of_depth (hc : t.Connected) (ha : t.AtDepth a n) (hb : t.AtDepth b k)
    (hle : n ≤ k) (hne : a ≠ b) : ¬ t.Under b a := by
  intro h
  rcases Relation.ReflTransGen.cases_head h with heq | ⟨c, hmem, h⟩
  · exact hne heq.symm
  · obtain ⟨m, hm, hd⟩ := hc.depth_under h (hc.depth_child hb hmem)
    have := hc.depth_unique ha hd
    omega

theorem Connected.levels_walk (hc : t.Connected) (hd : ∀ j ∈ level, t.AtDepth j n)
    (hnodup : level.Nodup) (hk : t.slots.size ≤ k + n) (h : t.levels k level = .ok order) :
    t.Visits level order ∧ (∀ j ∈ order, ∃ m, n ≤ m ∧ t.AtDepth j m) ∧
    order.Pairwise fun a b => ¬ t.Under b a := by
  induction k generalizing level n order with
  | zero =>
    -- a scope so deep would have as many scopes above it as there are slots
    have hnil : level = [] := List.eq_nil_iff_forall_not_mem.mpr fun j hj => by
      have := hc.depth_lt (hd j hj)
      omega
    subst hnil
    cases h
    exact ⟨.nil, fun j hj => absurd hj List.not_mem_nil, .nil⟩
  | succ k ih =>
    have hlevel : ∀ j ∈ level, ∃ s, t.find? j = some s := fun j hj => (hd j hj).find?
    have hnext : ∀ c ∈ level.flatMap t.childrenOf, t.AtDepth c (n + 1) := fun c hmem => by
      obtain ⟨id, hid, hmem⟩ := List.mem_flatMap.mp hmem
      exact hc.depth_child (hd id hid) hmem
    obtain ⟨deeper, hdeeper, rfl⟩ := levels_succ hlevel h
    obtain ⟨hvisits, hdepth, hpairs⟩ := ih hnext (hc.nodup_flatMap hnodup) (by omega) hdeeper
    refine ⟨?_, fun j hj => ?_, List.pairwise_append.mpr ⟨?_, hpairs, fun a ha b hb => ?_⟩⟩
    · have hwalk : t.Visits (level ++ []) (level ++ deeper) := Visits.append_level hlevel hvisits
      rwa [List.append_nil] at hwalk
    · rcases List.mem_append.mp hj with hj | hj
      · exact ⟨n, Nat.le_refl n, hd j hj⟩
      · obtain ⟨m, hm, hdm⟩ := hdepth j hj
        exact ⟨m, by omega, hdm⟩
    · exact hnodup.imp_of_mem fun ha hb hne =>
        hc.not_under_of_depth (hd _ ha) (hd _ hb) (Nat.le_refl n) hne
    · obtain ⟨m, hm, hdm⟩ := hdepth b hb
      refine hc.not_under_of_depth (hd a ha) hdm (by omega) fun heq => ?_
      have := hc.depth_unique (heq ▸ hd a ha) hdm
      omega

/-! ## Releasing scopes -/

/-- Each scope that is released is one scope less, and its slot is on top of the free ones. -/
theorem Stocked.release_all (ht : t.Stocked) (hnodup : order.Nodup)
    (h : ∀ j ∈ order, ∃ s, t.find? j = some s) :
    (order.foldr (fun s t => t.release s) t).live + order.length = t.live ∧
      (order.foldr (fun s t => t.release s) t).free = order.map ScopeId.index ++ t.free := by
  induction order with
  | nil => exact ⟨rfl, rfl⟩
  | cons id order ih =>
    obtain ⟨hid, hnodup⟩ := List.nodup_cons.mp hnodup
    have hrest : ∀ j ∈ order, ∃ s, t.find? j = some s :=
      fun j hj => h j (List.mem_cons_of_mem id hj)
    obtain ⟨hlive, hfree⟩ := ih hnodup hrest
    obtain ⟨s, hs⟩ := h id List.mem_cons_self
    have hr := ht.released hnodup hrest
    have hs' : (order.foldr (fun s t => t.release s) t).find? id = some s := by
      rw [hr.find?, if_neg hid, hs]
    have hpos := hr.stocked.live_pos hs'
    rw [List.foldr_cons, release, if_pos (contains_of_find? hs'), List.length_cons, List.map_cons,
      List.cons_append, ← hfree]
    exact ⟨by simp only; omega, rfl⟩

/-- The slots in use are counted by any list of the scopes that are there. -/
theorem Stocked.live_eq_length (ht : t.Stocked) (hnodup : order.Nodup)
    (hmem : ∀ j, j ∈ order ↔ t.contains j = true) : t.live = order.length := by
  have hindex : (order.map ScopeId.index).Nodup := by
    refine hnodup.map_on fun a ha b hb hab => ?_
    obtain ⟨sa, hsa⟩ := contains_iff.mp ((hmem a).mp ha)
    obtain ⟨sb, hsb⟩ := contains_iff.mp ((hmem b).mp hb)
    exact eq_of_find? hsa hsb hab
  have hdisjoint : ∀ i ∈ order.map ScopeId.index, i ∉ t.free := by
    intro i hi hfree
    obtain ⟨j, hj, rfl⟩ := List.mem_map.mp hi
    obtain ⟨s, hs⟩ := contains_iff.mp ((hmem j).mp hj)
    exact absurd (((ht.free _ hfree).2 j.generation).symm.trans hs) (by simp)
  have hperm : (order.map ScopeId.index ++ t.free).Perm (List.range t.slots.size) := by
    refine (List.perm_ext_iff_of_nodup (hindex.append ht.nodup hdisjoint) List.nodup_range).mpr
      fun i => ?_
    rw [List.mem_append, List.mem_range]
    constructor
    · rintro (hi | hi)
      · obtain ⟨j, hj, rfl⟩ := List.mem_map.mp hi
        obtain ⟨s, hs⟩ := contains_iff.mp ((hmem j).mp hj)
        exact index_lt_of_find? hs
      · exact (ht.free i hi).1
    · intro hi
      by_cases hused : ∃ g, t.contains ⟨i, g⟩ = true
      · obtain ⟨g, hg⟩ := hused
        exact .inl (List.mem_map.mpr ⟨⟨i, g⟩, (hmem _).mpr hg, rfl⟩)
      · refine .inr (ht.unused i hi fun g => ?_)
        exact Option.not_isSome_iff_eq_none.mp fun hg => hused ⟨g, hg⟩
  have hlength := hperm.length_eq
  rw [List.length_append, List.length_map, List.length_range, ← ht.count] at hlength
  omega

/-! ## A branch that is given up -/

/-- The tree without the branch at `id`, whose scopes are released in this order. -/
structure GivenUp (t : ScopeTree) (id : ScopeId) (order : List ScopeId) (t' : ScopeTree) :
    Prop where
  visits : t.Visits [id] order.reverse
  mem : ∀ j, j ∈ order ↔ t.Under id j
  nodup : order.Nodup
  /-- What is released later is not below what is released earlier. -/
  bottomUp : order.Pairwise fun a b => ¬ t.Under a b
  steps : ∃ parent, t.HasParent id parent ∧
    (order.foldl release t).modify parent (·.without id) = .ok t'
  free : t'.free = (order.map ScopeId.index).reverse ++ t.free
  live : t'.live + order.length = t.live
  contains : ∀ j, t'.contains j = true ↔ t.contains j = true ∧ ¬ t.Under id j
  parent : ∀ {parent p}, t.HasParent id parent → t.find? parent = some p →
    t'.find? parent = some { p with children := p.children.erase id }
  others : ∀ {j}, ¬ t.Under id j → ¬ t.HasParent id j → t'.find? j = t.find? j

theorem Connected.without_erase (hc : t.Connected) (hj : t.find? j = some p) (id : ScopeId) :
    p.without id = { p with children := p.children.erase id } := by
  have hnodup : p.children.Nodup := childrenOf_eq hj ▸ hc.nodup_childrenOf j
  have hfilter : p.children.filter (· ≠ id) = p.children.erase id := by
    rw [hnodup.erase_eq_filter]
    exact List.filter_congr fun c _ => Bool.eq_iff_iff.mpr (by simp)
  rw [Scope.without, hfilter]

theorem destroy_givenUp (ht : t.Stocked) (hc : t.Connected) (hs : t.find? id = some s)
    (hroot : id ≠ root) :
    ∃ order t', t.destroy id = .ok t' ∧ t.GivenUp id order t' := by
  obtain ⟨t', hok, hpruned⟩ := destroy_pruned ht hc hs hroot
  obtain ⟨parent, p, hpar, hp, _⟩ := hc.parent hs hroot
  obtain ⟨walk, hwalk, hnodup, hmem⟩ := hc.subtree_ok hs
  have hfound : ∀ j ∈ walk, ∃ s, t.find? j = some s :=
    fun j hj => hc.find?_of_under hs ((hmem j).mp hj)
  obtain ⟨n, hn⟩ := hc.depth hs
  obtain ⟨hvisits, _, hpairs⟩ := hc.levels_walk (fun j hj => List.mem_singleton.mp hj ▸ hn)
    (List.nodup_singleton id) (Nat.le_add_right t.slots.size n) hwalk
  obtain ⟨hlive, hfree⟩ := ht.release_all hnodup hfound
  have hsteps : (walk.foldr (fun s t => t.release s) t).modify parent (·.without id) = .ok t' := by
    rw [← hok]
    simp only [destroy, if_neg hroot, get_of_find? hs, hwalk, hpar, bind, Except.bind]
    rfl
  obtain ⟨_, _, hput⟩ := put_of_modify hsteps
  have hfold : walk.reverse.foldl release t = walk.foldr (fun s t => t.release s) t :=
    List.foldl_reverse ..
  refine ⟨walk.reverse, t', hok, ?_⟩
  exact {
    visits := by rwa [List.reverse_reverse]
    mem := fun j => by rw [List.mem_reverse, hmem]
    nodup := List.nodup_reverse.mpr hnodup
    bottomUp := List.pairwise_reverse.mpr hpairs
    steps := ⟨parent, ⟨s, hs, hpar⟩, hfold ▸ hsteps⟩
    free := by rw [List.map_reverse, List.reverse_reverse, hput.free, hfree]
    live := by rw [List.length_reverse, hput.live, hlive]
    contains := fun j => by
      constructor
      · intro hj
        obtain ⟨s', hs'⟩ := contains_iff.mp hj
        obtain ⟨hnot, s₀, hs₀, _⟩ := hpruned.find?_cases hs'
        exact ⟨contains_of_find? hs₀, hnot⟩
      · rintro ⟨hj, hnot⟩
        obtain ⟨s₀, hs₀⟩ := contains_iff.mp hj
        exact contains_of_find? (hpruned.exists_of_find? hnot hs₀)
    parent := fun {q qs} hq hqs => by
      obtain ⟨s', hs', hpar'⟩ := hq
      rw [hpruned.exists_of_find? (hc.not_under_parent hs' hpar') hqs, hc.without_erase hqs]
    others := fun {j} hnot hno => by
      rw [hpruned.kept hnot]
      cases hj : t.find? j with
      | none => rfl
      | some q =>
        have hne : j ≠ parent := fun heq => hno ⟨s, hs, heq ▸ hpar⟩
        rw [Option.map_some, hc.without_eq hs hpar hj hne] }

/-- A branch is given up as a whole, from its end, and nothing else is; giving up everything always
leaves the global scope, with nothing in it. -/
theorem branches_are_given_up_whole (edits : List Edit) :
    (∀ id, (new.after edits).contains id = true → id ≠ root →
      ∃ order t', (new.after edits).destroy id = .ok t' ∧ (new.after edits).GivenUp id order t') ∧
    ∃ t' r, (new.after edits).teardown = .ok t' ∧ t'.live = 1 ∧
      (∀ j, t'.contains j = true ↔ j = root) ∧
      t'.find? root = some r ∧ r.parent = none ∧ r.children = [] ∧ r.bindings = .empty := by
  obtain ⟨ht, hc⟩ := after_keeps new_stocked new_connected edits
  constructor
  · intro id hid hroot
    obtain ⟨s, hs⟩ := contains_iff.mp hid
    exact destroy_givenUp ht hc hs hroot
  · obtain ⟨t', hok, hcleared⟩ := teardown_cleared ht hc
    obtain ⟨r, hr, _⟩ := hcleared.connected.root
    obtain ⟨_, hp, hch, hb⟩ := hcleared.find? hr
    have honly : ∀ j, t'.contains j = true ↔ j = root := by
      intro j
      constructor
      · intro hj
        obtain ⟨s, hs⟩ := contains_iff.mp hj
        exact (hcleared.find? hs).1
      · rintro rfl
        exact contains_of_find? hr
    have hlive : t'.live = [root].length :=
      hcleared.stocked.live_eq_length (List.nodup_singleton root) fun j => by
      rw [honly, List.mem_singleton]
    exact ⟨t', r, hok, hlive, honly, hr, hp, hch, hb⟩

/-- Of two branches one is given up, with the two blocks in it; the global scope and the other
branch stay. -/
theorem branches_are_given_up_whole_nested :
    let edits := [.create root .block, .create ⟨1, 0⟩ (.loop 3), .create ⟨2, 0⟩ .block,
      .create root .procedure]
    (new.after edits).contains ⟨1, 0⟩ = true ∧ (⟨1, 0⟩ : ScopeId) ≠ root ∧
    (new.after edits).live = 5 ∧
      ∃ order t', (new.after edits).destroy ⟨1, 0⟩ = .ok t' ∧
        (new.after edits).GivenUp ⟨1, 0⟩ order t' ∧
        t'.live = 2 ∧ t'.contains ⟨4, 0⟩ = true := by
  intro edits
  have hlive : (new.after edits).contains ⟨1, 0⟩ = true := by decide
  have hroot : (⟨1, 0⟩ : ScopeId) ≠ root := by decide
  obtain ⟨order, t', hok, hgiven⟩ := (branches_are_given_up_whole edits).1 ⟨1, 0⟩ hlive hroot
  have hleft : ((new.after edits).destroy ⟨1, 0⟩).map (fun t => (t.live, t.contains ⟨4, 0⟩)) =
      .ok (2, true) := by decide +kernel
  rw [hok] at hleft
  obtain ⟨hcount, hother⟩ := Prod.ext_iff.mp (Except.ok.inj hleft)
  exact ⟨hlive, hroot, rfl, order, t', hok, hgiven, hcount, hother⟩

end ScopeTree
end Replay
