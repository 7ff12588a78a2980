import Replay.Interpreter
import Mathlib.Data.List.Perm.Subperm
/-!
The tree of scopes through its lookups.

What an operation does to the slots is said once, as what it does to `find?`; everything after that
is about lookups.  A scope that was made, and was given up when it had no children left, leaves no
trace in them.
-/

namespace Replay
namespace ScopeTree

variable {t t' : ScopeTree} {id j parent : ScopeId} {s p : Scope}

/-! ## Lookups -/

theorem contains_iff : t.contains id = true ↔ ∃ s, t.find? id = some s :=
  Option.isSome_iff_exists

theorem contains_of_find? (h : t.find? id = some s) : t.contains id = true :=
  contains_iff.mpr ⟨s, h⟩

theorem get_of_find? (h : t.find? id = some s) : t.get id = .ok s := by
  simp only [get, h]

/-- A slot holds one scope at most. -/
theorem eq_of_find? (h : t.find? id = some s) (h' : t.find? j = some p) (hi : id.index = j.index) :
    id = j := by
  unfold find? at h h'
  rw [hi] at h
  cases hs : t.slots[j.index]? with
  | none => simp only [hs] at h; cases h
  | some slot =>
    simp only [hs] at h h'
    split at h
    · rename_i hg
      split at h'
      · rename_i hg'
        cases id
        cases j
        simp_all only
      · cases h'
    · cases h

/-- The generation of a slot.  A slot that is not there yet will start with generation zero. -/
def generationAt (t : ScopeTree) (i : Nat) : UInt32 :=
  (t.slots[i]?.map Slot.generation).getD 0

def occupied (t : ScopeTree) (i : Nat) : Bool :=
  t.slots[i]?.any (·.scope.isSome)

/-- A handle finds the scope of its own generation only. -/
theorem generationAt_of_find? (h : t.find? id = some s) :
    t.generationAt id.index = id.generation := by
  unfold find? at h
  cases hs : t.slots[id.index]? with
  | none => simp only [hs] at h; cases h
  | some slot =>
    simp only [hs] at h
    split at h
    · rename_i hg
      rw [generationAt, hs]
      exact hg
    · cases h

/-- A slot is occupied if some handle to it finds a scope. -/
theorem occupied_iff {i : Nat} : t.occupied i = true ↔ ∃ g s, t.find? ⟨i, g⟩ = some s := by
  simp only [occupied, find?]
  cases t.slots[i]? with
  | none => simp
  | some slot =>
    simp only [Option.any_some, Option.isSome_iff_exists]
    constructor
    · rintro ⟨s, hs⟩
      exact ⟨slot.generation, s, by rw [if_pos rfl, hs]⟩
    · rintro ⟨g, s, hs⟩
      split at hs
      · exact ⟨s, hs⟩
      · cases hs

def links (t : ScopeTree) (id : ScopeId) : Option (Option ScopeId × List ScopeId) :=
  (t.find? id).map fun s => (s.parent, s.children)

def kindOf (t : ScopeTree) (id : ScopeId) : Option ScopeKind :=
  (t.find? id).map Scope.kind

theorem exists_of_links (h : t'.links id = t.links id) (hs : t.find? id = some s) :
    ∃ s', t'.find? id = some s' ∧ s'.parent = s.parent ∧ s'.children = s.children := by
  rw [links, links, hs, Option.map_some, Option.map_eq_some_iff] at h
  obtain ⟨s', hs', heq⟩ := h
  exact ⟨s', hs', congrArg Prod.fst heq, congrArg Prod.snd heq⟩

theorem contains_eq_of_links (h : t'.links id = t.links id) : t'.contains id = t.contains id := by
  have hsome := congrArg Option.isSome h
  rwa [links, links, Option.isSome_map, Option.isSome_map] at hsome

theorem contains_of_links (h : t'.links id = t.links id) (hc : t.contains id = true) :
    t'.contains id = true :=
  (contains_eq_of_links h).trans hc

/-! ## Invariants -/

/-- The slots that are kept for later are the empty ones, and the others are in use. -/
structure Stocked (t : ScopeTree) : Prop where
  free : ∀ i ∈ t.free, i < t.slots.size ∧ ∀ g, t.find? ⟨i, g⟩ = none
  unused : ∀ i < t.slots.size, (∀ g, t.find? ⟨i, g⟩ = none) → i ∈ t.free
  nodup : t.free.Nodup
  size : t.slots.size ≤ maxSlots
  count : t.live + t.free.length = t.slots.size

inductive AtDepth (t : ScopeTree) : ScopeId → Nat → Prop where
  | root {s : Scope} : t.find? root = some s → AtDepth t root 0
  | child {id parent : ScopeId} {s : Scope} {n : Nat} :
    t.find? id = some s → s.parent = some parent → AtDepth t parent n →
    AtDepth t id (n + 1)

/-- Scopes and their parents know each other, and all of them are below the global one. -/
structure Connected (t : ScopeTree) : Prop where
  root : ∃ s, t.find? root = some s ∧ s.parent = none
  parent : ∀ {id s}, t.find? id = some s → id ≠ ScopeTree.root →
    ∃ parent p, s.parent = some parent ∧ t.find? parent = some p ∧ p.children.count id = 1
  child : ∀ {id s c}, t.find? id = some s → c ∈ s.children →
    ∃ s', t.find? c = some s' ∧ s'.parent = some id
  depth : ∀ {id s}, t.find? id = some s → ∃ n, t.AtDepth id n

theorem Stocked.size_eq_of_live (ht : t.Stocked) (h : t.live = maxSlots) :
    t.slots.size = maxSlots := by
  have hcount := ht.count
  have hsize := ht.size
  omega

/-- Depths are kept if all scopes stay below their parents. -/
theorem AtDepth.mono {n : Nat}
    (h : ∀ {id s}, t.find? id = some s → ∃ s', t'.find? id = some s' ∧ s'.parent = s.parent)
    (hd : t.AtDepth id n) : t'.AtDepth id n := by
  induction hd with
  | root hs =>
    obtain ⟨s', hs', _⟩ := h hs
    exact .root hs'
  | child hs hp _ ih =>
    obtain ⟨s', hs', hp'⟩ := h hs
    exact .child hs' (hp'.trans hp) ih

namespace Connected

theorem contains_root (ht : t.Connected) : t.contains ScopeTree.root = true := by
  obtain ⟨s, hs, _⟩ := ht.root
  exact contains_of_find? hs

theorem ne_root (ht : t.Connected) (hs : t.find? id = some s) (hp : s.parent = some parent) :
    id ≠ ScopeTree.root := by
  rintro rfl
  obtain ⟨r, hr, hnone⟩ := ht.root
  cases hr.symm.trans hs
  exact absurd (hnone.symm.trans hp) (by simp)

theorem contains_parent (ht : t.Connected) (hs : t.find? id = some s)
    (hp : s.parent = some parent) :
    t.contains parent = true := by
  obtain ⟨q, p, hq, hfind, _⟩ := ht.parent hs (ht.ne_root hs hp)
  cases hq.symm.trans hp
  exact contains_of_find? hfind

theorem of_links (h : ∀ id, t'.links id = t.links id) (ht : t.Connected) : t'.Connected where
  root := by
    obtain ⟨s, hs, hp⟩ := ht.root
    obtain ⟨s', hs', hp', _⟩ := exists_of_links (h _) hs
    exact ⟨s', hs', hp'.trans hp⟩
  parent hs hne := by
    obtain ⟨s, hs', hpar, _⟩ := exists_of_links (h _).symm hs
    obtain ⟨parent, p, hp, hfind, hcount⟩ := ht.parent hs' hne
    obtain ⟨p', hfind', _, hch⟩ := exists_of_links (h _) hfind
    exact ⟨parent, p', hpar.symm.trans hp, hfind', hch ▸ hcount⟩
  child hs hc := by
    obtain ⟨s, hs', _, hch⟩ := exists_of_links (h _).symm hs
    obtain ⟨sc, hsc, hp⟩ := ht.child hs' (hch ▸ hc)
    obtain ⟨sc', hsc', hp', _⟩ := exists_of_links (h _) hsc
    exact ⟨sc', hsc', hp'.trans hp⟩
  depth hs := by
    obtain ⟨s, hs', _⟩ := exists_of_links (h _).symm hs
    obtain ⟨n, hn⟩ := ht.depth hs'
    refine ⟨n, hn.mono fun hj => ?_⟩
    obtain ⟨j', hj', hp, _⟩ := exists_of_links (h _) hj
    exact ⟨j', hj', hp⟩

end Connected

theorem new_stocked : new.Stocked where
  free := by
    intro i hi
    cases hi
  unused i hi h := by
    obtain rfl : i = 0 := Nat.lt_one_iff.mp hi
    cases h 0
  nodup := List.nodup_nil
  size := by decide
  count := rfl

theorem find?_new (id : ScopeId) :
    new.find? id = if id = root then some (.fresh none .global) else none := by
  obtain ⟨index, generation⟩ := id
  cases index with
  | zero =>
    show (if (0 : UInt32) = generation then _ else _) = _
    by_cases hg : 0 = generation
    · subst hg
      rfl
    · rw [if_neg hg, if_neg]
      exact fun h => hg (congrArg ScopeId.generation h).symm
  | succ index =>
    rw [if_neg fun h => Nat.succ_ne_zero index (congrArg ScopeId.index h)]
    rfl

theorem new_connected : new.Connected where
  root := ⟨_, rfl, rfl⟩
  parent hs hne := by
    rw [find?_new, if_neg hne] at hs
    cases hs
  child hs hc := by
    rw [find?_new] at hs
    split at hs <;> cases hs
    cases hc
  depth {id s} hs := by
    by_cases hid : id = ScopeTree.root
    · subst hid
      exact ⟨0, .root hs⟩
    · rw [find?_new, if_neg hid] at hs
      cases hs

/-! ## Changing a scope -/

/-- The tree with another scope in the place of the one at `id`. -/
structure Put (t : ScopeTree) (id : ScopeId) (s : Scope) (t' : ScopeTree) : Prop where
  find? : ∀ j, t'.find? j = if j = id then some s else t.find? j
  free : t'.free = t.free
  live : t'.live = t.live
  size : t'.slots.size = t.slots.size
  generation : ∀ i, t'.generationAt i = t.generationAt i

/-- Changing the scope in one slot is seen at the handles to that slot. -/
theorem find?_modify_slot (t : ScopeTree) (i : Nat) (f : Scope → Scope) (j : ScopeId) :
    find? { t with slots := t.slots.modify i fun slot => { slot with scope := slot.scope.map f } }
        j =
      if i = j.index then (t.find? j).map f else t.find? j := by
  simp only [find?, Array.getElem?_modify]
  by_cases hi : i = j.index
  · simp only [if_pos hi]
    cases t.slots[j.index]? with
    | none => rfl
    | some slot =>
      simp only [Option.map_some]
      split <;> rfl
  · simp only [if_neg hi]

theorem modify_put (h : t.find? id = some s) (f : Scope → Scope) :
    ∃ t', t.modify id f = .ok t' ∧ t.Put id (f s) t' := by
  rw [modify, if_pos (contains_of_find? h)]
  refine ⟨_, rfl, fun j => ?_, rfl, rfl, Array.size_modify, fun i => ?_⟩
  · rw [find?_modify_slot]
    by_cases hj : j = id
    · rw [if_pos hj, hj, if_pos rfl, h, Option.map_some]
    · rw [if_neg hj]
      split
      · rename_i hi
        cases hf : t.find? j with
        | none => rfl
        | some p => exact absurd (eq_of_find? hf h hi.symm) hj
      · rfl
  · simp only [generationAt, Array.getElem?_modify]
    split
    · rw [Option.map_map]
      rfl
    · rfl

theorem put_of_modify {f : Scope → Scope} (h : t.modify id f = .ok t') :
    ∃ s, t.find? id = some s ∧ t.Put id (f s) t' := by
  by_cases hc : t.contains id = true
  · obtain ⟨s, hs⟩ := contains_iff.mp hc
    obtain ⟨t₁, hok, hput⟩ := modify_put hs f
    cases hok.symm.trans h
    exact ⟨s, hs, hput⟩
  · rw [modify, if_neg hc] at h
    cases h

namespace Put

variable {s' : Scope}

theorem stocked (h : t.Put id s t') (hid : t.find? id = some s') (ht : t.Stocked) : t'.Stocked where
  free i hi := by
    rw [h.free] at hi
    obtain ⟨hlt, hnone⟩ := ht.free i hi
    refine ⟨h.size ▸ hlt, fun g => ?_⟩
    rw [h.find?, if_neg, hnone g]
    rintro rfl
    exact absurd ((hnone g).symm.trans hid) (by simp)
  unused i hi hnone := by
    rw [h.free]
    refine ht.unused i (h.size ▸ hi) fun g => ?_
    have hg := hnone g
    rw [h.find?] at hg
    split at hg
    · cases hg
    · exact hg
  nodup := h.free ▸ ht.nodup
  size := h.size ▸ ht.size
  count := by rw [h.live, h.free, h.size, ht.count]

theorem links (h : t.Put id s t') (hid : t.find? id = some s') (hp : s.parent = s'.parent)
    (hc : s.children = s'.children) (j : ScopeId) : t'.links j = t.links j := by
  rw [ScopeTree.links, ScopeTree.links, h.find?]
  split
  · rename_i hj
    rw [hj, hid, Option.map_some, Option.map_some, hp, hc]
  · rfl

theorem kindOf (h : t.Put id s t') (hid : t.find? id = some s') (hk : s.kind = s'.kind)
    (j : ScopeId) :
    t'.kindOf j = t.kindOf j := by
  rw [ScopeTree.kindOf, ScopeTree.kindOf, h.find?]
  split
  · rename_i hj
    rw [hj, hid, Option.map_some, Option.map_some, hk]
  · rfl

theorem kindOf_other (h : t.Put id s t') (hj : j ≠ id) : t'.kindOf j = t.kindOf j := by
  rw [ScopeTree.kindOf, ScopeTree.kindOf, h.find?, if_neg hj]

end Put

/-! ## Making scopes -/

def arenaFull : InternalError := .indexOutOfRange .scopeArena maxSlots (maxSlots - 1)

structure Added (t : ScopeTree) (id : ScopeId) (s : Scope) (t' : ScopeTree) : Prop where
  fresh : ∀ g, t.find? ⟨id.index, g⟩ = none
  find? : ∀ j, t'.find? j = if j = id then some s else t.find? j
  stocked : t'.Stocked
  live : t'.live = t.live + 1
  size : t.slots.size ≤ t'.slots.size
  packed : t'.slots.size = t.slots.size ∨ t'.live = t'.slots.size
  generation : ∀ i, t'.generationAt i = t.generationAt i

/-- The scopes that were there stay. -/
theorem Added.find?_old (h : t.Added id s t') (hj : t.find? j = some p) : t'.find? j = some p := by
  have hne : j ≠ id := by
    rintro rfl
    exact absurd ((h.fresh j.generation).symm.trans hj) (by simp)
  rw [h.find?, if_neg hne, hj]

theorem allocate_reuse (ht : t.Stocked) {i : Nat} {rest : List Nat} (hf : t.free = i :: rest)
    (s : Scope) :
    ∃ id t', t.allocate s = .ok (id, t') ∧ t.Added id s t' := by
  obtain ⟨hi, hnone⟩ := ht.free i (hf ▸ List.mem_cons_self)
  have hslot := Array.getElem?_eq_getElem hi
  have hnodup := List.nodup_cons.mp (hf ▸ ht.nodup)
  simp only [allocate, hf, hslot]
  have hfind : ∀ j,
    find? ⟨t.slots.setIfInBounds i { t.slots[i] with scope := some s }, rest, t.live + 1⟩ j =
      if j = ⟨i, t.slots[i].generation⟩ then some s else t.find? j := by
    intro j
    obtain ⟨index, generation⟩ := j
    simp only [find?, Array.getElem?_setIfInBounds]
    by_cases hindex : i = index
    · subst hindex
      simp only [if_pos hi, if_true, ScopeId.mk.injEq, true_and, hslot]
      by_cases hg : t.slots[i].generation = generation
      · rw [if_pos hg, if_pos hg.symm]
      · rw [if_neg hg, if_neg fun h => hg h.symm, if_neg hg]
    · have hne : (⟨index, generation⟩ : ScopeId) ≠ ⟨i, t.slots[i].generation⟩ :=
        fun h => hindex (congrArg ScopeId.index h).symm
      rw [if_neg hindex, if_neg hne]
  refine ⟨_, _, rfl, hnone, hfind, ⟨?_, ?_, hnodup.2, ?_, ?_⟩, rfl, ?_, ?_, fun k => ?_⟩
  · intro k hk
    obtain ⟨hlt, hk'⟩ := ht.free k (hf ▸ List.mem_cons_of_mem i hk)
    refine ⟨by simpa only [Array.size_setIfInBounds] using hlt, fun g => ?_⟩
    have hne : (⟨k, g⟩ : ScopeId) ≠ ⟨i, t.slots[i].generation⟩ := by
      rintro ⟨⟩
      exact hnodup.1 hk
    rw [hfind, if_neg hne, hk' g]
  · intro k hk hnone'
    simp only [Array.size_setIfInBounds] at hk
    have hki : k ≠ i := by
      rintro rfl
      exact absurd ((hnone' t.slots[k].generation).symm.trans (by rw [hfind, if_pos rfl])) (by simp)
    have hmem := ht.unused k hk fun g => by
      rw [← hnone' g, hfind, if_neg fun h => hki (congrArg ScopeId.index h)]
    rw [hf] at hmem
    exact (List.mem_cons.mp hmem).resolve_left hki
  · simpa only [Array.size_setIfInBounds] using ht.size
  · have hcount := ht.count
    rw [hf, List.length_cons] at hcount
    simp only [Array.size_setIfInBounds]
    omega
  · simp only [Array.size_setIfInBounds, Nat.le_refl]
  · exact .inl Array.size_setIfInBounds
  · simp only [generationAt, Array.getElem?_setIfInBounds]
    split
    · rename_i hik
      rw [← hik, hslot]
      rfl
    · rfl

theorem allocate_new (ht : t.Stocked) (hf : t.free = []) (hs : t.slots.size < maxSlots)
    (s : Scope) :
    ∃ id t', t.allocate s = .ok (id, t') ∧ t.Added id s t' := by
  simp only [allocate, hf, if_pos hs]
  have hnone : ∀ g, t.find? ⟨t.slots.size, g⟩ = none := fun g => by
    simp only [find?, Array.getElem?_eq_none (Nat.le_refl _)]
  have hfind : ∀ j, find? ⟨t.slots.push ⟨0, some s⟩, [], t.live + 1⟩ j =
      if j = ⟨t.slots.size, 0⟩ then some s else t.find? j := by
    rintro ⟨index, generation⟩
    simp only [find?, Array.getElem?_push]
    by_cases hindex : index = t.slots.size
    · subst hindex
      simp only [if_true, ScopeId.mk.injEq, true_and, Array.getElem?_eq_none (Nat.le_refl _)]
      by_cases hg : 0 = generation
      · rw [if_pos hg, if_pos hg.symm]
      · rw [if_neg hg, if_neg fun h => hg h.symm]
    · have hne : (⟨index, generation⟩ : ScopeId) ≠ ⟨t.slots.size, 0⟩ :=
        fun h => hindex (congrArg ScopeId.index h)
      rw [if_neg hindex, if_neg hne]
  have hpacked : t.live + 1 = (t.slots.push ⟨0, some s⟩).size := by
    rw [Array.size_push, ← ht.count, hf]
    rfl
  refine ⟨_, _, rfl, hnone, hfind, ⟨?_, ?_, List.nodup_nil, ?_, hpacked⟩, rfl, ?_, .inr hpacked,
    fun k => ?_⟩
  · intro i hi
    cases hi
  · intro k hk hnone'
    have hne : k ≠ t.slots.size := by
      rintro rfl
      exact absurd ((hnone' 0).symm.trans (by rw [hfind, if_pos rfl])) (by simp)
    rw [Array.size_push] at hk
    rw [← hf]
    refine ht.unused k (by omega) fun g => ?_
    rw [← hnone' g, hfind, if_neg fun h => hne (congrArg ScopeId.index h)]
  · rw [Array.size_push]
    exact hs
  · simp only [Array.size_push, Nat.le_succ]
  · simp only [generationAt, Array.getElem?_push]
    split
    · rename_i hk
      rw [hk, Array.getElem?_eq_none (Nat.le_refl _)]
      rfl
    · rfl

/-- There is room, or all slots that can be told apart are in use. -/
theorem allocate_cases (ht : t.Stocked) (s : Scope) :
    (∃ id t', t.allocate s = .ok (id, t') ∧ t.Added id s t') ∨
      (t.allocate s = .error arenaFull ∧ t.live = maxSlots) := by
  cases hf : t.free with
  | cons i rest => exact .inl (allocate_reuse ht hf s)
  | nil =>
    rcases Nat.lt_or_ge t.slots.size maxSlots with hs | hs
    · exact .inl (allocate_new ht hf hs s)
    · have hsize := Nat.le_antisymm ht.size hs
      have hcount := ht.count
      rw [hf, hsize] at hcount
      refine .inr ⟨?_, hcount⟩
      simp only [allocate, hf, hsize, Nat.lt_irrefl, if_false]
      rfl

structure Created (t : ScopeTree) (parent : ScopeId) (p : Scope) (kind : ScopeKind) (id : ScopeId)
    (t' : ScopeTree) : Prop where
  fresh : t.find? id = none
  find? : ∀ j, t'.find? j =
    if j = id then some (.fresh (some parent) kind)
    else if j = parent then some { p with children := p.children ++ [id] } else t.find? j
  stocked : t'.Stocked
  live : t'.live = t.live + 1
  size : t.slots.size ≤ t'.slots.size
  packed : t'.slots.size = t.slots.size ∨ t'.live = t'.slots.size
  generation : ∀ i, t'.generationAt i = t.generationAt i

theorem create_cases (ht : t.Stocked) (hp : t.find? parent = some p) (kind : ScopeKind) :
    (∃ id t', t.create parent kind = .ok (id, t') ∧ t.Created parent p kind id t') ∨
      (t.create parent kind = .error arenaFull ∧ t.live = maxSlots) := by
  rcases allocate_cases ht (.fresh (some parent) kind) with ⟨id, t₁, halloc, ha⟩ | ⟨halloc, hfull⟩
  · have hne : parent ≠ id := by
      rintro rfl
      exact absurd ((ha.fresh parent.generation).symm.trans hp) (by simp)
    have hp₁ := ha.find?_old hp
    obtain ⟨t', hmod, hput⟩ := modify_put hp₁ fun s => { s with children := s.children ++ [id] }
    refine .inl ⟨id, t', ?_, ha.fresh id.generation, fun j => ?_, hput.stocked hp₁ ha.stocked,
      hput.live.trans ha.live, hput.size ▸ ha.size, ?_,
      fun i => (hput.generation i).trans (ha.generation i)⟩
    · simp only [create, get_of_find? hp, halloc, hmod, bind, Except.bind, pure, Except.pure]
    · rw [hput.find?, ha.find?]
      by_cases hj : j = id
      · rw [if_pos hj, if_neg fun h => hne (h.symm.trans hj), if_pos hj]
      · rw [if_neg hj, if_neg hj]
    · rw [hput.size, hput.live]
      exact ha.packed
  · refine .inr ⟨?_, hfull⟩
    simp only [create, get_of_find? hp, halloc, bind, Except.bind]

namespace Created

variable {kind : ScopeKind}

theorem find?_self (h : t.Created parent p kind id t') :
    t'.find? id = some (.fresh (some parent) kind) := by
  rw [h.find?, if_pos rfl]

theorem ne_of_find? (h : t.Created parent p kind id t') (hj : t.find? j = some s) : j ≠ id := by
  rintro rfl
  exact absurd (h.fresh.symm.trans hj) (by simp)

theorem not_mem_children (h : t.Created parent p kind id t') (ht : t.Connected)
    (hj : t.find? j = some s) :
    id ∉ s.children := by
  intro hid
  obtain ⟨_, hs, _⟩ := ht.child hj hid
  exact h.ne_of_find? hs rfl

theorem ne_root (h : t.Created parent p kind id t') (ht : t.Connected) : id ≠ root := by
  obtain ⟨_, hs, _⟩ := ht.root
  exact (h.ne_of_find? hs).symm

/-- All scopes stay, and none loses a name. -/
theorem exists_of_find? (h : t.Created parent p kind id t') (hp : t.find? parent = some p)
    (hj : t.find? j = some s) :
    ∃ s', t'.find? j = some s' ∧ s'.parent = s.parent ∧ s'.bindings = s.bindings ∧
      s'.kind = s.kind := by
  rw [h.find?, if_neg (h.ne_of_find? hj)]
  by_cases hjp : j = parent
  · subst hjp
    cases hp.symm.trans hj
    exact ⟨_, if_pos rfl, rfl, rfl, rfl⟩
  · exact ⟨s, by rw [if_neg hjp, hj], rfl, rfl, rfl⟩

theorem contains (h : t.Created parent p kind id t') (hp : t.find? parent = some p)
    (hj : t.contains j = true) : t'.contains j = true := by
  obtain ⟨s, hs⟩ := contains_iff.mp hj
  obtain ⟨s', hs', _⟩ := h.exists_of_find? hp hs
  exact contains_of_find? hs'

/-- The scopes that are found are the new one, its parent, and others that were there before. -/
theorem find?_cases (h : t.Created parent p kind id t') (hs : t'.find? j = some s) :
    (j = id ∧ s = .fresh (some parent) kind) ∨
    (j = parent ∧ s = { p with children := p.children ++ [id] }) ∨
      t.find? j = some s := by
  rw [h.find?] at hs
  split at hs
  · rename_i hj
    cases hs
    exact .inl ⟨hj, rfl⟩
  · split at hs
    · rename_i hj
      cases hs
      exact .inr (.inl ⟨hj, rfl⟩)
    · exact .inr (.inr hs)

/-- All children stay where they are, and only the new scope is added to them. -/
theorem count_children (h : t.Created parent p kind id t') (hp : t.find? parent = some p)
    (hj : t.find? j = some s) {c : ScopeId} (hc : c ≠ id) :
    ∃ s', t'.find? j = some s' ∧ s'.children.count c = s.children.count c := by
  rw [h.find?, if_neg (h.ne_of_find? hj)]
  by_cases hjp : j = parent
  · subst hjp
    cases hp.symm.trans hj
    refine ⟨_, if_pos rfl, ?_⟩
    rw [List.count_append, List.count_singleton, if_neg (by simpa using hc.symm), Nat.add_zero]
  · exact ⟨s, by rw [if_neg hjp, hj], rfl⟩

theorem find?_old (h : t.Created parent p kind id t') (hp : t.find? parent = some p)
    (hs : t'.find? j = some s) (hj : j ≠ id) :
    ∃ s₀, t.find? j = some s₀ ∧ s.parent = s₀.parent ∧ s.bindings = s₀.bindings ∧
      ∀ c ∈ s.children, c = id ∨ c ∈ s₀.children := by
  rcases h.find?_cases hs with ⟨hid, _⟩ | ⟨rfl, rfl⟩ | hs
  · exact absurd hid hj
  · refine ⟨p, hp, rfl, rfl, fun c hc => ?_⟩
    rcases List.mem_append.mp hc with hc | hc
    · exact .inr hc
    · exact .inl (List.mem_singleton.mp hc)
  · exact ⟨s, hs, rfl, rfl, fun c hc => .inr hc⟩

theorem count_self (h : t.Created parent p kind id t') (hp : t.find? parent = some p)
    (ht : t.Connected) :
    (p.children ++ [id]).count id = 1 := by
  rw [List.count_append, List.count_eq_zero_of_not_mem (h.not_mem_children ht hp),
    List.count_singleton_self]

theorem atDepth {n : Nat} (h : t.Created parent p kind id t') (hp : t.find? parent = some p)
    (hd : t.AtDepth j n) : t'.AtDepth j n :=
  hd.mono fun hs => by
    obtain ⟨s', hs', hpar, _⟩ := h.exists_of_find? hp hs
    exact ⟨s', hs', hpar⟩

theorem connected (h : t.Created parent p kind id t') (hp : t.find? parent = some p)
    (ht : t.Connected) :
    t'.Connected where
  root := by
    obtain ⟨s, hs, hpar⟩ := ht.root
    obtain ⟨s', hs', hpar', _⟩ := h.exists_of_find? hp hs
    exact ⟨s', hs', hpar'.trans hpar⟩
  parent {j s} hs hne := by
    by_cases hj : j = id
    · subst hj
      cases h.find?_self.symm.trans hs
      refine ⟨parent, { p with children := p.children ++ [j] }, rfl, ?_, h.count_self hp ht⟩
      rw [h.find?, if_neg (h.ne_of_find? hp), if_pos rfl]
    · obtain ⟨s₀, hs₀, hpar, _⟩ := h.find?_old hp hs hj
      obtain ⟨q, qs, hq, hqs, hcount⟩ := ht.parent hs₀ hne
      obtain ⟨qs', hqs', hcount'⟩ := h.count_children hp hqs hj
      exact ⟨q, qs', hpar.trans hq, hqs', hcount'.trans hcount⟩
  child {j s c} hs hc := by
    by_cases hj : j = id
    · subst hj
      cases h.find?_self.symm.trans hs
      cases hc
    · obtain ⟨s₀, hs₀, _, _, hch⟩ := h.find?_old hp hs hj
      rcases hch c hc with rfl | hc
      · -- only the parent has the new scope as a child
        rcases h.find?_cases hs with ⟨hid, _⟩ | ⟨rfl, _⟩ | hs
        · exact absurd hid hj
        · exact ⟨_, h.find?_self, rfl⟩
        · exact absurd hc (h.not_mem_children ht hs)
      · obtain ⟨sc, hsc, hpar⟩ := ht.child hs₀ hc
        obtain ⟨sc', hsc', hpar', _⟩ := h.exists_of_find? hp hsc
        exact ⟨sc', hsc', hpar'.trans hpar⟩
  depth {j s} hs := by
    by_cases hj : j = id
    · subst hj
      obtain ⟨n, hn⟩ := ht.depth hp
      exact ⟨n + 1, .child h.find?_self rfl (h.atDepth hp hn)⟩
    · obtain ⟨s₀, hs₀, _⟩ := h.find?_old hp hs hj
      obtain ⟨n, hn⟩ := ht.depth hs₀
      exact ⟨n, h.atDepth hp hn⟩

end Created

/-! ## Giving scopes up -/

structure Destroyed (t : ScopeTree) (parent : ScopeId) (p : Scope) (id : ScopeId) (t' : ScopeTree) :
    Prop where
  find? : ∀ j, t'.find? j =
    if j = id then none
    else if j = parent then some { p with children := p.children.filter (· ≠ id) } else t.find? j
  stocked : t'.Stocked
  live : t'.live = t.live - 1
  size : t'.slots.size = t.slots.size

theorem find?_release (h : t.find? id = some s) (j : ScopeId) :
    (t.release id).find? j = if j = id then none else t.find? j := by
  rw [release, if_pos (contains_of_find? h)]
  simp only [find?, Array.getElem?_modify]
  by_cases hi : id.index = j.index
  · have hnone : (if j = id then none else t.find? j) = none := by
      split
      · rfl
      · rename_i hj
        cases hf : t.find? j with
        | none => rfl
        | some p => exact absurd (eq_of_find? hf h hi.symm) hj
    refine Eq.trans ?_ hnone.symm
    simp only [if_pos hi]
    cases t.slots[j.index]? with
    | none => rfl
    | some slot =>
      simp only [Option.map_some]
      split <;> rfl
  · have hj : j ≠ id := fun h => hi (congrArg ScopeId.index h).symm
    simp only [if_neg hi, if_neg hj]

theorem index_lt_of_find? (h : t.find? id = some s) : id.index < t.slots.size := by
  rcases Nat.lt_or_ge id.index t.slots.size with hlt | hge
  · exact hlt
  · simp only [find?, Array.getElem?_eq_none hge] at h
    cases h

/-- A slot that is given up was not among the free ones. -/
theorem Stocked.nodup_release (ht : t.Stocked) (h : t.find? id = some s) :
    (id.index :: t.free).Nodup := by
  refine List.nodup_cons.mpr ⟨fun hi => ?_, ht.nodup⟩
  exact absurd (((ht.free _ hi).2 id.generation).symm.trans h) (by simp)

theorem Stocked.live_pos (ht : t.Stocked) (h : t.find? id = some s) : 0 < t.live := by
  have hsub : id.index :: t.free ⊆ List.range t.slots.size := by
    intro i hi
    rcases List.mem_cons.mp hi with rfl | hi
    · exact List.mem_range.mpr (index_lt_of_find? h)
    · exact List.mem_range.mpr (ht.free i hi).1
  have hlength := (List.subperm_of_subset (ht.nodup_release h) hsub).length_le
  rw [List.length_range, List.length_cons, ← ht.count] at hlength
  omega

theorem size_release (t : ScopeTree) (id : ScopeId) :
    (t.release id).slots.size = t.slots.size := by
  unfold release
  split
  · exact Array.size_modify
  · rfl

theorem release_stocked (ht : t.Stocked) (h : t.find? id = some s) : (t.release id).Stocked := by
  have hfree : (t.release id).free = id.index :: t.free := by
    rw [release, if_pos (contains_of_find? h)]
  have hsize := t.size_release id
  have hlive : (t.release id).live = t.live - 1 := by rw [release, if_pos (contains_of_find? h)]
  refine ⟨fun i hi => ?_, fun i hi hnone => ?_, hfree ▸ ht.nodup_release h, hsize ▸ ht.size, ?_⟩
  · rw [hsize]
    rw [hfree] at hi
    rcases List.mem_cons.mp hi with rfl | hi
    · refine ⟨index_lt_of_find? h, fun g => ?_⟩
      rw [find?_release h]
      split
      · rfl
      · rename_i hj
        cases hf : t.find? ⟨id.index, g⟩ with
        | none => rfl
        | some p => exact absurd (eq_of_find? hf h rfl) hj
    · obtain ⟨hlt, hnone⟩ := ht.free i hi
      refine ⟨hlt, fun g => ?_⟩
      rw [find?_release h]
      split
      · rfl
      · exact hnone g
  · rw [hfree]
    by_cases hindex : i = id.index
    · exact hindex ▸ List.mem_cons_self
    · refine List.mem_cons_of_mem _ (ht.unused i (hsize ▸ hi) fun g => ?_)
      rw [← hnone g, find?_release h, if_neg fun hj => hindex (congrArg ScopeId.index hj)]
  · have hpos := ht.live_pos h
    have hcount := ht.count
    rw [hlive, hfree, hsize, List.length_cons]
    omega

/-- A scope without children is all there is below it. -/
theorem subtree_leaf (h : t.find? id = some s) (hch : s.children = []) :
    t.subtree id = .ok [id] := by
  have hnil : ∀ n, t.levels n [] = .ok [] := fun n => by cases n <;> rfl
  have hpos := index_lt_of_find? h
  obtain ⟨n, hn⟩ : ∃ n, t.slots.size = n + 1 := ⟨t.slots.size - 1, by omega⟩
  simp [subtree, hn, levels, get_of_find? h, hch, hnil, bind, Except.bind, pure, Except.pure]

theorem destroy_leaf (ht : t.Stocked) (hid : t.find? id = some s) (hroot : id ≠ root)
    (hch : s.children = [])
    (hpar : s.parent = some parent) (hp : t.find? parent = some p) (hne : parent ≠ id) :
    ∃ t', t.destroy id = .ok t' ∧ t.Destroyed parent p id t' := by
  have hp₁ : (t.release id).find? parent = some p := by rw [find?_release hid, if_neg hne, hp]
  obtain ⟨t', hmod, hput⟩ :=
    modify_put hp₁ fun s => { s with children := s.children.filter (· ≠ id) }
  have hrelease : t.contains id = true := contains_of_find? hid
  refine ⟨t', ?_, fun j => ?_, hput.stocked hp₁ (release_stocked ht hid), ?_, ?_⟩
  · simp only [destroy, if_neg hroot, get_of_find? hid, subtree_leaf hid hch, hpar, bind,
      Except.bind, List.foldr]
    exact hmod
  · rw [hput.find?, find?_release hid]
    by_cases hj : j = id
    · rw [if_pos hj, if_neg fun h => hne (h.symm.trans hj), if_pos hj]
    · rw [if_neg hj, if_neg hj]
  · rw [hput.live, release, if_pos hrelease]
  · rw [hput.size, release, if_pos hrelease, Array.size_modify]

/-- With no scope below the global one there is nothing to give up. -/
theorem teardown_leaf (h : t.find? root = some s) (hch : s.children = []) :
    t.teardown = t.modify root fun s => { s with bindings := Bindings.empty } := by
  simp only [teardown, get_of_find? h, hch, bind, Except.bind, List.reverse_nil, List.foldlM_nil,
    pure, Except.pure]

/-! ## Names -/

theorem resolveWithin_ok (ht : t.Connected) (name : String) (steps : Nat)
    (hid : t.contains id = true) :
    ∃ r, t.resolveWithin name steps id = .ok r ∧
      ∀ owner, r = some owner → t.contains owner = true := by
  induction steps generalizing id with
  | zero => exact ⟨none, rfl, fun _ h => by cases h⟩
  | succ steps ih =>
    obtain ⟨s, hs⟩ := contains_iff.mp hid
    simp only [resolveWithin, get_of_find? hs, bind, Except.bind, pure, Except.pure]
    split
    · exact ⟨some id, rfl, fun owner h => by cases h; exact hid⟩
    · cases hpar : s.parent with
      | some parent => exact ih (ht.contains_parent hs hpar)
      | none => exact ⟨none, rfl, fun _ h => by cases h⟩

theorem lookup_of_resolve_none {name : String} (h : t.resolve id name = .ok none) :
    t.lookup id name = .ok none := by
  simp only [lookup, h, bind, Except.bind, pure, Except.pure]

theorem lookup_of_resolve_some {name : String} {owner : ScopeId}
    (h : t.resolve id name = .ok (some owner))
    (hs : t.find? owner = some s) : t.lookup id name = .ok (s.bindings.find? name) := by
  simp only [lookup, h, get_of_find? hs, bind, Except.bind, pure, Except.pure]

theorem assign?_of_resolve_none {name : String} (value : Option Value)
    (h : t.resolve id name = .ok none) :
    t.assign? id name value = .ok none := by
  simp only [assign?, h, bind, Except.bind, pure, Except.pure]

theorem assign?_of_resolve_some {name : String} {owner : ScopeId} (value : Option Value)
    (h : t.resolve id name = .ok (some owner)) (hs : t.find? owner = some s) :
    ∃ t', t.assign? id name value = .ok (some t') ∧
      t.Put owner { s with bindings := s.bindings.set name value } t' := by
  obtain ⟨t', hmod, hput⟩ := modify_put hs fun s => { s with bindings := s.bindings.set name value }
  refine ⟨t', ?_, hput⟩
  simp only [assign?, h, hmod, bind, Except.bind, pure, Except.pure]

/-- A name that is found is found in a scope. -/
theorem lookup_ok (ht : t.Connected) (hid : t.contains id = true) (name : String) :
    ∃ r, t.lookup id name = .ok r ∧
      ∀ b, r = some b → ∃ owner s, t.find? owner = some s ∧ s.bindings.find? name = some b := by
  obtain ⟨r, hr, howner⟩ := resolveWithin_ok ht name t.slots.size hid
  cases r with
  | none => exact ⟨none, lookup_of_resolve_none hr, fun _ h => by cases h⟩
  | some owner =>
    obtain ⟨s, hs⟩ := contains_iff.mp (howner owner rfl)
    exact ⟨s.bindings.find? name, lookup_of_resolve_some hr hs, fun b hb => ⟨owner, s, hs, hb⟩⟩

theorem assign?_cases (ht : t.Connected) (hid : t.contains id = true) (name : String)
    (value : Option Value) :
    t.assign? id name value = .ok none ∨
      ∃ owner s t', t.assign? id name value = .ok (some t') ∧ t.find? owner = some s ∧
        t.Put owner { s with bindings := s.bindings.set name value } t' := by
  obtain ⟨r, hr, howner⟩ := resolveWithin_ok ht name t.slots.size hid
  cases r with
  | none => exact .inl (assign?_of_resolve_none value hr)
  | some owner =>
    obtain ⟨s, hs⟩ := contains_iff.mp (howner owner rfl)
    obtain ⟨t', hok, hput⟩ := assign?_of_resolve_some value hr hs
    exact .inr ⟨owner, s, t', hok, hs, hput⟩

theorem declare?_cases (hs : t.find? id = some s) (name : String) (value : Option Value) :
    t.declare? id name value = .ok none ∨
      ∃ bindings t', t.declare? id name value = .ok (some t') ∧
        s.bindings.declare? name value = some bindings ∧
        t.Put id { s with bindings } t' := by
  cases hb : s.bindings.declare? name value with
  | none =>
    exact .inl (by simp only [declare?, get_of_find? hs, hb, bind, Except.bind, pure, Except.pure])
  | some bindings =>
    obtain ⟨t', hmod, hput⟩ := modify_put hs fun s => { s with bindings }
    refine .inr ⟨bindings, t', ?_, rfl, hput⟩
    simp only [declare?, get_of_find? hs, hb, hmod, bind, Except.bind, pure, Except.pure]

/-! ## From one table to another -/

section Tables

variable {source into : ScopeId} {i : Scope}

theorem copyBindings_put (hs : t.find? source = some s) (hi : t.find? into = some i) :
    ∃ t', t.copyBindings source into = .ok t' ∧
      t.Put into { i with bindings := s.bindings } t' := by
  obtain ⟨t', hmod, hput⟩ := modify_put hi fun i => { i with bindings := s.bindings }
  refine ⟨t', ?_, hput⟩
  simp only [copyBindings, get_of_find? hs, hmod, bind, Except.bind]

theorem writeBack_put (hs : t.find? source = some s) (hi : t.find? into = some i) :
    ∃ t', t.writeBack source into = .ok t' ∧
      t.Put into { i with bindings := i.bindings.updateFrom s.bindings } t' := by
  obtain ⟨t', hmod, hput⟩ :=
    modify_put hi fun i => { i with bindings := i.bindings.updateFrom s.bindings }
  refine ⟨t', ?_, hput⟩
  simp only [writeBack, get_of_find? hs, hmod, bind, Except.bind]

end Tables

/-! ## Dead handles -/

theorem get_dead (h : t.find? id = none) : t.get id = .error (.invalidHandle .scope) := by
  rw [get, h]

theorem contains_dead (h : t.find? id = none) : t.contains id = false := by
  rw [contains, h]
  rfl

theorem modify_dead (h : t.find? id = none) (f : Scope → Scope) :
    t.modify id f = .error (.invalidHandle .scope) := by
  rw [modify, if_neg (by simp [contains_dead h])]

theorem create_dead (h : t.find? id = none) (kind : ScopeKind) :
    t.create id kind = .error (.invalidHandle .scope) := by
  rw [create, get_dead h]
  rfl

theorem destroy_dead (h : t.find? id = none) (hroot : id ≠ root) :
    t.destroy id = .error (.invalidHandle .scope) := by
  rw [destroy, if_neg hroot, get_dead h]
  rfl

theorem declare?_dead (h : t.find? id = none) (name : String) (value : Option Value) :
    t.declare? id name value = .error (.invalidHandle .scope) := by
  rw [declare?, get_dead h]
  rfl

theorem resolve_dead (hc : t.Connected) (h : t.find? id = none) (name : String) :
    t.resolve id name = .error (.invalidHandle .scope) := by
  obtain ⟨s, hs, _⟩ := hc.root
  have hpos := index_lt_of_find? hs
  obtain ⟨n, hn⟩ : ∃ n, t.slots.size = n + 1 := ⟨t.slots.size - 1, by omega⟩
  rw [resolve, hn, resolveWithin, get_dead h]
  rfl

theorem lookup_dead (hc : t.Connected) (h : t.find? id = none) (name : String) :
    t.lookup id name = .error (.invalidHandle .scope) := by
  rw [lookup, resolve_dead hc h]
  rfl

theorem assign?_dead (hc : t.Connected) (h : t.find? id = none) (name : String)
    (value : Option Value) :
    t.assign? id name value = .error (.invalidHandle .scope) := by
  rw [assign?, resolve_dead hc h]
  rfl

/-- Copying needs both scopes. -/
theorem copyBindings_dead {source into : ScopeId}
    (h : t.find? source = none ∨ t.find? into = none) :
    t.copyBindings source into = .error (.invalidHandle .scope) := by
  cases hs : t.find? source with
  | none =>
    rw [copyBindings, get_dead hs]
    rfl
  | some s =>
    rw [copyBindings, get_of_find? hs]
    exact modify_dead (h.resolve_left (by simp [hs])) _

theorem writeBack_dead {source into : ScopeId} (h : t.find? source = none ∨ t.find? into = none) :
    t.writeBack source into = .error (.invalidHandle .scope) := by
  cases hs : t.find? source with
  | none =>
    rw [writeBack, get_dead hs]
    rfl
  | some s =>
    rw [writeBack, get_of_find? hs]
    exact modify_dead (h.resolve_left (by simp [hs])) _

theorem put_of_copyBindings {source into : ScopeId} (h : t.copyBindings source into = .ok t') :
    ∃ s i, t.find? source = some s ∧ t.find? into = some i ∧
      t.Put into { i with bindings := s.bindings } t' := by
  cases hs : t.find? source with
  | none => cases (copyBindings_dead (.inl hs)).symm.trans h
  | some s =>
    cases hi : t.find? into with
    | none => cases (copyBindings_dead (.inr hi)).symm.trans h
    | some i =>
      obtain ⟨t₁, hok, hput⟩ := copyBindings_put hs hi
      cases hok.symm.trans h
      exact ⟨s, i, rfl, rfl, hput⟩

theorem put_of_writeBack {source into : ScopeId} (h : t.writeBack source into = .ok t') :
    ∃ s i, t.find? source = some s ∧ t.find? into = some i ∧
      t.Put into { i with bindings := i.bindings.updateFrom s.bindings } t' := by
  cases hs : t.find? source with
  | none => cases (writeBack_dead (.inl hs)).symm.trans h
  | some s =>
    cases hi : t.find? into with
    | none => cases (writeBack_dead (.inr hi)).symm.trans h
    | some i =>
      obtain ⟨t₁, hok, hput⟩ := writeBack_put hs hi
      cases hok.symm.trans h
      exact ⟨s, i, rfl, rfl, hput⟩

end ScopeTree

namespace Bindings

def All (P : Value → Prop) (b : Bindings) : Prop :=
  ∀ x ∈ b.toList, ∀ v, x.value = some v → P v

variable {P : Value → Prop} {b b' : Bindings} {name : String} {value : Option Value}

theorem All.empty : All P empty := fun _ hx => by cases hx

theorem All.find? (h : All P b) {x : Binding} (hx : b.find? name = some x) {v : Value}
    (hv : x.value = some v) :
    P v :=
  h x (List.mem_of_find?_eq_some hx) v hv

theorem All.declare? (h : All P b) (hv : ∀ v, value = some v → P v)
    (hb : b.declare? name value = some b') :
    All P b' := by
  rw [Bindings.declare?] at hb
  split at hb <;> cases hb
  intro x hx v hxv
  rcases List.mem_append.mp hx with hx | hx
  · exact h x hx v hxv
  · cases List.mem_singleton.mp hx
    exact hv v hxv

theorem All.set (h : All P b) (hv : ∀ v, value = some v → P v) : All P (b.set name value) := by
  intro x hx v hxv
  obtain ⟨y, hy, rfl⟩ := List.mem_map.mp hx
  split at hxv
  · exact hv v hxv
  · exact h y hy v hxv

theorem All.updateFrom (h : All P b) (h' : All P b') : All P (b.updateFrom b') := by
  intro x hx v hxv
  obtain ⟨y, hy, rfl⟩ := List.mem_map.mp hx
  split at hxv
  · rename_i newer hnewer
    exact h'.find? hnewer hxv
  · exact h y hy v hxv

theorem All.imp {P' : Value → Prop} (h : All P b) (himp : ∀ v, P v → P' v) : All P' b :=
  fun x hx v hv => himp v (h x hx v hv)

end Bindings
end Replay
