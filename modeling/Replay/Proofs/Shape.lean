import Replay.Proofs.Arena
/-!
Trees of scopes without the kinds of their scopes.

What a scope belongs to is of no consequence for names: trees that differ in nothing but kinds
answer every request alike, and they are then again trees that differ in nothing but kinds.  The
values in a tree are those that have been put there.
-/

namespace Replay

def Scope.plain (s : Scope) : Scope := { s with kind := .block }

def Slot.plain (slot : Slot) : Slot := { slot with scope := slot.scope.map Scope.plain }

namespace ScopeTree

variable {t t' : ScopeTree}

def plain (t : ScopeTree) : ScopeTree := { t with slots := t.slots.map Slot.plain }

/-! ## Kinds do not matter -/

theorem find?_plain (t : ScopeTree) (id : ScopeId) :
    t.plain.find? id = (t.find? id).map Scope.plain := by
  simp only [find?, plain, Array.getElem?_map]
  cases t.slots[id.index]? with
  | none => rfl
  | some slot =>
    simp only [Option.map_some, Slot.plain]
    split <;> rfl

@[simp] theorem contains_plain (t : ScopeTree) (id : ScopeId) :
    t.plain.contains id = t.contains id := by
  simp only [contains, find?_plain, Option.isSome_map]

theorem get_plain (t : ScopeTree) (id : ScopeId) : t.plain.get id = (t.get id).map Scope.plain := by
  simp only [get, find?_plain]
  cases t.find? id <;> rfl

theorem modify_slots {f g : Slot → Slot} (h : ∀ slot, g slot.plain = (f slot).plain)
    (slots : Array Slot) (i : Nat) :
    (slots.map Slot.plain).modify i g = (slots.modify i f).map Slot.plain := by
  apply Array.ext_getElem?
  intro j
  simp only [Array.getElem?_modify, Array.getElem?_map]
  by_cases hj : i = j
  · simp only [if_pos hj]
    cases slots[j]? with
    | none => rfl
    | some slot => exact congrArg some (h slot)
  · simp only [if_neg hj]

theorem modify_plain {f g : Scope → Scope} (h : ∀ s, g s.plain = (f s).plain) (t : ScopeTree)
    (id : ScopeId) :
    t.plain.modify id g = (t.modify id f).map plain := by
  have hslots : (t.slots.map Slot.plain).modify id.index
    (fun slot => { slot with scope := slot.scope.map g }) =
      (t.slots.modify id.index fun slot => { slot with scope := slot.scope.map f }).map
        Slot.plain := by
    apply modify_slots
    intro slot
    simp only [Slot.plain, Option.map_map, Function.comp_def, h]
  simp only [modify, contains_plain]
  by_cases hid : t.contains id = true
  · simp only [if_pos hid, Except.map, plain, hslots]
  · simp only [if_neg hid, Except.map]

theorem allocate_plain (t : ScopeTree) (s : Scope) :
    t.plain.allocate s.plain = (t.allocate s).map fun made => (made.1, made.2.plain) := by
  have hfree : t.plain.free = t.free := rfl
  have hsize : t.plain.slots.size = t.slots.size := Array.size_map
  unfold allocate
  rw [hfree, hsize]
  cases t.free with
  | nil =>
    by_cases hlt : t.slots.size < maxSlots
    · simp only [if_pos hlt, Except.map, plain, Array.map_push]
      rfl
    · simp only [if_neg hlt, Except.map]
  | cons i free =>
    simp only [plain, Array.getElem?_map]
    cases t.slots[i]? with
    | none => rfl
    | some slot =>
      simp only [Option.map_some, Except.map, Array.map_setIfInBounds]
      rfl

theorem create_plain (t : ScopeTree) (parent : ScopeId) (kind : ScopeKind) :
    t.plain.create parent .block = (t.create parent kind).map fun made =>
    (made.1, made.2.plain) := by
  have hallocate := allocate_plain t (.fresh (some parent) kind)
  rw [show (Scope.fresh (some parent) kind).plain = .fresh (some parent) .block from rfl]
    at hallocate
  unfold create
  rw [get_plain, hallocate]
  cases t.get parent with
  | error e => rfl
  | ok p =>
    cases t.allocate (.fresh (some parent) kind) with
    | error e => rfl
    | ok made =>
      obtain ⟨id, t₁⟩ := made
      have hmodify : t₁.plain.modify parent (fun s => { s with children := s.children ++ [id] }) =
          (t₁.modify parent fun s => { s with children := s.children ++ [id] }).map plain :=
        modify_plain (by intro _; rfl) t₁ parent
      simp only [Except.map, bind, Except.bind, pure, Except.pure, hmodify]
      cases t₁.modify parent fun s => { s with children := s.children ++ [id] } <;> rfl

theorem release_plain (t : ScopeTree) (id : ScopeId) :
    t.plain.release id = (t.release id).plain := by
  simp only [release, contains_plain]
  by_cases hid : t.contains id = true
  · have hslots : (t.slots.map Slot.plain).modify id.index
      (fun slot => ⟨slot.generation + 1, none⟩) =
        (t.slots.modify id.index fun slot => ⟨slot.generation + 1, none⟩).map Slot.plain :=
      modify_slots (by intro _; rfl) t.slots id.index
    simp only [if_pos hid, plain, hslots]
  · simp only [if_neg hid]

theorem mapM_get_plain (t : ScopeTree) (level : List ScopeId) :
    level.mapM t.plain.get = (level.mapM t.get).map (List.map Scope.plain) := by
  induction level with
  | nil => rfl
  | cons id level ih =>
    simp only [List.mapM_cons, get_plain, ih, bind, Except.bind, pure, Except.pure]
    cases t.get id with
    | error e => rfl
    | ok s => cases level.mapM t.get <;> rfl

theorem levels_plain (t : ScopeTree) (depth : Nat) (level : List ScopeId) :
    t.plain.levels depth level = t.levels depth level := by
  induction depth generalizing level with
  | zero => rfl
  | succ depth ih =>
    cases level with
    | nil => rfl
    | cons id level =>
      simp only [levels, mapM_get_plain, bind, Except.bind]
      cases (id :: level).mapM t.get with
      | error e => rfl
      | ok scopes =>
        have hchildren : (scopes.map Scope.plain).flatMap Scope.children =
            scopes.flatMap Scope.children := by
          rw [List.flatMap_map]
          rfl
        simp only [Except.map, hchildren, ih]

theorem destroy_plain (t : ScopeTree) (id : ScopeId) :
    t.plain.destroy id = (t.destroy id).map plain := by
  have hsize : t.plain.slots.size = t.slots.size := Array.size_map
  have hrelease (order : List ScopeId) :
      order.foldr (fun s t => t.release s) t.plain =
        (order.foldr (fun s t => t.release s) t).plain := by
    induction order with
    | nil => rfl
    | cons s order ih => simp only [List.foldr_cons, ih, release_plain]
  unfold destroy subtree
  rw [levels_plain, hsize, get_plain]
  by_cases hroot : id = root
  · simp only [if_pos hroot]
    rfl
  · simp only [if_neg hroot, bind, Except.bind, pure, Except.pure]
    cases t.get id with
    | error e => rfl
    | ok scope =>
      cases t.levels t.slots.size [id] with
      | error e => rfl
      | ok order =>
        simp only [Except.map, hrelease]
        cases hparent : scope.parent with
        | none => simp only [Scope.plain, hparent]
        | some parent =>
          simp only [Scope.plain, hparent]
          exact modify_plain (by intro _; rfl) _ parent

/-! ## Names -/

theorem resolveWithin_plain (t : ScopeTree) (name : String) (steps : Nat) (id : ScopeId) :
    t.plain.resolveWithin name steps id = t.resolveWithin name steps id := by
  induction steps generalizing id with
  | zero => rfl
  | succ steps ih =>
    simp only [resolveWithin, get_plain, bind, Except.bind]
    cases t.get id with
    | error e => rfl
    | ok scope => simp only [Except.map, Scope.plain, ih]

theorem resolve_plain (t : ScopeTree) (id : ScopeId) (name : String) :
    t.plain.resolve id name = t.resolve id name := by
  have hsize : t.plain.slots.size = t.slots.size := Array.size_map
  rw [resolve, resolve, hsize, resolveWithin_plain]

theorem lookup_plain (t : ScopeTree) (id : ScopeId) (name : String) :
    t.plain.lookup id name = t.lookup id name := by
  simp only [lookup, resolve_plain, bind, Except.bind]
  cases t.resolve id name with
  | error e => rfl
  | ok found =>
    cases found with
    | none => rfl
    | some owner =>
      simp only [get_plain]
      cases t.get owner <;> rfl

theorem assign?_plain (t : ScopeTree) (id : ScopeId) (name : String) (value : Option Value) :
    t.plain.assign? id name value = (t.assign? id name value).map (Option.map plain) := by
  simp only [assign?, resolve_plain, bind, Except.bind]
  cases t.resolve id name with
  | error e => rfl
  | ok found =>
    cases found with
    | none => rfl
    | some owner =>
      have hmodify : t.plain.modify owner
        (fun s => { s with bindings := s.bindings.set name value }) =
          (t.modify owner fun s => { s with bindings := s.bindings.set name value }).map plain :=
        modify_plain (by intro _; rfl) t owner
      simp only [hmodify]
      cases t.modify owner fun s => { s with bindings := s.bindings.set name value } <;> rfl

theorem declare?_plain (t : ScopeTree) (id : ScopeId) (name : String) (value : Option Value) :
    t.plain.declare? id name value = (t.declare? id name value).map (Option.map plain) := by
  simp only [declare?, get_plain, bind, Except.bind]
  cases t.get id with
  | error e => rfl
  | ok scope =>
    simp only [Except.map, Scope.plain]
    cases scope.bindings.declare? name value with
    | none => rfl
    | some bindings =>
      have hmodify : t.plain.modify id (fun s => { s with bindings }) =
          (t.modify id fun s => { s with bindings }).map plain :=
        modify_plain (by intro _; rfl) t id
      simp only [hmodify]
      cases t.modify id fun s => { s with bindings } <;> rfl

theorem setKind_plain {id : ScopeId} (h : t.contains id = true) (kind : ScopeKind) :
    ∃ t', t.setKind id kind = .ok t' ∧ t'.plain = t.plain := by
  refine ⟨_, if_pos h, ?_⟩
  have hslots :
      (t.slots.modify id.index fun slot =>
        { slot with scope := slot.scope.map ({ · with kind }) }).map Slot.plain =
          t.slots.map Slot.plain := by
    apply Array.ext_getElem?
    intro j
    simp only [Array.getElem?_modify, Array.getElem?_map]
    split
    · cases t.slots[j]? with
      | none => rfl
      | some slot =>
        simp only [Option.map_some, Slot.plain, Option.map_map]
        rfl
    · rfl
  simp only [plain, hslots]

theorem copyBindings_plain (t : ScopeTree) (source into : ScopeId) :
    t.plain.copyBindings source into = (t.copyBindings source into).map plain := by
  simp only [copyBindings, get_plain, bind, Except.bind]
  cases t.get source with
  | error e => rfl
  | ok scope =>
    simp only [Except.map]
    exact modify_plain (by intro _; rfl) t into

theorem writeBack_plain (t : ScopeTree) (source into : ScopeId) :
    t.plain.writeBack source into = (t.writeBack source into).map plain := by
  simp only [writeBack, get_plain, bind, Except.bind]
  cases t.get source with
  | error e => rfl
  | ok scope =>
    simp only [Except.map]
    exact modify_plain (by intro _; rfl) t into

/-! ## Values -/

def Holds (t : ScopeTree) (P : Value → Prop) : Prop :=
  ∀ ⦃i : Nat⦄ ⦃slot : Slot⦄ ⦃s : Scope⦄, t.slots[i]? = some slot → slot.scope = some s →
  s.bindings.All P

namespace Holds

variable {P : Value → Prop} {id : ScopeId}

theorem new : ScopeTree.new.Holds P := by
  intro i slot s hslot hs
  cases i with
  | zero =>
    cases hslot
    cases hs
    exact Bindings.All.empty
  | succ i => cases hslot

theorem find? (h : t.Holds P) {s : Scope} (hs : t.find? id = some s) : s.bindings.All P := by
  unfold ScopeTree.find? at hs
  split at hs
  · next slot hslot =>
    split at hs
    · exact h hslot hs
    · cases hs
  · cases hs

theorem get (h : t.Holds P) {s : Scope} (hs : t.get id = .ok s) : s.bindings.All P := by
  unfold ScopeTree.get at hs
  split at hs
  · next hfind =>
    cases hs
    exact h.find? hfind
  · cases hs

theorem modify (h : t.Holds P) {f : Scope → Scope} (ht : t.modify id f = .ok t')
    (hf : ∀ s, s.bindings.All P → (f s).bindings.All P) : t'.Holds P := by
  unfold ScopeTree.modify at ht
  split at ht
  · cases ht
    intro i slot s hslot hs
    simp only [Array.getElem?_modify] at hslot
    split at hslot
    · obtain ⟨old, hold, rfl⟩ := Option.map_eq_some_iff.mp hslot
      obtain ⟨s', hs', rfl⟩ := Option.map_eq_some_iff.mp hs
      exact hf s' (h hold hs')
    · exact h hslot hs
  · cases ht

theorem create (h : t.Holds P) {parent : ScopeId} {kind : ScopeKind}
    (ht : t.create parent kind = .ok (id, t')) :
    t'.Holds P := by
  have hallocate {made : ScopeId × ScopeTree}
    (hm : t.allocate (.fresh (some parent) kind) = .ok made) :
      made.2.Holds P := by
    unfold allocate at hm
    split at hm
    · split at hm
      · cases hm
        intro i slot s hslot hs
        simp only [Array.getElem?_setIfInBounds] at hslot
        split at hslot
        · split at hslot
          · cases hslot
            cases hs
            exact Bindings.All.empty
          · cases hslot
        · exact h hslot hs
      · cases hm
    · split at hm
      · cases hm
        intro i slot s hslot hs
        simp only [Array.getElem?_push] at hslot
        split at hslot
        · cases hslot
          cases hs
          exact Bindings.All.empty
        · exact h hslot hs
      · cases hm
  unfold ScopeTree.create at ht
  simp only [bind, Except.bind, pure, Except.pure] at ht
  split at ht
  · cases ht
  · split at ht
    · cases ht
    · next made hm =>
      split at ht
      · cases ht
      · next t₁ hmodify =>
        cases ht
        exact (hallocate hm).modify hmodify fun _ hs => hs

theorem release (h : t.Holds P) (id : ScopeId) : (t.release id).Holds P := by
  unfold ScopeTree.release
  split
  · intro i slot s hslot hs
    simp only [Array.getElem?_modify] at hslot
    split at hslot
    · obtain ⟨old, _, rfl⟩ := Option.map_eq_some_iff.mp hslot
      cases hs
    · exact h hslot hs
  · exact h

theorem destroy (h : t.Holds P) (ht : t.destroy id = .ok t') : t'.Holds P := by
  have hrelease (order : List ScopeId) : (order.foldr (fun s t => t.release s) t).Holds P := by
    induction order with
    | nil => exact h
    | cons s order ih => exact ih.release s
  unfold ScopeTree.destroy at ht
  simp only [bind, Except.bind, pure, Except.pure] at ht
  split at ht
  · cases ht
  · split at ht
    · cases ht
    · split at ht
      · cases ht
      · split at ht
        · exact (hrelease _).modify ht fun _ hs => hs
        · cases ht
          exact hrelease _

theorem teardown (h : t.Holds P) (ht : t.teardown = .ok t') : t'.Holds P := by
  have hdestroyed (ids : List ScopeId) {t₁ : ScopeTree}
    (h₁ : ids.foldlM ScopeTree.destroy t = .ok t₁) :
      t₁.Holds P := by
    clear ht
    induction ids generalizing t with
    | nil =>
      cases h₁
      exact h
    | cons id ids ih =>
      simp only [List.foldlM_cons, bind, Except.bind] at h₁
      split at h₁
      · cases h₁
      · next hdestroy => exact ih (h.destroy hdestroy) h₁
  unfold ScopeTree.teardown at ht
  simp only [bind, Except.bind] at ht
  split at ht
  · cases ht
  · split at ht
    · cases ht
    · next hids => exact (hdestroyed _ hids).modify ht fun _ _ => Bindings.All.empty

theorem assign? (h : t.Holds P) {name : String} {value : Option Value}
    (hv : ∀ v, value = some v → P v)
    (ht : t.assign? id name value = .ok (some t')) : t'.Holds P := by
  unfold ScopeTree.assign? at ht
  simp only [bind, Except.bind, pure, Except.pure] at ht
  split at ht
  · cases ht
  · split at ht
    · split at ht
      · cases ht
      · next hmodify =>
        cases ht
        exact h.modify hmodify fun _ hs => hs.set hv
    · cases ht

theorem declare? (h : t.Holds P) {name : String} {value : Option Value}
    (hv : ∀ v, value = some v → P v)
    (ht : t.declare? id name value = .ok (some t')) : t'.Holds P := by
  unfold ScopeTree.declare? at ht
  simp only [bind, Except.bind, pure, Except.pure] at ht
  split at ht
  · cases ht
  · next scope hscope =>
    split at ht
    · cases ht
    · next bindings hbindings =>
      split at ht
      · cases ht
      · next hmodify =>
        cases ht
        exact h.modify hmodify fun _ _ => (h.get hscope).declare? hv hbindings

theorem copyBindings (h : t.Holds P) {source into : ScopeId}
    (ht : t.copyBindings source into = .ok t') :
    t'.Holds P := by
  unfold ScopeTree.copyBindings at ht
  simp only [bind, Except.bind] at ht
  split at ht
  · cases ht
  · next hscope =>
    have hall := h.get hscope
    exact h.modify ht fun _ _ => hall

theorem writeBack (h : t.Holds P) {source into : ScopeId} (ht : t.writeBack source into = .ok t') :
    t'.Holds P := by
  unfold ScopeTree.writeBack at ht
  simp only [bind, Except.bind] at ht
  split at ht
  · cases ht
  · next hscope => exact h.modify ht fun _ hs => hs.updateFrom (h.get hscope)

end Holds

end ScopeTree
end Replay
