import Replay.Proofs.Arena.Edits
/-!
Stale handles.

The generation of a slot counts, in 32 bits, how often the slot has been given up.  A handle to a
scope that is gone is behind that count from then on, whatever else is done to the tree, until the
count has gone round once.
-/

namespace Replay
namespace ScopeTree

variable {t t' : ScopeTree} {id j : ScopeId} {s : Scope} {e : Edit} {i : Nat}

/-! ## Counting -/

/-- The edit gives up the scope in this slot. -/
def Edit.empties (t : ScopeTree) (i : Nat) (e : Edit) : Bool :=
  t.occupied i && !(e.perform t).2.occupied i

/-- How often a slot is given up in a run of edits. -/
def releases (t : ScopeTree) (i : Nat) : List Edit → Nat
  | [] => 0
  | e :: edits => (if e.empties t i then 1 else 0) + (e.perform t).2.releases i edits

/-- A new scope empties no slot. -/
theorem Created.occupied {parent : ScopeId} {p : Scope} {kind : ScopeKind}
    (h : t.Created parent p kind id t')
    (hp : t.find? parent = some p) (hi : t.occupied i = true) : t'.occupied i = true := by
  obtain ⟨g, s, hs⟩ := occupied_iff.mp hi
  obtain ⟨s', hs', _⟩ := h.exists_of_find? hp hs
  exact occupied_iff.mpr ⟨g, s', hs'⟩

theorem Edited.generation {a : Answer} (h : t.Edited e a t') (i : Nat) :
    t'.generationAt i = t.generationAt i + if t.occupied i && !t'.occupied i then 1 else 0 := by
  cases h with
  | created hp hcreated =>
    rw [hcreated.generation]
    cases hi : t.occupied i with
    | false => simp
    | true => simp [hcreated.occupied hp hi]
  | pruned _ _ hpruned => exact hpruned.spent.generation i
  | cleared hcleared => exact hcleared.spent.generation i
  | put hs hput _ _ => exact (hput.spent hs).generation i
  | declined => exact (Spent.refl t).generation i

/-- One edit moves the generation of a slot on if it empties the slot, and otherwise leaves it. -/
theorem Edit.generation_perform (ht : t.Stocked) (hc : t.Connected) (e : Edit) (i : Nat) :
    (e.perform t).2.generationAt i = t.generationAt i + if e.empties t i then 1 else 0 := by
  unfold Edit.empties
  rcases e.perform_cases ht hc with ⟨a, _, h⟩ | ⟨err, h⟩
  · exact h.generation i
  · rw [h]
    exact (Spent.refl t).generation i

theorem generation_after (ht : t.Stocked) (hc : t.Connected) (i : Nat) (edits : List Edit) :
    (t.after edits).generationAt i = t.generationAt i + UInt32.ofNat (t.releases i edits) := by
  induction edits generalizing t with
  | nil => simp [after, releases]
  | cons e edits ih =>
    obtain ⟨ht', hc'⟩ := e.perform_keeps ht hc
    rw [after, ih ht' hc', e.generation_perform ht hc, releases, UInt32.ofNat_add, UInt32.add_assoc]
    split <;> rfl

/-! ## Dead handles -/

/-- The edit gives up the scope at `id`: it destroys that scope or one above it, or it clears the
tree. -/
def Edit.Releases (t : ScopeTree) (id : ScopeId) : Edit → Prop
  | .destroy top => top ≠ root ∧ t.contains top = true ∧ t.Under top id
  | .teardown => id ≠ root
  | _ => False

theorem Pruned.empties (h : t.Pruned j t') (hs : t.find? id = some s) (hid : t.Under j id) :
    t'.occupied id.index = false := by
  refine Bool.eq_false_iff.mpr fun hocc => ?_
  obtain ⟨g, s', hs'⟩ := occupied_iff.mp hocc
  obtain ⟨hother, s₀, hs₀, _⟩ := h.find?_cases hs'
  have heq : ⟨id.index, g⟩ = id := eq_of_find? hs₀ hs rfl
  exact hother (heq.symm ▸ hid)

theorem Cleared.empties (h : t.Cleared t') (hc : t.Connected) (hs : t.find? id = some s)
    (hid : id ≠ root) :
    t'.occupied id.index = false := by
  refine Bool.eq_false_iff.mpr fun hocc => ?_
  obtain ⟨g, s', hs'⟩ := occupied_iff.mp hocc
  obtain ⟨heq, _⟩ := h.find? hs'
  obtain ⟨r, hr, _⟩ := hc.root
  have hindex : (ScopeId.mk id.index g).index = root.index := congrArg ScopeId.index heq
  exact hid (eq_of_find? hs hr hindex)

theorem Edit.Releases.empties (h : e.Releases t id) (ht : t.Stocked) (hc : t.Connected)
    (hs : t.find? id = some s) : e.empties t id.index = true := by
  have hocc : t.occupied id.index = true := occupied_iff.mpr ⟨id.generation, s, hs⟩
  cases e with
  | destroy top =>
    obtain ⟨hroot, htop, hunder⟩ := h
    obtain ⟨top', htop⟩ := contains_iff.mp htop
    obtain ⟨t', hok, hpruned⟩ := destroy_pruned ht hc htop hroot
    have happly : (Edit.destroy top).apply t = .ok (.done, t') := by rw [Edit.apply, hok]; rfl
    rw [Edit.empties, Edit.perform_eq ht hc, happly, hocc]
    simp [settle, hpruned.empties hs hunder]
  | teardown =>
    obtain ⟨t', hok, hcleared⟩ := teardown_cleared ht hc
    have happly : Edit.teardown.apply t = .ok (.done, t') := by rw [Edit.apply, hok]; rfl
    rw [Edit.empties, Edit.perform_eq ht hc, happly, hocc]
    simp [settle, hcleared.empties hc hs h]
  | _ => exact h.elim

/-- Nothing can be done with the handle, and no new scope gets it. -/
structure Dead (t : ScopeTree) (id : ScopeId) : Prop where
  contains : t.contains id = false
  get : t.get id = .error (.invalidHandle .scope)
  create : ∀ kind, t.create id kind = .error (.invalidHandle .scope)
  destroy : t.destroy id = .error (.invalidHandle .scope)
  declare : ∀ name value, t.declare? id name value = .error (.invalidHandle .scope)
  resolve : ∀ name, t.resolve id name = .error (.invalidHandle .scope)
  lookup : ∀ name, t.lookup id name = .error (.invalidHandle .scope)
  assign : ∀ name value, t.assign? id name value = .error (.invalidHandle .scope)
  setKind : ∀ kind, t.setKind id kind = .error (.invalidHandle .scope)
  copyBindings : ∀ j, t.copyBindings id j = .error (.invalidHandle .scope) ∧
    t.copyBindings j id = .error (.invalidHandle .scope)
  writeBack : ∀ j, t.writeBack id j = .error (.invalidHandle .scope) ∧
    t.writeBack j id = .error (.invalidHandle .scope)
  unreturned : ∀ parent kind t', t.create parent kind ≠ .ok (id, t')

/-- A handle whose generation is not that of its slot is dead. -/
theorem dead_of_generation (ht : t.Stocked) (hc : t.Connected)
    (h : t.generationAt id.index ≠ id.generation) :
    t.Dead id := by
  have hnone : t.find? id = none := by
    cases hs : t.find? id with
    | none => rfl
    | some s => exact absurd (generationAt_of_find? hs) h
  have hroot : id ≠ root := by
    rintro rfl
    obtain ⟨r, hr, _⟩ := hc.root
    exact h (generationAt_of_find? hr)
  refine ⟨contains_dead hnone, get_dead hnone, create_dead hnone, destroy_dead hnone hroot,
    declare?_dead hnone, resolve_dead hc hnone, lookup_dead hc hnone, assign?_dead hc hnone,
    fun kind => modify_dead hnone _,
    fun j => ⟨copyBindings_dead (.inl hnone), copyBindings_dead (.inr hnone)⟩,
    fun j => ⟨writeBack_dead (.inl hnone), writeBack_dead (.inr hnone)⟩,
    fun parent kind t' hok => ?_⟩
  cases hp : t.find? parent with
  | none => cases (create_dead hp kind).symm.trans hok
  | some p =>
    rcases create_cases ht hp kind with ⟨id', t₁, hok', hcreated⟩ | ⟨hno, _⟩
    · cases hok'.symm.trans hok
      -- the handle would have the generation of its slot
      exact h ((hcreated.generation _).symm.trans (generationAt_of_find? hcreated.find?_self))
    · cases hno.symm.trans hok

theorem add_ofNat_ne (g : UInt32) {n : Nat} (hpos : 0 < n) (hlt : n < UInt32.size) :
    g + UInt32.ofNat n ≠ g := by
  intro h
  have hzero : UInt32.ofNat n = 0 := by simpa using h
  have hnat := congrArg UInt32.toNat hzero
  rw [UInt32.toNat_ofNat_of_lt' hlt] at hnat
  exact absurd hnat (Nat.ne_of_gt hpos)

/-- Once a scope has been given up, by itself, with a scope above it, or with the whole tree, its
handle is dead in every later state, until its slot has been given up as often as there are
generations. -/
theorem released_handle_stays_dead (before later : List Edit) (e : Edit) (id : ScopeId)
    (hlive : (new.after before).contains id = true) (hreleased : e.Releases (new.after before) id)
    (hfew : (new.after before).releases id.index (e :: later) < UInt32.size) :
    ((new.after before).after (e :: later)).Dead id := by
  obtain ⟨ht, hc⟩ := after_keeps new_stocked new_connected before
  obtain ⟨s, hs⟩ := contains_iff.mp hlive
  obtain ⟨ht', hc'⟩ := after_keeps ht hc (e :: later)
  have hpos : 0 < (new.after before).releases id.index (e :: later) := by
    rw [releases, hreleased.empties ht hc hs, if_pos rfl]
    omega
  apply dead_of_generation ht' hc'
  rw [generation_after ht hc, generationAt_of_find? hs]
  exact add_ofNat_ne id.generation hpos hfew

/-- A block in a block is given up with the outer one.  Both slots are in use again later, and are
cleared again. -/
theorem released_handle_stays_dead_inner :
    let before := [.create root .block, .create ⟨1, 0⟩ (.loop 3)]
    let later := [.create root .block, .create root .procedure, .teardown, .create root .block]
    (new.after before).contains ⟨2, 0⟩ = true ∧
    Edit.Releases (new.after before) ⟨2, 0⟩ (.destroy ⟨1, 0⟩) ∧
      (new.after before).releases 2 (.destroy ⟨1, 0⟩ :: later) = 2 ∧
      ((new.after before).after (.destroy ⟨1, 0⟩ :: later)).Dead ⟨2, 0⟩ := by
  have hreleased : Edit.Releases (new.after [.create root .block, .create ⟨1, 0⟩ (.loop 3)]) ⟨2, 0⟩
      (.destroy ⟨1, 0⟩) := by
    refine ⟨by decide, by decide, .single ?_⟩
    decide
  refine ⟨by decide, hreleased, by decide, ?_⟩
  exact released_handle_stays_dead _ _ _ _ (by decide) hreleased (by decide)

end ScopeTree
end Replay
