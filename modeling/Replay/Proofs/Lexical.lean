import Replay.Proofs.Arena.Subtree
import Replay.Proofs.Parts.Rules
import Replay.Proofs.Reachable
/-!
What a piece of a script can change.

From the scope that is current a script gets at the scopes around it, and at the scopes of the
procedures that it finds in variables there; that is all it gets at.  The other scopes keep their
values, and no scope but the current one gets a name.
-/

namespace Replay

open Exec

namespace Bindings

variable {b b' : Bindings} {name : String} {value : Option Value}

theorem names_set (b : Bindings) (name : String) (value : Option Value) :
    (b.set name value).names = b.names := by
  rw [set, names, names, List.map_map]
  refine List.map_congr_left fun x _ => ?_
  rw [Function.comp_apply]
  split <;> rfl

theorem names_updateFrom (b source : Bindings) : (b.updateFrom source).names = b.names := by
  rw [updateFrom, names, names, List.map_map]
  refine List.map_congr_left fun x _ => ?_
  rw [Function.comp_apply]
  split <;> rfl

theorem names_declare? (h : b.declare? name value = some b') : b.names <+: b'.names := by
  rw [declare?] at h
  split at h <;> cases h
  exact ⟨[name], by rw [names, names, List.map_append]; rfl⟩

end Bindings

namespace ScopeTree

/-! ## Getting at scopes -/

/-- The scopes that are got at from some scopes through parents and through procedures that
variables hold. -/
inductive Reach (t : ScopeTree) (start : ScopeId → Prop) : ScopeId → Prop where
  | start {id : ScopeId} : start id → t.contains id = true → Reach t start id
  | parent {id parent : ScopeId} {s : Scope} :
    Reach t start id → t.find? id = some s → s.parent = some parent → Reach t start parent
  | procedure {id : ScopeId} {s : Scope} {b : Binding} {p : Procedure} :
    Reach t start id → t.find? id = some s → b ∈ s.bindings.toList → b.value = some (.procedure p) →
    t.contains p.scope = true → Reach t start p.scope

/-- What has become of the scopes of `t`.  Only scopes in `gaining` may have more names than before,
and only scopes in `reach` may have other values. -/
def Spares (t : ScopeTree) (gaining reach : ScopeId → Prop) (t' : ScopeTree) : Prop :=
  ∀ id s, t.find? id = some s → ∃ s', t'.find? id = some s' ∧ s'.parent = s.parent ∧
    s.bindings.names <+: s'.bindings.names ∧ (¬ gaining id → s'.bindings.names = s.bindings.names) ∧
    (¬ reach id → s'.bindings = s.bindings)

end ScopeTree

/-! ## What a run may touch -/

/-- The scopes at the start of a run, and what may become of them. -/
structure Frame where
  start : ScopeTree
  gaining : ScopeId → Prop
  reach : ScopeId → Prop
  connected : start.Connected
  gaining_reach : ∀ id, gaining id → reach id

namespace Frame

variable {f : Frame} {t t' : ScopeTree} {id j parent : ScopeId} {s s' p : Scope}

/-- The scopes that were not there at the start. -/
def Fresh (f : Frame) (id : ScopeId) : Prop := f.start.contains id = false

/-- The scopes that may be touched: those in reach, and those made since the start. -/
def Open (f : Frame) (id : ScopeId) : Prop := f.start.contains id = true → f.reach id

def Local (f : Frame) (id : ScopeId) : Prop := f.gaining id ∨ f.Fresh id

theorem Fresh.open (h : f.Fresh id) : f.Open id := by
  intro hlive
  cases h.symm.trans hlive

theorem Local.open (h : f.Local id) : f.Open id := by
  rcases h with hgaining | hfresh
  · exact fun _ => f.gaining_reach id hgaining
  · exact hfresh.open

structure Fits (f : Frame) (t : ScopeTree) : Prop where
  stocked : t.Stocked
  connected : t.Connected
  spares : f.start.Spares f.gaining f.reach t
  values : ∀ {id s}, t.find? id = some s → f.Open id → s.bindings.All (Value.Within f.Open)
  parents : ∀ {id s parent}, t.find? id = some s → f.Open id → s.parent = some parent →
    f.Open parent

open ScopeTree

/-- At the start nothing but what is in reach can be got at. -/
theorem fits_start {start : ScopeId → Prop} (h : f.reach = f.start.Reach start)
    (ht : f.start.Stocked) :
    f.Fits f.start where
  stocked := ht
  connected := f.connected
  spares _ s hs := ⟨s, hs, rfl, List.prefix_refl _, fun _ => rfl, fun _ => rfl⟩
  values {id s} hs hid := by
    intro b hb v hv
    have hreach := hid (contains_of_find? hs)
    cases v with
    | procedure p =>
      intro hlive
      rw [h] at hreach ⊢
      exact .procedure hreach hs hb hv hlive
    | _ => trivial
  parents hs hid hp _ := by
    have hreach := hid (contains_of_find? hs)
    rw [h] at hreach ⊢
    exact .parent hreach hs hp

namespace Fits

theorem fresh (h : f.Fits t) (hnone : t.find? id = none) : f.Fresh id := by
  cases hs : f.start.find? id with
  | none =>
    rw [Fresh, ScopeTree.contains, hs]
    rfl
  | some s =>
    obtain ⟨s', hs', _⟩ := h.spares id s hs
    exact absurd (hnone.symm.trans hs') (by simp)

/-! ## Changing a scope -/

/-- A scope that was there at the start is changed only if it is in reach, and gets names only if it
may. -/
theorem put (h : f.Fits t) (hs : t.find? id = some s) (hput : t.Put id s' t')
    (hp : s'.parent = s.parent) (hch : s'.children = s.children)
    (hnames : f.start.contains id = true →
      s.bindings.names <+: s'.bindings.names ∧
      (¬ f.gaining id → s'.bindings.names = s.bindings.names))
    (hkept : f.start.contains id = true → ¬ f.reach id → s'.bindings = s.bindings)
    (hvalues : f.Open id → s'.bindings.All (Value.Within (f.Open))) : f.Fits t' where
  stocked := hput.stocked hs h.stocked
  connected := h.connected.of_links (hput.links hs hp hch)
  spares j s₀ hs₀ := by
    obtain ⟨sj, hsj, hpar, hprefix, hsame, hvals⟩ := h.spares j s₀ hs₀
    by_cases hj : j = id
    · subst hj
      cases hs.symm.trans hsj
      have hlive := contains_of_find? hs₀
      obtain ⟨hprefix', hsame'⟩ := hnames hlive
      refine ⟨s', by rw [hput.find?, if_pos rfl], hp.trans hpar, hprefix.trans hprefix', ?_, ?_⟩
      · exact fun hne => (hsame' hne).trans (hsame hne)
      · exact fun hout => (hkept hlive hout).trans (hvals hout)
    · exact ⟨sj, by rw [hput.find?, if_neg hj, hsj], hpar, hprefix, hsame, hvals⟩
  values {j sj} hsj hj := by
    rw [hput.find?] at hsj
    split at hsj
    · rename_i heq
      cases hsj
      exact hvalues (heq ▸ hj)
    · exact h.values hsj hj
  parents {j sj q} hsj hj hq := by
    rw [hput.find?] at hsj
    split at hsj
    · rename_i heq
      cases hsj
      subst heq
      exact h.parents hs hj (hp.symm.trans hq)
    · exact h.parents hsj hj hq

/-! ## Making and giving up scopes -/

theorem created {kind : ScopeKind} (h : f.Fits t) (hp : t.find? parent = some p)
    (hparent : f.Open parent) (hc : t.Created parent p kind id t') : f.Fits t' where
  stocked := hc.stocked
  connected := hc.connected hp h.connected
  spares j s₀ hs₀ := by
    obtain ⟨sj, hsj, hpar, hprefix, hsame, hvals⟩ := h.spares j s₀ hs₀
    obtain ⟨s', hs', hpar', hbindings, _⟩ := hc.exists_of_find? hp hsj
    rw [← hbindings] at hprefix hsame hvals
    exact ⟨s', hs', hpar'.trans hpar, hprefix, hsame, hvals⟩
  values {j sj} hsj hj := by
    by_cases hid : j = id
    · subst hid
      cases hc.find?_self.symm.trans hsj
      exact Bindings.All.empty
    · obtain ⟨s₀, hs₀, _, hbindings, _⟩ := hc.find?_old hp hsj hid
      rw [hbindings]
      exact h.values hs₀ hj
  parents {j sj q} hsj hj hq := by
    by_cases hid : j = id
    · subst hid
      cases hc.find?_self.symm.trans hsj
      cases hq
      exact hparent
    · obtain ⟨s₀, hs₀, hpar, _⟩ := hc.find?_old hp hsj hid
      exact h.parents hs₀ hj (hpar.symm.trans hq)

/-- What was there at the start is not below a scope that was made since then. -/
theorem not_under (h : f.Fits t) (hid : f.Fresh id)
    (hj : f.start.contains j = true) : ¬ t.Under id j := by
  intro hunder
  induction hunder with
  | refl => cases hid.symm.trans hj
  | @tail q j _ hq ih =>
    obtain ⟨s, hs, hpar⟩ := h.connected.parent_of_mem hq
    obtain ⟨s₀, hs₀⟩ := contains_iff.mp hj
    obtain ⟨s', hs', hpar', _⟩ := h.spares j s₀ hs₀
    cases hs.symm.trans hs'
    exact ih (f.connected.contains_parent hs₀ (hpar'.symm.trans hpar))

theorem destroyed (h : f.Fits t) (hid : f.Fresh id)
    (hok : t.destroy id = .ok t') : f.Fits t' := by
  have hroot : id ≠ root := by
    rintro rfl
    cases hid.symm.trans f.connected.contains_root
  cases hs : t.find? id with
  | none => cases (destroy_dead hs hroot).symm.trans hok
  | some s =>
    obtain ⟨t₁, hok₁, hpruned⟩ := destroy_pruned h.stocked h.connected hs hroot
    cases hok₁.symm.trans hok
    refine ⟨hpruned.stocked, hpruned.connected h.connected hroot, fun j s₀ hs₀ => ?_,
      fun {j sj} hsj hj => ?_, fun {j sj q} hsj hj hq => ?_⟩
    · obtain ⟨sj, hsj, hrest⟩ := h.spares j s₀ hs₀
      exact ⟨_, hpruned.exists_of_find? (h.not_under hid (contains_of_find? hs₀)) hsj, hrest⟩
    · obtain ⟨_, s₁, hs₁, rfl⟩ := hpruned.find?_cases hsj
      show s₁.bindings.All _
      exact h.values hs₁ hj
    · obtain ⟨_, s₁, hs₁, rfl⟩ := hpruned.find?_cases hsj
      exact h.parents hs₁ hj hq

/-! ## Names -/

/-- A name is found in a scope that may be touched. -/
theorem resolveWithin_open (h : f.Fits t) {name : String} {steps : Nat} {owner : ScopeId}
    (hid : f.Open id) (hok : t.resolveWithin name steps id = .ok (some owner)) :
    f.Open owner ∧ ∃ s, t.find? owner = some s := by
  induction steps generalizing id with
  | zero => cases hok
  | succ steps ih =>
    cases hs : t.find? id with
    | none =>
      rw [resolveWithin, get_dead hs] at hok
      cases hok
    | some s =>
      simp only [resolveWithin, get_of_find? hs, bind, Except.bind, pure, Except.pure] at hok
      split at hok
      · cases hok
        exact ⟨hid, s, hs⟩
      · cases hpar : s.parent with
        | none =>
          rw [hpar] at hok
          cases hok
        | some q =>
          rw [hpar] at hok
          exact ih (h.parents hs hid hpar) hok

variable {name : String}

theorem lookup_open (h : f.Fits t) {b : Binding} {v : Value} (hid : f.Open id)
    (hok : t.lookup id name = .ok (some b)) (hv : b.value = some v) : v.Within (f.Open) := by
  cases hr : t.resolve id name with
  | error e =>
    rw [ScopeTree.lookup, hr] at hok
    cases hok
  | ok found =>
    cases found with
    | none => cases (lookup_of_resolve_none hr).symm.trans hok
    | some owner =>
      obtain ⟨howner, s, hs⟩ := h.resolveWithin_open hid hr
      have hb : s.bindings.find? name = some b :=
        Except.ok.inj ((lookup_of_resolve_some hr hs).symm.trans hok)
      exact (h.values hs howner).find? hb hv

theorem assigned (h : f.Fits t) {v : Value} (hid : f.Open id)
    (hv : v.Within (f.Open)) (hok : t.assign? id name (some v) = .ok (some t')) :
    f.Fits t' := by
  cases hr : t.resolve id name with
  | error e =>
    rw [assign?, hr] at hok
    cases hok
  | ok found =>
    cases found with
    | none => cases (assign?_of_resolve_none _ hr).symm.trans hok
    | some owner =>
      obtain ⟨howner, s, hs⟩ := h.resolveWithin_open hid hr
      obtain ⟨t₁, hok₁, hput⟩ := assign?_of_resolve_some (some v) hr hs
      cases hok₁.symm.trans hok
      refine h.put hs hput rfl rfl (fun _ => ?_)
        (fun hlive hout => absurd (howner hlive) hout) fun _ => ?_
      · rw [Bindings.names_set]
        exact ⟨List.prefix_refl _, fun _ => rfl⟩
      · refine (h.values hs howner).set fun v' hv' => ?_
        cases hv'
        exact hv

theorem declared (h : f.Fits t) {value : Option Value} (hid : f.Local id)
    (hv : ∀ v, value = some v → v.Within (f.Open))
    (hok : t.declare? id name value = .ok (some t')) : f.Fits t' := by
  cases hs : t.find? id with
  | none => cases (declare?_dead hs name value).symm.trans hok
  | some s =>
    rcases declare?_cases hs name value with hno | ⟨bindings, t₁, hok₁, hb, hput⟩
    · cases hno.symm.trans hok
    · cases hok₁.symm.trans hok
      refine h.put hs hput rfl rfl (fun hlive => ⟨Bindings.names_declare? hb, fun hne => ?_⟩)
        (fun hlive hout => absurd (hid.open hlive) hout) fun _ =>
        (h.values hs hid.open).declare? hv hb
      rcases hid with hgains | hfresh
      · exact absurd hgains hne
      · cases hfresh.symm.trans hlive

theorem kindSet (h : f.Fits t) {kind : ScopeKind} (hok : t.setKind id kind = .ok t') :
    f.Fits t' := by
  obtain ⟨s, hs, hput⟩ := put_of_modify hok
  exact h.put hs hput rfl rfl (fun _ => ⟨List.prefix_refl _, fun _ => rfl⟩)
      (fun _ _ => rfl) fun hid =>
    show s.bindings.All _ from h.values hs hid

theorem copied (h : f.Fits t) {source into : ScopeId} (hsource : f.Open source)
    (hinto : f.Fresh into) (hok : t.copyBindings source into = .ok t') : f.Fits t' := by
  obtain ⟨s, i, hs, hi, hput⟩ := put_of_copyBindings hok
  refine h.put hi hput rfl rfl (fun hlive => ?_) (fun hlive => ?_) fun _ =>
    show s.bindings.All _ from h.values hs hsource
  · cases hinto.symm.trans hlive
  · cases hinto.symm.trans hlive

theorem writtenBack (h : f.Fits t) {source into : ScopeId} (hsource : f.Open source)
    (hinto : f.Open into) (hok : t.writeBack source into = .ok t') : f.Fits t' := by
  obtain ⟨s, i, hs, hi, hput⟩ := put_of_writeBack hok
  refine h.put hi hput rfl rfl (fun _ => ?_) (fun hlive hout => absurd (hinto hlive) hout)
    fun _ => (h.values hi hinto).updateFrom (h.values hs hsource)
  rw [Bindings.names_updateFrom]
  exact ⟨List.prefix_refl _, fun _ => rfl⟩

end Fits
end Frame

/-! ## Runs -/

/-- A state in the run, with a current scope such as `here` says. -/
structure Frame.Holds (f : Frame) (here : ScopeId → Prop) (m : Machine) : Prop where
  scopes : f.Fits m.scopes
  current : here m.current

theorem Frame.Holds.on {f : Frame} {here : ScopeId → Prop} (m : Machine) (c : Cursor)
    (h : f.Holds here m) :
    f.Holds here (m.on c) :=
  ⟨h.scopes, h.current⟩

theorem Frame.Holds.calls {f : Frame} {here : ScopeId → Prop} (m : Machine) (calls : CallStack)
    (h : f.Holds here m) :
    f.Holds here { m with calls } :=
  ⟨h.scopes, h.current⟩

namespace Exec.Keeps

open ScopeTree

variable {f : Frame} {here : ScopeId → Prop} {α : Type} {Q : α → Prop}

theorem changeScopes {g : ScopeTree → Except InternalError ScopeTree}
    (h : ∀ {t t'}, f.Fits t → g t = .ok t' → f.Fits t') :
    Keeps (f.Holds here) (fun _ => True) (changeScopes g) := by
  intro m hm
  unfold Exec.changeScopes
  split
  · rename_i t ht
    exact ⟨trivial, h hm.scopes ht, hm.current⟩
  · exact hm

/-! ### Names -/

theorem lookup (name : String) : Keeps (f.Holds f.Local)
    (fun found => ∀ b v, found = some b → b.value = some v → v.Within f.Open) (lookup name) := by
  intro m hm
  unfold Exec.lookup
  split
  · rename_i found hfound
    refine ⟨fun b v hb hv => ?_, hm⟩
    subst hb
    exact hm.scopes.lookup_open hm.current.open hfound hv
  · exact hm

theorem declare {value : Option Value} (name : String) (location : Location)
    (hv : ∀ v, value = some v → v.Within f.Open) :
    Keeps (f.Holds f.Local) (fun _ => True) (declare name value location) := by
  intro m hm
  unfold Exec.declare
  split
  · rename_i t ht
    exact ⟨trivial, hm.scopes.declared hm.current hv ht, hm.current⟩
  · exact hm
  · exact hm

theorem store {value : Value} (name : String) (location : Location) (hv : value.Within f.Open) :
    Keeps (f.Holds f.Local) (fun _ => True) (store name value location) := by
  intro m hm
  unfold Exec.store
  split
  · rename_i t ht
    exact ⟨trivial, hm.scopes.assigned hm.current.open hv ht, hm.current⟩
  · exact hm
  · exact hm

/-! ### Scopes -/

theorem createScope {parent : ScopeId} (hparent : f.Open parent) (kind : ScopeKind) :
    Keeps (f.Holds here) f.Fresh (createScope parent kind) := by
  intro m hm
  unfold Exec.createScope
  split
  · rename_i id t hok
    cases hp : m.scopes.find? parent with
    | none => cases (create_dead hp kind).symm.trans hok
    | some p =>
      rcases create_cases hm.scopes.stocked hp kind with ⟨id', t', hok', hc⟩ | ⟨hno, _⟩
      · cases hok'.symm.trans hok
        exact ⟨hm.scopes.fresh hc.fresh, hm.scopes.created hp hparent hc, hm.current⟩
      · cases hno.symm.trans hok
  · exact hm

theorem destroyScope {scope : ScopeId} (hscope : f.Fresh scope) :
    Keeps (f.Holds here) (fun _ => True) (destroyScope scope) :=
  changeScopes fun h hok => h.destroyed hscope hok

/-- Inside, the new scope is current; behind it, the one that was current before. -/
theorem inScope {scope : ScopeId} {body : Exec α} (hscope : f.Fresh scope)
    (h : Keeps (f.Holds f.Local) Q body) :
    Keeps (f.Holds here) Q (inScope scope body) := by
  intro m hm
  have hb := h { m with current := scope } ⟨hm.scopes, .inr hscope⟩
  unfold Exec.inScope
  dsimp only
  generalize body { m with current := scope } = o at hb
  cases o with
  | done a m₁ => exact ⟨hb.1, hb.2.scopes, hm.current⟩
  | fault e m₁ => exact ⟨hb.scopes, hm.current⟩
  | outOfFuel => trivial

theorem withChild {parent : ScopeId} {body : ScopeId → Exec α} (hparent : f.Open parent)
    (kind : ScopeKind) (h : ∀ scope, f.Fresh scope → Keeps (f.Holds here) Q (body scope)) :
    Keeps (f.Holds here) Q (withChild parent kind body) :=
  (createScope hparent kind).bind fun scope hscope =>
  (h scope hscope).ensuring (destroyScope hscope)

theorem leaveCall : Keeps (f.Holds here) (fun _ => True) Rules.leaveCall :=
  (popCall Frame.Holds.calls).bind fun _ _ => moveCursor Frame.Holds.on _

/-- The body of a procedure runs in a new child of the scope that the procedure was defined in.  The
scope of the caller does not come into it. -/
theorem procedureBody {procedure : Procedure} {body : Exec Signal} {P : Signal → Prop}
    (hp : f.Open procedure.scope) (h : Keeps (f.Holds f.Local) P body) :
    Keeps (f.Holds here) P (do
      let scope ← Exec.createScope procedure.scope .procedure
      Exec.ensuring (Exec.inScope scope body) (do
        Exec.destroyScope scope
        Rules.leaveCall)) :=
  (createScope hp .procedure).bind fun _ hscope =>
    (h.inScope hscope).ensuring ((destroyScope hscope).bind fun _ _ => leaveCall)

theorem calling {procedure : Procedure} {body : Exec Signal} {P : Signal → Prop}
    (hp : f.Open procedure.scope)
    (h : Keeps (f.Holds f.Local) P body) (arguments : List Value) (location : Location) :
    Keeps (f.Holds here) P (calling (fun _ => false) procedure arguments location body) := by
  refine bind (P := fun _ => True) (fun m hm => ⟨trivial, hm⟩) fun p _ => ?_
  refine (pushCall Frame.Holds.calls _ location).bind fun _ _ => ?_
  exact (moveCursor Frame.Holds.on _).bind fun _ _ => procedureBody hp h

end Exec.Keeps

def Frame.Keeps (f : Frame) {α : Type} (Q : α → Prop) (x : Watch → Exec α) : Prop :=
  (x fun _ => false).Keeps (f.Holds f.Local) Q

theorem Made.keeps {f : Frame} {r : Watch → Rules} (hr : Rules.Each f.Open r f.Keeps) {α : Type}
    {Q : α → Prop} {x : Watch → Exec α} (h : Made f.Open f.Fresh r Q x) : f.Keeps Q x := by
  induction h with
  | pure h => exact .pure h
  | fail e => exact fun _ hm => hm
  | imp _ h ih => exact ih.imp h
  | bind _ _ ihx ihf => exact Exec.Keeps.bind ihx ihf
  | loop _ _ hs ih => exact .loop ih _ hs
  | onCursor g => exact .onCursor Frame.Holds.on g
  | moveCursor g => exact .moveCursor Frame.Holds.on g
  | position => exact fun _ hm => ⟨trivial, hm⟩
  | currentScope => exact fun _ hm => ⟨hm.current.open, hm⟩
  | readScopes g => exact .readScopes g
  | lookup name => exact .lookup name
  | declare name location hv => exact .declare name location hv
  | store name location hv => exact .store name location hv
  | setKind kind _ => exact .changeScopes fun h hok => h.kindSet hok
  | copyBindings hsource hinto => exact .changeScopes fun h hok => h.copied hsource hinto hok
  | writeBack hsource hinto => exact .changeScopes fun h hok => h.writtenBack hsource hinto hok
  | withChild kind hparent _ ih => exact .withChild hparent kind ih
  | inScope hscope _ ih => exact Exec.Keeps.inScope hscope ih
  | write text =>
    intro m hm
    unfold Exec.write
    dsimp only
    split
    · exact ⟨trivial, hm.scopes, hm.current⟩
    · exact ⟨hm.scopes, hm.current⟩
  | watched _ ih => exact ih
  | calling arguments location hp _ ih => exact Exec.Keeps.calling hp ih arguments location
  | statement mode => exact hr.statement mode
  | assignment mode => exact hr.assignment mode
  | conditional mode => exact hr.conditional mode
  | binary least mode => exact hr.binary least mode
  | call name location mode => exact hr.call name location mode

theorem Rules.posted_keeps (f : Frame) (fuel : Nat) :
    Rules.Each f.Open (fun w => posted w fuel) f.Keeps :=
  posted_each (fun _ h => h.open) (fun Q => Exec.Keeps.outOfFuel Q)
    (fun hr _ _ _ h => h.keeps hr) fuel

/-! ## Statements, expressions and calls -/

inductive Rules.Piece (r : Rules) (mode : Mode) : {α : Type} → Exec α → Prop where
  | statement : Piece r mode (r.statement mode)
  | expression : Piece r mode (r.expression mode)
  | assignment : Piece r mode (r.assignment mode)
  | conditional : Piece r mode (r.conditional mode)
  | binary (least : Precedence) : Piece r mode (r.binary least mode)
  | call (name : String) (location : Location) : Piece r mode (r.call name location mode)

theorem Rules.Piece.keeps (f : Frame) {fuel : Nat} {mode : Mode} {α : Type} {x : Exec α}
    (h : (Rules.within fuel).Piece mode x) : ∃ Q, x.Keeps (f.Holds f.Local) Q := by
  have hr := Rules.posted_keeps f fuel
  rw [← Rules.posted_quiet] at h
  cases h with
  | statement => exact ⟨_, hr.statement mode⟩
  | expression => exact ⟨_, (Made.expression (fun w => Rules.posted_fuel w fuel) mode).keeps hr⟩
  | assignment => exact ⟨_, hr.assignment mode⟩
  | conditional => exact ⟨_, hr.conditional mode⟩
  | binary least => exact ⟨_, hr.binary least mode⟩
  | call name location => exact ⟨_, hr.call name location mode⟩

variable {m m' : Machine}

def Machine.Sound.frame (hm : m.Sound) : Frame where
  start := m.scopes
  gaining := (· = m.current)
  reach := m.scopes.Reach (· = m.current)
  connected := hm.connected
  gaining_reach _ h := .start h (h ▸ hm.current)

theorem Machine.Sound.spares (hm : m.Sound) {fuel : Nat} {mode : Mode} {α : Type} {x : Exec α}
    (h : (Rules.within fuel).Piece mode x) (hx : x.Leaves m m') :
    m.scopes.Spares (· = m.current) (m.scopes.Reach (· = m.current)) m'.scopes := by
  obtain ⟨Q, hkeeps⟩ := h.keeps hm.frame
  have hstart : hm.frame.Holds hm.frame.Local m := ⟨hm.frame.fits_start rfl hm.stocked, .inl rfl⟩
  exact (hkeeps.leaves hstart hx).scopes.spares

/-- What the body of a procedure gets at: the scope of the procedure, and what it is given. -/
def Procedure.Grants (p : Procedure) (arguments : List Value) (id : ScopeId) : Prop :=
  id = p.scope ∨ ∃ q, .procedure q ∈ arguments ∧ q.scope = id

theorem callBody_spares (hs : m.scopes.Stocked) (hc : m.scopes.Connected) {fuel : Nat}
    {p : Procedure} {call : Call} {location : Location} (htop : m.calls.top = .ok call)
    (hx : ((Rules.within fuel).callBody p location).Leaves m m') :
    m.scopes.Spares (fun _ => False) (m.scopes.Reach (p.Grants call.arguments)) m'.scopes := by
  let f : Frame :=
    ⟨m.scopes, fun _ => False, m.scopes.Reach (p.Grants call.arguments), hc, fun _ h => h.elim⟩
  have hp : f.Open p.scope := fun hlive => .start (.inl rfl) hlive
  have harguments : ∀ v ∈ call.arguments, v.Within f.Open := by
    intro v hv
    cases v with
    | procedure q => exact fun hlive => .start (.inr ⟨q, hv, rfl⟩) hlive
    | _ => trivial
  have hbody := (Made.bodyWith (fun w => Rules.posted_fuel w fuel) harguments location).keeps
    (Rules.posted_keeps f fuel)
  rw [Frame.Keeps, Rules.posted_quiet] at hbody
  have hkeeps : Exec.Keeps (f.Holds fun _ => True) _ _ := Exec.Keeps.procedureBody hp hbody
  unfold Exec.Leaves at hx
  rw [Rules.callBody_eq htop] at hx
  exact (hkeeps.leaves ⟨f.fits_start rfl hs, trivial⟩ hx).scopes.spares

/-- Whatever a piece of a script does, and however it ends, the scopes that were there are still
there.  Only the current one may have got names, behind those it had, and only scopes that can be
got at from it may have other values.  The body of a procedure gets at the scope of the procedure
and at what it is given, not at its caller. -/
theorem lexical_frame {source : String} {maxDepth : Nat} {out : Sink}
    (h : Met source maxDepth out m) (fuel : Nat) :
    (∀ {mode α} {x : Exec α}, (Rules.within fuel).Piece mode x → ∀ {m'}, x.Leaves m m' →
      m.scopes.Spares (· = m.current) (m.scopes.Reach (· = m.current)) m'.scopes) ∧
    ∀ {name location p m₁ call m'},
      (expect .leftParen >>= fun _ => (Rules.within fuel).enterCall name location) m = .done p m₁ →
      m₁.calls.top = .ok call → ((Rules.within fuel).callBody p location).Leaves m₁ m' →
      m₁.scopes.Spares (fun _ => False) (m₁.scopes.Reach (p.Grants call.arguments)) m'.scopes := by
  refine ⟨fun {_ _ _} hpiece {_} hx => h.sound.spares hpiece hx,
    fun {name location p m₁ call m'} hx htop hbody => ?_⟩
  obtain ⟨_, m₂, hopen, henter⟩ := of_bind_done hx
  have htied : (Link.frame m (.bare m.cursor)).Tied 0 (fun _ => True) (expect .leftParen)
      (expect .leftParen) :=
    .expect _
  obtain ⟨c, rfl, hg, hc, _⟩ := htied.skim_done h.sound.inside hopen
  rcases (Rules.within_faithful (Nat.le_refl fuel)).enterCall_cases (h.sound.on hg.cache_le hc) name
    location with
    ⟨p', m₀, call', hrun, he⟩ | ⟨e, m', hrun, _⟩ | hrun
  · cases hrun.symm.trans henter
    have hs : (m₀.entered call' p.entry).scopes.Stocked := he.sound.stocked
    exact callBody_spares hs he.sound.connected htop hbody
  · cases hrun.symm.trans henter
  · cases hrun.symm.trans henter

/-- A procedure that changes a variable of the scope it was defined in. -/
theorem lexical_frame_assignment :
    ∃ n m' p m₁ call m₂, Session "var x = 1; procedure f(a) { x = a; } (2)" 1 .unlimited [] n ∧
      ((Rules.within 12).call "f" ⟨1, 1⟩ .execute).Leaves n m' ∧
      n.scopes.Spares (· = n.current) (n.scopes.Reach (· = n.current)) m'.scopes ∧
      (expect .leftParen >>= fun _ => (Rules.within 12).enterCall "f" ⟨1, 1⟩) n = .done p m₁ ∧
      m₁.calls.top = .ok call ∧ ((Rules.within 12).callBody p ⟨1, 1⟩).Leaves m₁ m₂ ∧
      m₁.scopes.Spares (fun _ => False) (m₁.scopes.Reach (p.Grants call.arguments)) m₂.scopes := by
  have hcalled : (((Request.step .execute).perform (Rules.within 12) >>= fun _ =>
      (Request.step .execute).perform (Rules.within 12) >>= fun _ =>
      (Rules.within 12).call "f" ⟨1, 1⟩ .execute)
        (Machine.start "var x = 1; procedure f(a) { x = a; } (2)" 1 .unlimited)).result? =
          some (.ok .noValue) := by decide +kernel
  have hbody : (((Request.step .execute).perform (Rules.within 12) >>= fun _ =>
      (Request.step .execute).perform (Rules.within 12) >>= fun _ =>
      (expect .leftParen >>= fun _ => (Rules.within 12).enterCall "f" ⟨1, 1⟩) >>= fun p =>
      topCall >>= fun _ => (Rules.within 12).callBody p ⟨1, 1⟩)
        (Machine.start "var x = 1; procedure f(a) { x = a; } (2)" 1 .unlimited)).result? =
          some (.ok .normal) := by decide +kernel
  obtain ⟨m', hcalled⟩ := Outcome.exists_of_result_ok hcalled
  obtain ⟨m₂, hbody⟩ := Outcome.exists_of_result_ok hbody
  obtain ⟨_, n₁, hvar, hcalled⟩ := of_bind_done hcalled
  obtain ⟨_, n, hprocedure, hcalled⟩ := of_bind_done hcalled
  rw [bind_done hvar, bind_done hprocedure] at hbody
  obtain ⟨p, m₁, henter, hrest⟩ := of_bind_done hbody
  obtain ⟨call, m₁', hcall, hran⟩ := of_bind_done hrest
  obtain ⟨htop, rfl⟩ : m₁.calls.top = .ok call ∧ m₁ = m₁' := by
    unfold topCall at hcall
    split at hcall <;> cases hcall
    exact ⟨by assumption, rfl⟩
  have hsession :=
    Session.done (.step .execute) 12 (Session.done (.step .execute) 12 .start hvar) hprocedure
  obtain ⟨hpieces, hbodies⟩ := lexical_frame hsession.met 12
  have hleaves : ((Rules.within 12).call "f" ⟨1, 1⟩ .execute).Leaves n m' := .inl ⟨_, hcalled⟩
  have hleaves' : ((Rules.within 12).callBody p ⟨1, 1⟩).Leaves m₁ m₂ := .inl ⟨_, hran⟩
  exact ⟨n, m', p, m₁, call, m₂, hsession, hleaves, hpieces (.call "f" ⟨1, 1⟩) hleaves, henter,
    htop, hleaves', hbodies henter htop hleaves'⟩

end Replay
