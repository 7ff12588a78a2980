import Replay.Proofs.Iteration.Watch
/-!
The variables of a `for` loop.

They are declared in a scope that lasts as long as the loop, and every iteration works on copies of
them, in a scope of its own below that one.  After the increment the values of the copies are taken
over.
-/

namespace Replay

open Exec
open ScopeTree (arenaFull maxSlots)

/-! ## Tables -/

namespace Machine

def table? (m : Machine) (id : ScopeId) : Option Bindings :=
  (m.scopes.find? id).map Scope.bindings

/-- The cursor and the current scope may be other ones, and so may the tables of some scopes.  The
rest is the same. -/
structure Same (but : ScopeId → Prop) (m m' : Machine) : Prop where
  tables : ∀ id, ¬but id → m'.table? id = m.table? id
  calls : m'.calls = m.calls
  out : m'.out = m.out

/-- No table has lost a name, and none but that of `scope` has got one. -/
def Grows (scope : ScopeId) (m m' : Machine) : Prop :=
  ∀ id b, m.table? id = some b →
    ∃ b', m'.table? id = some b' ∧ b.names <+: b'.names ∧ (id ≠ scope → b'.names = b.names)

end Machine

/-! ## Iterations -/

/-- An iteration begins at `entry`, in a new scope below `init` that has the same table. -/
structure Begins (init : ScopeId) (entry : Nat) (names : List String) (m : Machine)
    (scope : ScopeId) (m' : Machine) : Prop where
  fresh : m.table? scope = none
  parent : (m'.scopes.find? scope).map Scope.parent = some (some init)
  current : m'.current = scope
  position : m'.cursor.position = entry
  names : (m.table? init).map Bindings.names = some names
  table : m'.table? scope = m.table? init
  same : m.Same (· = scope) m'

structure PassesOver (r : Rules) (m m' : Machine) : Prop where
  skipped : Scans (r.forIncrement .skip) () m.cursor m'.cursor
  current : m'.current = m.current
  same : m.Same (fun _ => False) m'

structure Over (init scope : ScopeId) (m m' : Machine) : Prop where
  current : m'.current = init
  gone : m'.table? scope = none
  same : m.Same (· = scope) m'

/-- The iteration is over, and there will be another one.  The scope `init` has the same names as
before, with the values that they had in the scope of the iteration. -/
structure HandsOver (init scope : ScopeId) (m m' : Machine) : Prop where
  current : m'.current = init
  gone : m'.table? scope = none
  carried : ∃ before copies after, m.table? init = some before ∧ m.table? scope = some copies ∧
    m'.table? init = some after ∧ after.names = before.names ∧
    ∀ b ∈ after.toList, copies.find? b.name = some b
  same : m.Same (fun id => id = init ∨ id = scope) m'

/-- A part of the iteration has failed, and so has the loop. -/
inductive Breaks (init scope : ScopeId) {α : Type} : Outcome α → Outcome Signal → Prop where
  | fault {e : Error} {m m' : Machine} :
    Over init scope m m' → Breaks init scope (.fault e m) (.fault e m')
  | outOfFuel : Breaks init scope .outOfFuel .outOfFuel

/-- The loop ends without anything else being done.  Only the text that is left is read, and it may
be malformed. -/
inductive Closes (init scope : ScopeId) (m : Machine) (signal : Option Signal) :
    Outcome Signal → Prop where
  | done {s : Signal} {m' : Machine} :
    signal = some s → Over init scope m m' → Closes init scope m signal (.done s m')
  | fault {e : ParseError} {m' : Machine} :
    Over init scope m m' → Closes init scope m signal (.fault (.parse e) m')
  | outOfFuel : Closes init scope m signal .outOfFuel

inductive Ends (outer init : ScopeId) : Outcome Signal → Outcome Signal → Prop where
  | done {s : Signal} {m m' : Machine} :
    Over outer init m m' → Ends outer init (.done s m) (.done s m')
  | fault {e : Error} {m m' : Machine} :
    Over outer init m m' → Ends outer init (.fault e m) (.fault e m')
  | outOfFuel : Ends outer init .outOfFuel .outOfFuel

/-- The body of an iteration is about to be executed in the state `m'`.  The increment stands at
`increment`. -/
def Opens (r : Rules) (init : ScopeId) (entry : Nat) (names : List String) (m : Machine)
    (scope : ScopeId) (increment : Nat) (m' : Machine) : Prop :=
  ∃ m₁ m₂, Begins init entry names m scope m₁ ∧ r.forCondition .execute m₁ = .done true m₂ ∧
    m₂.cursor.position = increment ∧ PassesOver r m₂ m'

/-- How a loop goes on from the state `m`, with so many iterations at most.  The variables of the
loop are `names`. -/
inductive Carries (r : Rules) (init : ScopeId) (entry : Nat) (names : List String) :
    Nat → Machine → Outcome Signal → Prop where
  | bound {m : Machine} : Carries r init entry names 0 m .outOfFuel
  | full {n : Nat} {m m' : Machine} :
    m.scopes.slots.size = maxSlots → m.Same (fun _ => False) m' →
    Carries r init entry names (n + 1) m (.fault (.internal arenaFull) m')
  | condition {n : Nat} {m m₁ : Machine} {scope : ScopeId} {o : Outcome Signal} :
    Begins init entry names m scope m₁ → Breaks init scope (r.forCondition .execute m₁) o →
    Carries r init entry names (n + 1) m o
  | exit {n : Nat} {m m₁ m₂ : Machine} {scope : ScopeId} {o : Outcome Signal} :
    Begins init entry names m scope m₁ → r.forCondition .execute m₁ = .done false m₂ →
    Closes init scope m₂ (some .normal) o → Carries r init entry names (n + 1) m o
  | malformed {n : Nat} {m m₁ m₂ : Machine} {scope : ScopeId} {o : Outcome Signal} :
    Begins init entry names m scope m₁ → r.forCondition .execute m₁ = .done true m₂ →
    Closes init scope m₂ none o → Carries r init entry names (n + 1) m o
  | body {n increment : Nat} {m m₁ : Machine} {scope : ScopeId} {o : Outcome Signal} :
    Opens r init entry names m scope increment m₁ →
    Breaks init scope (r.bracedStatements .execute m₁) o →
    Carries r init entry names (n + 1) m o
  | broke {n increment : Nat} {m m₁ m₂ : Machine} {scope : ScopeId} {location : Location}
    {o : Outcome Signal} :
    Opens r init entry names m scope increment m₁ →
    r.bracedStatements .execute m₁ = .done (.broke location) m₂ →
    Closes init scope m₂ (some .normal) o → Carries r init entry names (n + 1) m o
  | returned {n increment : Nat} {m m₁ m₂ m' : Machine} {scope : ScopeId} {value : Option Value}
      {location : Location} :
    Opens r init entry names m scope increment m₁ →
    r.bracedStatements .execute m₁ = .done (.returned value location) m₂ → Over init scope m₂ m' →
    Carries r init entry names (n + 1) m (.done (.returned value location) m')
  | increment {n increment : Nat} {m m₁ m₂ : Machine} {scope : ScopeId} {signal : Signal}
    {o : Outcome Signal} :
    Opens r init entry names m scope increment m₁ →
    r.bracedStatements .execute m₁ = .done signal m₂ →
    (signal = .normal ∨ ∃ location, signal = .continued location) → m₂.current = scope →
    Breaks init scope (r.forIncrement .execute (m₂.on (m₂.cursor.place increment))) o →
    Carries r init entry names (n + 1) m o
  | again {n increment : Nat} {m m₁ m₂ m₃ m' : Machine} {scope : ScopeId} {signal : Signal}
    {o : Outcome Signal} :
    Opens r init entry names m scope increment m₁ →
    r.bracedStatements .execute m₁ = .done signal m₂ →
    (signal = .normal ∨ ∃ location, signal = .continued location) → m₂.current = scope →
    r.forIncrement .execute (m₂.on (m₂.cursor.place increment)) = .done () m₃ →
    HandsOver init scope m₃ m' →
    Carries r init entry names n m' o → Carries r init entry names (n + 1) m o

/-- A name that is declared in `source` too gets the value that it has there. -/
theorem Bindings.find?_of_mem_updateFrom {b source : Bindings} (h : b.names <+: source.names)
    {x : Binding} (hx : x ∈ (b.updateFrom source).toList) : source.find? x.name = some x := by
  obtain ⟨y, hy, rfl⟩ := List.mem_map.mp hx
  obtain ⟨z, hz, hname⟩ := List.mem_map.mp (h.subset (List.mem_map_of_mem hy))
  have hfound : (source.find? y.name).isSome = true :=
    List.find?_isSome.mpr ⟨z, hz, beq_iff_eq.mpr hname⟩
  obtain ⟨newer, hnewer⟩ := Option.isSome_iff_exists.mp hfound
  have hfind : source.toList.find? (fun z : Binding => z.name == y.name) = some newer := hnewer
  have hsame : newer.name = y.name := by simpa using List.find?_some hfind
  have hvalue : (⟨y.name, newer.value⟩ : Binding) = newer := by rw [← hsame]
  simp only [hnewer, hvalue, hsame]

/-! ## Tables that grow -/

namespace Machine

variable {m m₁ m₂ : Machine} {scope : ScopeId}

theorem Grows.trans (h : m.Grows scope m₁) (h' : m₁.Grows scope m₂) : m.Grows scope m₂ := by
  intro id b hb
  obtain ⟨b₁, hb₁, hprefix₁, hsame₁⟩ := h id b hb
  obtain ⟨b₂, hb₂, hprefix₂, hsame₂⟩ := h' id b₁ hb₁
  exact ⟨b₂, hb₂, hprefix₁.trans hprefix₂, fun hid => (hsame₂ hid).trans (hsame₁ hid)⟩

theorem Same.grows (h : m.Same (fun _ => False) m₁) : m.Grows scope m₁ :=
  fun id b hb => ⟨b, (h.tables id not_false).trans hb, List.prefix_refl _, fun _ => rfl⟩

theorem Same.on (m : Machine) (c : Cursor) : m.Same (fun _ => False) (m.on c) :=
  ⟨fun _ _ => rfl, rfl, rfl⟩

theorem Same.trans {but : ScopeId → Prop} (h : m.Same but m₁) (h' : m₁.Same but m₂) :
    m.Same but m₂ :=
  ⟨fun id hid => (h'.tables id hid).trans (h.tables id hid), h'.calls.trans h.calls,
    h'.out.trans h.out⟩

theorem Same.imp {but but' : ScopeId → Prop} (h : m.Same but m₁) (himp : ∀ id, but id → but' id) :
    m.Same but' m₁ :=
  ⟨fun id hid => h.tables id fun hbut => hid (himp id hbut), h.calls, h.out⟩

end Machine

/-- Only the current scope gets names, whatever is made of the rules. -/
theorem Machine.Sound.grows {m m' : Machine} (hm : m.Sound) {fuel : Nat} {α : Type}
    {x : Watch → Exec α}
    (h : ∀ f : Frame, ∃ Q, Made f.Open f.Fresh (fun w => Rules.posted w fuel) Q x)
    (hx : (x fun _ => false).Leaves m m') : m.Grows m.current m' := by
  obtain ⟨Q, hmade⟩ := h hm.frame
  have hkeeps : hm.frame.Keeps Q x := hmade.keeps (Rules.posted_keeps hm.frame fuel)
  have hstart : hm.frame.Holds hm.frame.Local m := ⟨hm.frame.fits_start rfl hm.stocked, .inl rfl⟩
  have hspares := (Exec.Keeps.leaves hkeeps hstart hx).scopes.spares
  intro id b hb
  obtain ⟨s, hs, rfl⟩ := Option.map_eq_some_iff.mp hb
  obtain ⟨s', hs', _, hprefix, hsame, _⟩ := hspares id s hs
  exact ⟨s'.bindings, by rw [Machine.table?, hs']; rfl, hprefix, hsame⟩

namespace Rules

variable {fuel : Nat} {m m' : Machine}

theorem forCondition_grows (hm : m.Sound) (hx : ((within fuel).forCondition .execute).Leaves m m') :
    m.Grows m.current m' := by
  rw [← posted_quiet] at hx
  exact hm.grows (fun f => ⟨_, Made.forCondition (fun w => posted_fuel w fuel) .execute⟩) hx

theorem bracedStatements_grows (hm : m.Sound)
    (hx : ((within fuel).bracedStatements .execute).Leaves m m') :
    m.Grows m.current m' := by
  rw [← posted_quiet] at hx
  exact hm.grows (fun f => ⟨_, Made.bracedStatements (fun w => posted_fuel w fuel) .execute⟩) hx

theorem forIncrement_grows (hm : m.Sound) (hx : ((within fuel).forIncrement .execute).Leaves m m') :
    m.Grows m.current m' := by
  rw [← posted_quiet] at hx
  exact hm.grows (fun f => ⟨_, Made.forIncrement (fun w => posted_fuel w fuel) .execute⟩) hx

end Rules

/-! ## The scope of an iteration -/

namespace Exec

variable {α : Type} {scope : ScopeId} {body : Exec α} {m m₁ : Machine}

theorem inScope_done {a : α} (h : body { m with current := scope } = .done a m₁) :
    inScope scope body m = .done a { m₁ with current := m.current } := by
  simp only [inScope, h]

theorem inScope_fault {e : Error} (h : body { m with current := scope } = .fault e m₁) :
    inScope scope body m = .fault e { m₁ with current := m.current } := by
  simp only [inScope, h]

theorem inScope_outOfFuel (h : body { m with current := scope } = .outOfFuel) :
    inScope scope body m = .outOfFuel := by
  simp only [inScope, h]

end Exec

/-- A new scope below `init`, and then with the table of `init`. -/
structure Started (init : ScopeId) (entry : Nat) (m : Machine) (scope : ScopeId) (p : Scope)
    (t t₁ : ScopeTree) :
    Prop where
  sound : m.Sound
  entry_le : entry ≤ m.cursor.cache.size
  current : m.current = init
  find : m.scopes.find? init = some p
  create : m.scopes.create init (.loop entry) = .ok (scope, t)
  created : m.scopes.Created init p (.loop entry) scope t
  copy : t.copyBindings init scope = .ok t₁
  copied : t.Put scope { Scope.fresh (some init) (.loop entry) with bindings := p.bindings } t₁

def Machine.inside (m : Machine) (entry : Nat) (scope : ScopeId) (t : ScopeTree) : Machine :=
  { m.on (m.cursor.place entry) with scopes := t, current := scope }

theorem started {init : ScopeId} {entry : Nat} {m : Machine} (hm : m.Sound)
    (hentry : entry ≤ m.cursor.cache.size) (hcurrent : m.current = init) :
    (∃ scope p t t₁, Started init entry m scope p t t₁) ∨
      (m.scopes.create init (.loop entry) = .error arenaFull ∧ m.scopes.slots.size = maxSlots) := by
  obtain ⟨p, hp⟩ : ∃ p, m.scopes.find? init = some p :=
    hcurrent ▸ ScopeTree.contains_iff.mp hm.current
  rcases ScopeTree.create_cases hm.stocked hp (.loop entry) with ⟨scope, t, hok, hc⟩ | ⟨hno, hfull⟩
  · left
    obtain ⟨p₁, hp₁, _, hbindings, _⟩ := hc.exists_of_find? hp hp
    obtain ⟨t₁, hcopy, hput⟩ := ScopeTree.copyBindings_put hp₁ hc.find?_self
    rw [hbindings] at hput
    exact ⟨scope, p, t, t₁, hm, hentry, hcurrent, hp, hok, hc, hcopy, hput⟩
  · exact .inr ⟨hno, hm.stocked.size_eq_of_live hfull⟩

/-- Giving up a scope without children does not touch the tables of others. -/
theorem ScopeTree.destroy_tables {t t' : ScopeTree} {id parent : ScopeId} {s p : Scope}
    (ht : t.Stocked) (hs : t.find? id = some s) (hroot : id ≠ root) (hch : s.children = [])
    (hpar : s.parent = some parent)
    (hp : t.find? parent = some p) (hne : parent ≠ id) (hok : t.destroy id = .ok t') :
    t'.find? id = none ∧
    ∀ j, j ≠ id → (t'.find? j).map Scope.bindings = (t.find? j).map Scope.bindings := by
  obtain ⟨t₁, hok₁, hd⟩ := destroy_leaf ht hs hroot hch hpar hp hne
  cases hok₁.symm.trans hok
  refine ⟨by rw [hd.find?, if_pos rfl], fun j hj => ?_⟩
  rw [hd.find?, if_neg hj]
  split
  · rename_i hparent
    rw [hparent, hp]
    rfl
  · rfl

/-- A scope that was made for something is given up afterwards, and all that was done elsewhere
stays. -/
theorem Machine.Sound.closed {m m₂ : Machine} {id : ScopeId} {p : Scope} {kind : ScopeKind}
    {t : ScopeTree} (hm : m.Sound) (hp : m.scopes.find? m.current = some p)
    (hc : m.scopes.Created m.current p kind id t)
    (hm₂ : m₂.Sound) (hk : Machine.Kept (some id) { m with scopes := t, current := id } m₂) :
    ∃ t', m₂.scopes.destroy id = .ok t' ∧ { m₂ with scopes := t', current := m.current }.Sound ∧
      m.Kept none { m₂ with scopes := t', current := m.current } ∧
      Over m.current id m₂ { m₂ with scopes := t', current := m.current } := by
  have hroot := hc.ne_root hm.connected
  have hkept : Machine.Kept (some id) { m with scopes := t } { m₂ with current := m.current } :=
    { hk with current := rfl }
  obtain ⟨s₂, hs₂, hparent, hchildren⟩ := ScopeTree.exists_of_links (hk.links id) hc.find?_self
  obtain ⟨p₁, hp₁, _⟩ := hc.exists_of_find? hp hp
  obtain ⟨p₂, hp₂, _⟩ := ScopeTree.exists_of_links (hk.links m.current) hp₁
  have hback : { m₂ with current := m.current }.Sound :=
    { hm₂ with current := ScopeTree.contains_of_find? hp₂ }
  obtain ⟨t', hok, _, hsound, hk'⟩ := Machine.destroy_created hm hp hc hback hkept
  obtain ⟨hgone, htables⟩ :=
    ScopeTree.destroy_tables hm₂.stocked hs₂ hroot hchildren hparent hp₂ (hc.ne_of_find? hp) hok
  refine ⟨t', hok, hsound, hk', rfl, ?_, fun id hid => htables id hid, rfl, rfl⟩
  show (t'.find? id).map Scope.bindings = none
  rw [hgone]
  rfl

namespace Started

variable {init scope : ScopeId} {entry : Nat} {m m₂ : Machine} {p : Scope} {t t₁ : ScopeTree}

theorem created_sound (h : Started init entry m scope p t t₁) : (m.inside entry scope t).Sound :=
  { Machine.created_sound (h.sound.placed h.entry_le) h.find h.created with
    current := ScopeTree.contains_of_find? h.created.find?_self }

theorem kept (h : Started init entry m scope p t t₁) :
    (m.inside entry scope t₁).Sound ∧
      Machine.Kept (some scope) (m.inside entry scope t) (m.inside entry scope t₁) := by
  have hfind : (m.inside entry scope t).scopes.find? scope =
      some (.fresh (some init) (.loop entry)) :=
    h.created.find?_self
  have hgood := h.sound.bindings h.find
  exact Machine.put_kept h.created_sound hfind h.copied rfl rfl (.inl rfl) hgood

theorem tables (h : Started init entry m scope p t t₁) {id : ScopeId} (hid : id ≠ scope) :
    (m.inside entry scope t₁).table? id = m.table? id := by
  show (t₁.find? id).map Scope.bindings = (m.scopes.find? id).map Scope.bindings
  rw [h.copied.find?, if_neg hid, h.created.find?, if_neg hid]
  split
  · rename_i hinit
    rw [hinit, h.find]
    rfl
  · rfl

theorem begins (h : Started init entry m scope p t t₁) :
    Begins init entry p.bindings.names m scope (m.inside entry scope t₁) where
  fresh := by rw [Machine.table?, h.created.fresh]; rfl
  parent := by
    show (t₁.find? scope).map Scope.parent = _
    rw [h.copied.find?, if_pos rfl]
    rfl
  current := rfl
  position := rfl
  names := by rw [Machine.table?, h.find]; rfl
  table := by
    show (t₁.find? scope).map Scope.bindings = (m.scopes.find? init).map Scope.bindings
    rw [h.copied.find?, if_pos rfl, h.find]
    rfl
  same := ⟨fun _ hid => h.tables hid, rfl, rfl⟩

/-- The scope can be given up after anything that happens in it. -/
theorem closed (h : Started init entry m scope p t t₁) (hm₂ : m₂.Sound)
    (hk : Machine.Kept (some scope) (m.inside entry scope t₁) m₂) :
    ∃ t', m₂.scopes.destroy scope = .ok t' ∧ { m₂ with scopes := t', current := init }.Sound ∧
      m.Kept none { m₂ with scopes := t', current := init } ∧
      Over init scope m₂ { m₂ with scopes := t', current := init } := by
  obtain rfl := h.current
  obtain ⟨t', hok, hsound, hkept, hover⟩ :=
    (h.sound.placed h.entry_le).closed h.find h.created hm₂ (h.kept.2.trans hk)
  exact ⟨t', hok, hsound, (Machine.Kept.placed entry).trans hkept, hover⟩

/-! ## What comes of a pass -/

variable {r : Rules}

theorem create_run (h : Started init entry m scope p t t₁) :
    createScope init (.loop entry) (m.on (m.cursor.place entry)) =
      .done scope { m.on (m.cursor.place entry) with scopes := t } := by
  simp only [createScope, Machine.on_scopes, h.create]

theorem copy_run (h : Started init entry m scope p t t₁) :
    changeScopes (fun t => t.copyBindings init scope)
        { m.on (m.cursor.place entry) with scopes := t } =
      .done () { m.on (m.cursor.place entry) with scopes := t₁ } := by
  simp only [changeScopes, h.copy]

theorem pass_outOfFuel (h : Started init entry m scope p t t₁)
    (ho : r.forPass scope (m.inside entry scope t₁) = .outOfFuel) :
    withChild init (.loop entry) (r.forCopyPass init) (m.on (m.cursor.place entry)) =
      .outOfFuel := by
  have hinner : inScope scope (r.forPass scope) { m.on (m.cursor.place entry) with scopes := t₁ } =
      .outOfFuel :=
    inScope_outOfFuel ho
  have hbody : r.forCopyPass init scope { m.on (m.cursor.place entry) with scopes := t } =
      .outOfFuel := by
    rw [Rules.forCopyPass, bind_done h.copy_run, bind_outOfFuel hinner]
  exact (bind_done h.create_run).trans (ensuring_outOfFuel hbody)

theorem pass_fault (h : Started init entry m scope p t t₁) {e : Error}
    (ho : r.forPass scope (m.inside entry scope t₁) = .fault e m₂) (hm₂ : m₂.Sound)
    (hk : Machine.Kept (some scope) (m.inside entry scope t₁) m₂) :
    ∃ m', withChild init (.loop entry) (r.forCopyPass init) (m.on (m.cursor.place entry)) =
      .fault e m' ∧
      Over init scope m₂ m' := by
  obtain ⟨t', hdestroy, _, _, hover⟩ := h.closed hm₂ hk
  have hinner : inScope scope (r.forPass scope) { m.on (m.cursor.place entry) with scopes := t₁ } =
      .fault e { m₂ with current := init } := by
    rw [inScope_fault ho]
    exact congrArg (fun current => Outcome.fault e { m₂ with current }) h.current
  have hbody : r.forCopyPass init scope { m.on (m.cursor.place entry) with scopes := t } =
      .fault e { m₂ with current := init } := by
    rw [Rules.forCopyPass, bind_done h.copy_run, bind_fault hinner]
  exact ⟨_, (bind_done h.create_run).trans (ensuring_fault hbody (destroyScope_done hdestroy)),
    hover⟩

theorem pass_done (h : Started init entry m scope p t t₁) {pass : Pass}
    (ho : r.forPass scope (m.inside entry scope t₁) = .done pass m₂) (hpass : pass ≠ .again)
    (hm₂ : m₂.Sound) (hk : Machine.Kept (some scope) (m.inside entry scope t₁) m₂) :
    ∃ m', withChild init (.loop entry) (r.forCopyPass init) (m.on (m.cursor.place entry)) =
      .done pass m' ∧
      m'.Sound ∧ m.Kept none m' ∧ Over init scope m₂ m' := by
  obtain ⟨t', hdestroy, hsound, hkept, hover⟩ := h.closed hm₂ hk
  have hinner : inScope scope (r.forPass scope) { m.on (m.cursor.place entry) with scopes := t₁ } =
      .done pass { m₂ with current := init } := by
    rw [inScope_done ho]
    exact congrArg (fun current => Outcome.done pass { m₂ with current }) h.current
  have hbody : r.forCopyPass init scope { m.on (m.cursor.place entry) with scopes := t } =
      .done pass { m₂ with current := init } := by
    rw [Rules.forCopyPass, bind_done h.copy_run, bind_done hinner]
    cases pass with
    | again => exact absurd rfl hpass
    | exit => rfl
    | leave signal => rfl
  exact ⟨_, (bind_done h.create_run).trans (ensuring_done hbody (destroyScope_done hdestroy)),
    hsound, hkept, hover⟩

/-- After another round was asked for, the values of the copies are those of the variables. -/
theorem pass_again (h : Started init entry m scope p t t₁)
    (ho : r.forPass scope (m.inside entry scope t₁) = .done .again m₂) (hm₂ : m₂.Sound)
    (hk : Machine.Kept (some scope) (m.inside entry scope t₁) m₂)
    (hgrows : (m.inside entry scope t₁).Grows scope m₂) :
    ∃ m', withChild init (.loop entry) (r.forCopyPass init) (m.on (m.cursor.place entry)) =
      .done .again m' ∧
      m'.Sound ∧ m.Kept none m' ∧ HandsOver init scope m₂ m' ∧
      (m'.table? init).map Bindings.names = some p.bindings.names := by
  have hne : init ≠ scope := h.created.ne_of_find? h.find
  have hinit : (m.inside entry scope t₁).table? init = some p.bindings := by
    rw [h.tables hne, Machine.table?, h.find]
    rfl
  have hscope : (m.inside entry scope t₁).table? scope = some p.bindings := by
    rw [h.begins.table, Machine.table?, h.find]
    rfl
  obtain ⟨before, hbefore, _, hnames⟩ := hgrows init _ hinit
  obtain ⟨copies, hcopies, hprefix, _⟩ := hgrows scope _ hscope
  obtain ⟨i, hi, rfl⟩ := Option.map_eq_some_iff.mp hbefore
  obtain ⟨c, hc, rfl⟩ := Option.map_eq_some_iff.mp hcopies
  obtain ⟨t₂, hback, hput⟩ := ScopeTree.writeBack_put hc hi
  have hgood := (hm₂.bindings hi).updateFrom (hm₂.bindings hc)
  obtain ⟨hsound₂, hk₂⟩ : _ ∧ Machine.Kept (some scope) m₂ _ :=
    Machine.put_kept hm₂ hi hput rfl rfl (.inl rfl) hgood
  obtain ⟨t', hdestroy, hsound, hkept, hover⟩ := h.closed hsound₂ (hk.trans hk₂)
  have hinner : inScope scope (r.forPass scope) { m.on (m.cursor.place entry) with scopes := t₁ } =
      .done .again { m₂ with current := init } := by
    rw [inScope_done ho]
    exact congrArg (fun current => Outcome.done Pass.again { m₂ with current }) h.current
  have hwrite : changeScopes (fun t => t.writeBack scope init) { m₂ with current := init } =
      .done () { m₂ with scopes := t₂, current := init } := by
    simp only [changeScopes, hback]
  have hbody : r.forCopyPass init scope { m.on (m.cursor.place entry) with scopes := t } =
      .done .again { m₂ with scopes := t₂, current := init } := by
    rw [Rules.forCopyPass, bind_done h.copy_run, bind_done hinner]
    exact bind_done hwrite
  have hafter : ({ m₂ with scopes := t', current := init } : Machine).table? init =
      some (i.bindings.updateFrom c.bindings) := by
    rw [hover.same.tables init hne]
    show (t₂.find? init).map Scope.bindings = _
    rw [hput.find?, if_pos rfl]
    rfl
  have hall : i.bindings.names = p.bindings.names := hnames hne
  refine ⟨_, (bind_done h.create_run).trans (ensuring_done hbody (destroyScope_done hdestroy)),
    hsound, hkept, ?_, ?_⟩
  · refine ⟨rfl, hover.gone,
      ⟨_, _, _, hbefore, hcopies, hafter, Bindings.names_updateFrom _ _, fun b hb => ?_⟩, ?_⟩
    · exact Bindings.find?_of_mem_updateFrom (hall ▸ hprefix) hb
    · refine ⟨fun id hid => ?_, rfl, rfl⟩
      rw [hover.same.tables id fun heq => hid (.inr heq)]
      show (t₂.find? id).map Scope.bindings = (m₂.scopes.find? id).map Scope.bindings
      rw [hput.find?, if_neg fun heq => hid (.inl heq)]
  · rw [hafter, Option.map_some, Bindings.names_updateFrom, hall]

end Started

/-! ## Turns of the loop -/

namespace Rules

variable {entry n : Nat} {skipRest : Exec Unit} {pass : Exec Pass} {m m' : Machine}

theorem passTurn_run (hentry : entry ≤ m.cursor.cache.size) :
    passTurn entry skipRest pass () m =
      (pass >>= settle entry skipRest) (m.on (m.cursor.place entry)) :=
  bind_done (seek_run hentry)

theorem passes_fault {e : Error} (hentry : entry ≤ m.cursor.cache.size)
    (h : pass (m.on (m.cursor.place entry)) = .fault e m') :
    loop (passTurn entry skipRest pass) (n + 1) () m = .fault e m' := by
  simp only [loop, passTurn_run hentry, bind_fault h]

theorem passes_outOfFuel (hentry : entry ≤ m.cursor.cache.size)
    (h : pass (m.on (m.cursor.place entry)) = .outOfFuel) :
    loop (passTurn entry skipRest pass) (n + 1) () m = .outOfFuel := by
  simp only [loop, passTurn_run hentry, bind_outOfFuel h]

theorem passes_again (hentry : entry ≤ m.cursor.cache.size)
    (h : pass (m.on (m.cursor.place entry)) = .done .again m') :
    loop (passTurn entry skipRest pass) (n + 1) () m =
      loop (passTurn entry skipRest pass) n () m' := by
  have hturn : passTurn entry skipRest pass () m = .done (.again ()) m' := by
    rw [passTurn_run hentry, bind_done h]
    rfl
  simp only [loop, hturn]

theorem passes_stop {last : Pass} {signal : Signal} (hentry : entry ≤ m.cursor.cache.size)
    (h : pass (m.on (m.cursor.place entry)) = .done last m')
    (hsettle : settle entry skipRest last m' = .done (.stop signal) m') :
    loop (passTurn entry skipRest pass) (n + 1) () m = .done signal m' := by
  have hturn : passTurn entry skipRest pass () m = .done (.stop signal) m' := by
    rw [passTurn_run hentry, bind_done h, hsettle]
  simp only [loop, hturn]

/-- After a `break` the loop is skipped once. -/
theorem passes_broke {location : Location} (hentry : entry ≤ m.cursor.cache.size)
    (h : pass (m.on (m.cursor.place entry)) = .done (.leave (.broke location)) m')
    (hentry' : entry ≤ m'.cursor.cache.size) :
    loop (passTurn entry skipRest pass) (n + 1) () m =
      (skipRest >>= fun _ => Pure.pure .normal) (m'.on (m'.cursor.place entry)) := by
  have hturn : passTurn entry skipRest pass () m =
      (skipRest >>= fun _ => Pure.pure (.stop .normal)) (m'.on (m'.cursor.place entry)) := by
    rw [passTurn_run hentry, bind_done h]
    exact bind_done (seek_run hentry')
  cases hskip : skipRest (m'.on (m'.cursor.place entry)) with
  | done u m₁ =>
    rw [bind_done hskip] at hturn ⊢
    simp only [loop, hturn]
    rfl
  | fault e m₁ =>
    rw [bind_fault hskip] at hturn ⊢
    simp only [loop, hturn]
  | outOfFuel =>
    rw [bind_outOfFuel hskip] at hturn ⊢
    simp only [loop, hturn]

/-! ## Inside an iteration -/

/-- The position of the increment is kept in the scope, where no name is touched. -/
theorem mark_run {scope : ScopeId} (hm : m.Sound) (hscope : m.scopes.contains scope = true) :
    ∃ t, changeScopes (fun t => t.setKind scope (.loop m.cursor.position)) m =
      .done () { m with scopes := t } ∧
      { m with scopes := t }.Sound ∧ m.Kept (some scope) { m with scopes := t } ∧
      m.Same (fun _ => False) { m with scopes := t } ∧
      t.kindOf scope = some (.loop m.cursor.position) := by
  obtain ⟨s, hs⟩ := ScopeTree.contains_iff.mp hscope
  obtain ⟨t, hok, hput⟩ :=
    ScopeTree.modify_put hs fun s => { s with kind := .loop m.cursor.position }
  have hgood := hm.bindings hs
  obtain ⟨hsound, hk⟩ : _ ∧ m.Kept (some scope) _ :=
    Machine.put_kept hm hs hput rfl rfl (.inr rfl) hgood
  have hrun : changeScopes (fun t => t.setKind scope (.loop m.cursor.position)) m =
      .done () { m with scopes := t } := by
    simp only [changeScopes, ScopeTree.setKind, hok]
  refine ⟨t, hrun, hsound, hk, ⟨fun id _ => ?_, rfl, rfl⟩, ?_⟩
  · show (t.find? id).map Scope.bindings = (m.scopes.find? id).map Scope.bindings
    rw [hput.find?]
    split
    · rename_i hid
      rw [hid, hs]
      rfl
    · rfl
  · rw [ScopeTree.kindOf, hput.find?, if_pos rfl]
    rfl

theorem forAdvance_run {r : Rules} {scope : ScopeId} {p : Nat}
    (hkind : m.scopes.kindOf scope = some (.loop p)) (hp : p ≤ m.cursor.cache.size) :
    r.forAdvance scope m =
      (r.forIncrement .execute >>= fun _ => Pure.pure .again) (m.on (m.cursor.place p)) := by
  rw [forAdvance, bind_done (resumePosition_run hkind rfl), bind_done (seek_run hp)]

def afterBody (r : Rules) (scope : ScopeId) : Signal → Exec Pass
  | .normal | .continued _ => r.forAdvance scope
  | signal => Pure.pure (.leave signal)

end Rules

namespace Over

variable {init scope : ScopeId} {m m₁ m' : Machine}

/-- Reading on changes nothing. -/
theorem on (h : Over init scope m m') (c : Cursor) : Over init scope m (m'.on c) :=
  ⟨h.current, h.gone, h.same.tables, h.same.calls, h.same.out⟩

theorem of_same (hsame : m.Same (fun _ => False) m₁) (h : Over init scope m₁ m') :
    Over init scope m m' :=
  ⟨h.current, h.gone, (hsame.imp fun _ hfalse => hfalse.elim).trans h.same⟩

end Over

structure Marked (scope : ScopeId) (m₁ m₂ m' : Machine) : Prop where
  sound : m'.Sound
  kept : m₁.Kept (some scope) m'
  grows : m₁.Grows scope m'
  same : m₂.Same (fun _ => False) m'
  cursor : m'.cursor = m₂.cursor
  current : m'.current = m₂.current
  current_eq : m₂.current = scope
  kind : m'.scopes.kindOf scope = some (.loop m₂.cursor.position)

namespace Started

variable {init scope : ScopeId} {entry fuel n : Nat} {m m₂ m₂' : Machine} {p : Scope}
  {t t₁ : ScopeTree}

abbrev passesFrom (fuel : Nat) (init : ScopeId) (entry n : Nat) : Exec Signal :=
  loop (Rules.passTurn entry (Rules.within fuel).skipForRest
    (withChild init (.loop entry) ((Rules.within fuel).forCopyPass init))) n ()

theorem condition (h : Started init entry m scope p t t₁)
    (hfails : ∀ holds m₂,
      (Rules.within fuel).forCondition .execute (m.inside entry scope t₁) ≠ .done holds m₂) :
    Carries (Rules.within fuel) init entry p.bindings.names (n + 1) m
      (passesFrom fuel init entry (n + 1) m) := by
  have hr := Rules.within_faithful (Nat.le_refl fuel)
  refine .condition h.begins ?_
  cases hcond : (Rules.within fuel).forCondition .execute (m.inside entry scope t₁) with
  | done holds m₂ => exact absurd hcond (hfails holds m₂)
  | fault e m₂ =>
    have hf := (hr.forCondition h.kept.1).fault hcond
    have ho : (Rules.within fuel).forPass scope (m.inside entry scope t₁) = .fault e m₂ :=
      bind_fault hcond
    obtain ⟨m', hrun, hover⟩ := h.pass_fault ho hf.sound (hf.kept.exempting _)
    rw [passesFrom, Rules.passes_fault h.entry_le hrun]
    exact .fault hover
  | outOfFuel =>
    have ho : (Rules.within fuel).forPass scope (m.inside entry scope t₁) = .outOfFuel :=
      bind_outOfFuel hcond
    rw [passesFrom, Rules.passes_outOfFuel h.entry_le (h.pass_outOfFuel ho)]
    exact .outOfFuel

/-- The condition holds or not; in both cases the position behind it is kept. -/
theorem marked (h : Started init entry m scope p t t₁) {holds : Bool}
    (hcond : (Rules.within fuel).forCondition .execute (m.inside entry scope t₁) = .done holds m₂) :
    ∃ m₂', Marked scope (m.inside entry scope t₁) m₂ m₂' ∧
      (Rules.within fuel).forPass scope (m.inside entry scope t₁) =
        (Rules.within fuel).forBody scope holds m₂' := by
  have hr := Rules.within_faithful (Nat.le_refl fuel)
  have hd := (hr.forCondition h.kept.1).done hcond
  have hscope : (m.inside entry scope t₁).scopes.contains scope = true := h.kept.1.current
  obtain ⟨t₂, hmark, hsound, hk, hsame, hkind⟩ := Rules.mark_run hd.sound (hd.kept.contains hscope)
  have hgrows : (m.inside entry scope t₁).Grows scope m₂ :=
    Rules.forCondition_grows h.kept.1 (.inl ⟨holds, hcond⟩)
  refine ⟨{ m₂ with scopes := t₂ },
    ⟨hsound, (hd.kept.exempting _).trans hk, hgrows.trans hsame.grows, hsame, rfl, rfl,
      hd.kept.current, hkind⟩, ?_⟩
  rw [Rules.forPass, bind_done hcond]
  exact bind_done hmark

/-- After the condition has failed the rest is read, and that is all. -/
theorem exit (h : Started init entry m scope p t t₁)
    (hcond : (Rules.within fuel).forCondition .execute (m.inside entry scope t₁) = .done false m₂) :
    Carries (Rules.within fuel) init entry p.bindings.names (n + 1) m
      (passesFrom fuel init entry (n + 1) m) := by
  obtain ⟨m₂', hmarked, hpass⟩ := h.marked hcond
  have hstep := (Rules.within_faithful (Nat.le_refl fuel)).inStep hmarked.sound
  have htied := hstep.forIncrement.bind fun _ _ => hstep.bracedStatements
  have hbody : (Rules.within fuel).forBody scope false m₂' =
      (((Rules.within fuel).forIncrement .skip >>= fun _ =>
        (Rules.within fuel).bracedStatements .skip) >>=
        fun _ => pure .exit) m₂' := by
    rw [bind_assoc]
    rfl
  refine .exit h.begins hcond ?_
  cases hrun : ((Rules.within fuel).forIncrement .skip >>= fun _ =>
      (Rules.within fuel).bracedStatements .skip) m₂' with
  | done signal m₃ =>
    obtain ⟨d, rfl, hg, hd, _⟩ := htied.skim_done hmarked.sound.inside hrun
    obtain ⟨m', hdone, _, _, hover⟩ := h.pass_done (hpass.trans (hbody.trans (bind_done hrun)))
      (by simp) (hmarked.sound.on hg.cache_le hd) (hmarked.kept.trans (.on hg.cache_le))
    rw [passesFrom, Rules.passes_stop h.entry_le hdone rfl]
    exact .done rfl (hover.of_same (hmarked.same.trans (.on _ _)))
  | fault e m₃ =>
    obtain ⟨error, d, rfl, rfl, hp, hd, _⟩ := htied.skim_fault hmarked.sound.inside hrun
    obtain ⟨m', hfault, hover⟩ := h.pass_fault (hpass.trans (hbody.trans (bind_fault hrun)))
      (hmarked.sound.on hp hd) (hmarked.kept.trans (.on hp))
    rw [passesFrom, Rules.passes_fault h.entry_le hfault]
    exact .fault (hover.of_same (hmarked.same.trans (.on _ _)))
  | outOfFuel =>
    have ho := hpass.trans (hbody.trans (bind_outOfFuel hrun))
    rw [passesFrom, Rules.passes_outOfFuel h.entry_le (h.pass_outOfFuel ho)]
    exact .outOfFuel

structure Opened (fuel : Nat) (init : ScopeId) (entry : Nat) (names : List String) (m : Machine)
    (scope : ScopeId) (m₁ m₃ : Machine) (increment : Nat) : Prop where
  opens : Opens (Rules.within fuel) init entry names m scope increment m₃
  sound : m₃.Sound
  kept : m₁.Kept (some scope) m₃
  grows : m₁.Grows scope m₃
  current : m₃.current = scope
  kind : m₃.scopes.kindOf scope = some (.loop increment)
  increment_le : increment ≤ m₃.cursor.cache.size
  pass : (Rules.within fuel).forPass scope m₁ =
    ((Rules.within fuel).bracedStatements .execute >>= (Rules.within fuel).afterBody scope) m₃

/-- After a `break` the loop is read once more, and that is all. -/
theorem broke (h : Started init entry m scope p t t₁) {m₃ m₄ : Machine} {increment : Nat}
    {location : Location}
    (ho : Opened fuel init entry p.bindings.names m scope (m.inside entry scope t₁) m₃ increment)
    (hrun : (Rules.within fuel).bracedStatements .execute m₃ = .done (.broke location) m₄) :
    Carries (Rules.within fuel) init entry p.bindings.names (n + 1) m
      (passesFrom fuel init entry (n + 1) m) := by
  have hr := Rules.within_faithful (Nat.le_refl fuel)
  have hd := (hr.bracedStatements ho.sound).done hrun
  obtain ⟨m', hdone, hsound, hkept, hover⟩ :=
    h.pass_done (ho.pass.trans (bind_done hrun)) (by simp) hd.sound
    (ho.kept.trans (hd.kept.exempting _))
  have hentry : entry ≤ m'.cursor.cache.size :=
    Nat.le_trans h.entry_le (size_le_of_cache_le hkept.cache)
  have hplaced := hsound.placed hentry
  refine .broke ho.opens hrun ?_
  rw [passesFrom, Rules.passes_broke h.entry_le hdone hentry]
  have htied := (hr.inStep hplaced).skipForRest
  cases hskip : (Rules.within fuel).skipForRest (m'.on (m'.cursor.place entry)) with
  | done u m₅ =>
    obtain ⟨d, rfl, _⟩ := htied.skim_done hplaced.inside hskip
    rw [bind_done hskip]
    exact .done rfl (hover.on d)
  | fault e m₅ =>
    obtain ⟨error, d, rfl, rfl, _⟩ := htied.skim_fault hplaced.inside hskip
    rw [bind_fault hskip]
    exact .fault (hover.on d)
  | outOfFuel =>
    rw [bind_outOfFuel hskip]
    exact .outOfFuel

/-- After the body the increment is evaluated, in the scope of the iteration. -/
theorem advance (h : Started init entry m scope p t t₁) {m₃ m₄ : Machine} {increment : Nat}
    {signal : Signal}
    (ho : Opened fuel init entry p.bindings.names m scope (m.inside entry scope t₁) m₃ increment)
    (hrun : (Rules.within fuel).bracedStatements .execute m₃ = .done signal m₄)
    (hsignal : signal = .normal ∨ ∃ location, signal = .continued location)
    (hnext : ∀ {m'}, m'.Sound → m.Kept none m' → m'.current = init →
      (m'.table? init).map Bindings.names = some p.bindings.names →
      Carries (Rules.within fuel) init entry p.bindings.names n m'
      (passesFrom fuel init entry n m')) :
    Carries (Rules.within fuel) init entry p.bindings.names (n + 1) m
      (passesFrom fuel init entry (n + 1) m) := by
  have hr := Rules.within_faithful (Nat.le_refl fuel)
  have hd := (hr.bracedStatements ho.sound).done hrun
  have hcurrent : m₄.current = scope := hd.kept.current.trans ho.current
  have hkind := (hd.kept.kinds scope (Option.some_ne_none _).symm).trans ho.kind
  have hle : increment ≤ m₄.cursor.cache.size :=
    Nat.le_trans ho.increment_le (size_le_of_cache_le hd.kept.cache)
  have hafter : (Rules.within fuel).afterBody scope signal =
      (Rules.within fuel).forAdvance scope := by
    rcases hsignal with rfl | ⟨location, rfl⟩ <;> rfl
  have hpass := ho.pass.trans (bind_done hrun)
  rw [hafter, Rules.forAdvance_run hkind hle] at hpass
  have hplaced := hd.sound.placed hle
  have hkept := (ho.kept.trans (hd.kept.exempting _)).trans (.placed increment)
  cases hinc : (Rules.within fuel).forIncrement .execute (m₄.on (m₄.cursor.place increment)) with
  | done u m₅ =>
    have hd₅ := (hr.forIncrement hplaced).done hinc
    have hbody : m₃.Grows scope m₄ :=
      ho.current ▸ Rules.bracedStatements_grows ho.sound (.inl ⟨_, hrun⟩)
    have hincrement : (m₄.on (m₄.cursor.place increment)).Grows scope m₅ :=
      hcurrent ▸ Rules.forIncrement_grows hplaced (.inl ⟨_, hinc⟩)
    have hgrows := ((ho.grows.trans hbody).trans (Machine.Same.on _ _).grows).trans hincrement
    obtain ⟨m', hagain, hsound, hkept', hhands, hnames⟩ :=
      h.pass_again (hpass.trans (bind_done hinc)) hd₅.sound
      (hkept.trans (hd₅.kept.exempting _)) hgrows
    rw [passesFrom, Rules.passes_again h.entry_le hagain]
    exact .again ho.opens hrun hsignal hcurrent hinc hhands
      (hnext hsound hkept' hhands.current hnames)
  | fault e m₅ =>
    have hf := (hr.forIncrement hplaced).fault hinc
    obtain ⟨m', hfault, hover⟩ := h.pass_fault (hpass.trans (bind_fault hinc)) hf.sound
      (hkept.trans (hf.kept.exempting _))
    rw [passesFrom, Rules.passes_fault h.entry_le hfault]
    exact .increment ho.opens hrun hsignal hcurrent (hinc ▸ .fault hover)
  | outOfFuel =>
    refine .increment ho.opens hrun hsignal hcurrent ?_
    rw [passesFrom,
      Rules.passes_outOfFuel h.entry_le (h.pass_outOfFuel (hpass.trans (bind_outOfFuel hinc))),
      hinc]
    exact .outOfFuel

/-- How an iteration goes whose body is executed. -/
theorem run (h : Started init entry m scope p t t₁) {m₃ : Machine} {increment : Nat}
    (ho : Opened fuel init entry p.bindings.names m scope (m.inside entry scope t₁) m₃ increment)
    (hnext : ∀ {m'}, m'.Sound → m.Kept none m' → m'.current = init →
      (m'.table? init).map Bindings.names = some p.bindings.names →
      Carries (Rules.within fuel) init entry p.bindings.names n m'
      (passesFrom fuel init entry n m')) :
    Carries (Rules.within fuel) init entry p.bindings.names (n + 1) m
      (passesFrom fuel init entry (n + 1) m) := by
  have hbody := (Rules.within_faithful (Nat.le_refl fuel)).bracedStatements ho.sound
  cases hrun : (Rules.within fuel).bracedStatements .execute m₃ with
  | fault e m₄ =>
    have hf := hbody.fault hrun
    obtain ⟨m', hfault, hover⟩ := h.pass_fault (ho.pass.trans (bind_fault hrun)) hf.sound
      (ho.kept.trans (hf.kept.exempting _))
    rw [passesFrom, Rules.passes_fault h.entry_le hfault]
    exact .body ho.opens (hrun ▸ .fault hover)
  | outOfFuel =>
    refine .body ho.opens ?_
    rw [passesFrom,
      Rules.passes_outOfFuel h.entry_le (h.pass_outOfFuel (ho.pass.trans (bind_outOfFuel hrun))),
      hrun]
    exact .outOfFuel
  | done signal m₄ =>
    cases signal with
    | normal => exact h.advance ho hrun (.inl rfl) hnext
    | continued location => exact h.advance ho hrun (.inr ⟨location, rfl⟩) hnext
    | broke location => exact h.broke ho hrun
    | returned value location =>
      have hd := hbody.done hrun
      obtain ⟨m', hdone, _, _, hover⟩ :=
        h.pass_done (ho.pass.trans (bind_done hrun)) (by simp) hd.sound
        (ho.kept.trans (hd.kept.exempting _))
      rw [passesFrom, Rules.passes_stop h.entry_le hdone rfl]
      exact .returned ho.opens hrun hover

end Started

section Names

variable {init : ScopeId} {names : List String} {w : Watch} {fuel entry : Nat} {m m' : Machine}

end Names

/-! ## The statement -/

section Statement

variable {fuel : Nat} {init : ScopeId} {m n₁ n₂ : Machine}

end Statement

end Replay
