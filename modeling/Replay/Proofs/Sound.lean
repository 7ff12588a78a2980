import Replay.Proofs.Arena
import Replay.Proofs.Scan
/-!
What holds of every state, and what a rule leaves alone.

A state is sound if everything in it that is used without asking is there: the scopes that scopes
refer to, the positions that calls return to, and the text of the procedures that variables hold.
-/

namespace Replay

open ScopeTree (arenaFull)

/-! ## Procedures -/

def Rules.procedureText (r : Rules) : Exec Signal := do
  let _ ← r.parameterList
  r.bracedStatements .skip

/-- With these tokens, and whatever follows them, there is a whole procedure at `entry`. -/
def Callable (cache : Array Lexeme) (entry : Nat) : Prop :=
  entry ≤ cache.size ∧ ∃ fuel stop, ∀ c : Cursor, cache.toList <+: c.cache.toList →
    Scans (Rules.within fuel).procedureText .normal (c.place entry) (c.place stop)

/-- If the value is a procedure it can be called. -/
def Value.Good (cache : Array Lexeme) : Value → Prop
  | procedure p => Callable cache p.entry
  | _ => True

theorem size_le_of_cache_le {c c' : Array Lexeme} (h : c.toList <+: c'.toList) :
    c.size ≤ c'.size := by
  simpa using h.length_le

theorem Value.Good.mono {cache cache' : Array Lexeme}
    (h : cache.toList <+: cache'.toList) {v : Value} (hv : v.Good cache) : v.Good cache' := by
  cases v with
  | procedure p =>
    obtain ⟨hle, fuel, stop, hscan⟩ := hv
    exact ⟨Nat.le_trans hle (size_le_of_cache_le h), fuel, stop, fun c hc => hscan c (h.trans hc)⟩
  | _ => trivial

namespace Machine

variable {m m₁ m₂ : Machine} {exempt : Option ScopeId}

/-! ## Soundness -/

structure Sound (m : Machine) : Prop where
  inside : m.cursor.Inside
  stocked : m.scopes.Stocked
  connected : m.scopes.Connected
  current : m.scopes.contains m.current = true
  bindings : ∀ {id s}, m.scopes.find? id = some s → s.bindings.All (Value.Good m.cursor.cache)
  calls : ∀ c ∈ m.calls.calls.toList,
    c.resume ≤ m.cursor.cache.size ∧ ∀ v ∈ c.arguments, v.Good m.cursor.cache

theorem start_sound (source : String) (maxDepth : Nat) (out : Sink) :
    (start source maxDepth out).Sound where
  inside := Nat.le_refl 0
  stocked := ScopeTree.new_stocked
  connected := ScopeTree.new_connected
  current := ScopeTree.new_connected.contains_root
  bindings {id s} hs := by
    change ScopeTree.new.find? id = some s at hs
    rw [ScopeTree.find?_new] at hs
    split at hs <;> cases hs
    exact Bindings.All.empty
  calls c hc := by cases hc

/-- Moving the cursor is harmless if no token is lost. -/
theorem Sound.on {d : Cursor} (h : m.Sound) (hp : m.cursor.cache.toList <+: d.cache.toList)
    (hd : d.Inside) :
    (m.on d).Sound where
  inside := hd
  stocked := h.stocked
  connected := h.connected
  current := h.current
  bindings hs := (h.bindings hs).imp fun _ => .mono hp
  calls c hc := by
    obtain ⟨hle, hgood⟩ := h.calls c hc
    exact ⟨Nat.le_trans hle (size_le_of_cache_le hp), fun v hv => (hgood v hv).mono hp⟩

theorem Sound.placed (h : m.Sound) {p : Nat} (hp : p ≤ m.cursor.cache.size) :
    (m.on (m.cursor.place p)).Sound :=
  h.on (d := m.cursor.place p) (List.prefix_refl _) hp

/-! ## What is kept -/

/-- Nothing but bindings, the cursor and the output has changed.  The kind of `exempt` may be
another one, and calls may be left on the stack. -/
structure Kept (exempt : Option ScopeId) (m m' : Machine) : Prop where
  current : m'.current = m.current
  links : ∀ id, m'.scopes.links id = m.scopes.links id
  kinds : ∀ id, exempt ≠ some id → m'.scopes.kindOf id = m.scopes.kindOf id
  live : m'.scopes.live = m.scopes.live
  slots : m.scopes.slots.size ≤ m'.scopes.slots.size
  calls : m.calls.calls.toList <+: m'.calls.calls.toList
  maxDepth : m'.calls.maxDepth = m.calls.maxDepth
  cache : m.cursor.cache.toList <+: m'.cursor.cache.toList

namespace Kept

theorem refl (exempt : Option ScopeId) (m : Machine) : Kept exempt m m :=
  ⟨rfl, fun _ => rfl, fun _ _ => rfl, rfl, Nat.le_refl _, List.prefix_refl _, rfl,
    List.prefix_refl _⟩

theorem on {d : Cursor} (hp : m.cursor.cache.toList <+: d.cache.toList) : Kept exempt m (m.on d) :=
  ⟨rfl, fun _ => rfl, fun _ _ => rfl, rfl, Nat.le_refl _, List.prefix_refl _, rfl, hp⟩

theorem placed (p : Nat) : Kept exempt m (m.on (m.cursor.place p)) :=
  on (d := m.cursor.place p) (List.prefix_refl _)

theorem trans (h : Kept exempt m m₁) (h' : Kept exempt m₁ m₂) : Kept exempt m m₂ where
  current := h'.current.trans h.current
  links id := (h'.links id).trans (h.links id)
  kinds id hid := (h'.kinds id hid).trans (h.kinds id hid)
  live := h'.live.trans h.live
  slots := Nat.le_trans h.slots h'.slots
  calls := h.calls.trans h'.calls
  maxDepth := h'.maxDepth.trans h.maxDepth
  cache := h.cache.trans h'.cache

theorem exempting (h : Kept none m m₁) (exempt : Option ScopeId) : Kept exempt m m₁ :=
  { h with kinds := fun id _ => h.kinds id (Option.some_ne_none id).symm }

theorem contains (h : Kept exempt m m₁) {id : ScopeId} (hid : m.scopes.contains id = true) :
    m₁.scopes.contains id = true :=
  ScopeTree.contains_of_links (h.links id) hid

end Kept

/-- Putting a scope with the same place in the tree, and with names that have good values, changes
nothing else. -/
theorem put_kept {t : ScopeTree} {id : ScopeId} {s s' : Scope} (hm : m.Sound)
    (hs : m.scopes.find? id = some s)
    (hput : m.scopes.Put id s' t) (hp : s'.parent = s.parent) (hc : s'.children = s.children)
    (hk : s'.kind = s.kind ∨ exempt = some id) (hb : s'.bindings.All (Value.Good m.cursor.cache)) :
    { m with scopes := t }.Sound ∧ Kept exempt m { m with scopes := t } := by
  have hlinks := hput.links hs hp hc
  refine ⟨⟨hm.inside, hput.stocked hs hm.stocked, hm.connected.of_links hlinks,
    ScopeTree.contains_of_links (hlinks _) hm.current, ?_, hm.calls⟩,
    ⟨rfl, hlinks, ?_, hput.live, Nat.le_of_eq hput.size.symm, List.prefix_refl _, rfl,
      List.prefix_refl _⟩⟩
  · intro j sj hj
    change t.find? j = some sj at hj
    rw [hput.find?] at hj
    split at hj
    · cases hj
      exact hb
    · exact hm.bindings hj
  · intro j hj
    rcases hk with hk | hk
    · exact hput.kindOf hs hk j
    · exact hput.kindOf_other fun h => hj (hk.trans (congrArg some h.symm))

end Machine
end Replay
