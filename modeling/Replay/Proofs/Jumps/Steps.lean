import Replay.Proofs.Jumps.Course
import Replay.Proofs.Recognition
/-!
Courses of single steps: reading tokens, using names, and making scopes.

What stands around the next token is known at the start of every rule, and with each token that is
read it is known again.
-/

namespace Replay

open Exec

/-- The run stands at a place in the text with this around it. -/
structure Machine.Stands (source : String) (n : Nesting) (m : Machine) :
    Prop extends m.Lexed source where
  place : m.cursor.nesting source = n

/-- The computation makes no jumps, and leads to a place with `n` around it. -/
def Arrives {α : Type} (source : String) (n : Nesting) (A : α → Cursor → Prop)
    (x : Lookout → Exec α) (m : Machine) : Prop :=
  Follows source none nothing (fun a c => A a c ∧ c.nesting source = n) x m

abbrev anything {α : Type} (_ : α) (_ : Cursor) : Prop := True

variable {α β σ : Type} {source : String} {n n' : Nesting} {carries : α → Option Jump}
  {passes : β → Option Jump}
  {P : α → Cursor → Prop} {Q : β → Cursor → Prop} {A A' : α → Cursor → Prop} {m : Machine}

theorem Turn.carries_nothing : Turn.carries (σ := σ) (nothing : β → Option Jump) = nothing := by
  funext turn
  cases turn <;> rfl

namespace Arrives

variable {x : Lookout → Exec α}

theorem pure {a : α} (hm : m.Stands source n) (ha : A a m.cursor) :
    Arrives source n A (fun _ => Pure.pure a) m :=
  Follows.pure hm.toLexed ⟨ha, hm.place⟩

theorem imp (h : Arrives source n A x m) (himp : ∀ a c, A a c → A' a c) : Arrives source n A' x m :=
  Follows.imp h fun a c ⟨ha, hplace⟩ => ⟨himp a c ha, hplace⟩

theorem bind {f : Lookout → α → Exec β} (hx : Arrives source n A x m)
    (hf : ∀ {a m₁}, m₁.Stands source n → m.cursor.cache.toList <+: m₁.cursor.cache.toList →
      A a m₁.cursor →
      Follows source none passes Q (fun w => f w a) m₁) :
    Follows source none passes Q (fun w => x w >>= f w) m :=
  Follows.bind hx fun _ hm₁ hgrown ⟨ha, hplace⟩ => hf ⟨hm₁, hplace⟩ hgrown ha

/-- A loop in which nothing is opened or closed. -/
theorem loop {I : σ → Cursor → Prop} {body : Lookout → σ → Exec (Turn σ α)} {fuel : Lookout → Nat}
    {k : Nat} {s : σ} (hbody : ∀ {s m₁}, m₁.Stands source n → I s m₁.cursor →
      Arrives source n (fun turn c => turn.All (I · c) (A · c)) (fun w => body w s) m₁)
    (hfuel : ∀ w, fuel w = k) (hm : m.Stands source n) (hs : I s m.cursor) :
    Arrives source n A (fun w => Exec.loop (body w) (fuel w) s) m := by
  refine Follows.loop (J := fun s c => I s c ∧ c.nesting source = n) ?_ hfuel hm.toLexed
    ⟨hs, hm.place⟩
  rintro s m₁ hm₁ - ⟨hs, hplace⟩
  rw [Turn.carries_nothing]
  refine Follows.imp (hbody ⟨hm₁, hplace⟩ hs) fun turn c hturn => ?_
  cases turn with
  | again s' => exact hturn
  | stop b => exact hturn

end Arrives

namespace Follows

/-! ## Tokens -/

/-- A step that is the same for every lookout. -/
theorem run_bind {x : Exec β} {f : Lookout → β → Exec α} {b : β} {m₁ : Machine}
    (hx : x m = .done b m₁) (hgrown : m.cursor.cache.toList <+: m₁.cursor.cache.toList)
    (hf : Follows source none carries P (fun w => f w b) m₁) :
    Follows source none carries P (fun w => x >>= f w) m :=
  hf.congr hgrown fun _ => bind_done hx

theorem of_fault {y : Lookout → Exec α} {e : Error} {m₁ : Machine} (hy : ∀ w, y w m = .fault e m₁)
    (he : ∀ j : Jump, e ≠ j.error) : Follows source none carries P y m :=
  (const (x := fun _ => .fault e m₁) (Error.Lexical.of_ne he)).congr (List.prefix_refl _) hy

theorem peek_bind {f : Lookout → Lexeme → Exec α} (hm : m.Stands source n)
    (hf : ∀ {m₁}, m₁.Stands source n → m.cursor.cache.toList <+: m₁.cursor.cache.toList →
      m₁.cursor.position = m.cursor.position →
      Follows source none carries P (fun w => f w (Stream.lexeme source m.cursor.position)) m₁) :
    Follows source none carries P (fun w => peek >>= f w) m := by
  rcases peek_run m with ⟨l, c, hpeek, hrun⟩ | ⟨e, c, hpeek, hrun⟩
  · obtain ⟨rfl, hpos, hlt, htracks⟩ := hm.tracks.peek_ok hpeek
    obtain ⟨hg, _, _⟩ := Cursor.peek_ok hm.sound.inside hpeek
    have hlexed : (m.on c).Lexed source :=
      ⟨hm.sound.on hg.cache_le htracks.inside, htracks, hm.headed⟩
    have hplace : Stream.nesting source c.position = n := hpos ▸ hm.place
    exact run_bind hrun hg.cache_le (hf ⟨hlexed, hplace⟩ hg.cache_le hpos)
  · exact of_fault (fun _ => bind_fault hrun) fun _ => Error.noConfusion

theorem next_bind {f : Lookout → Lexeme → Exec α} (hm : m.Stands source n)
    (hf : ∀ {m₁},
      m₁.Stands source (n.step m.cursor.position (Stream.token source m.cursor.position)) →
      m.cursor.cache.toList <+: m₁.cursor.cache.toList →
      m₁.cursor.position = m.cursor.position + 1 →
      m.opens = .opening m.cursor.position (Stream.token source m.cursor.position) →
      Follows source none carries P (fun w => f w (Stream.lexeme source m.cursor.position)) m₁) :
    Follows source none carries P (fun w => next >>= f w) m := by
  rcases next_run m with ⟨l, c, hpeek, hrun⟩ | ⟨e, c, hpeek, hrun⟩
  · obtain ⟨rfl, hpos, hlt, htracks⟩ := hm.tracks.peek_ok hpeek
    obtain ⟨hg, _, _⟩ := Cursor.peek_ok hm.sound.inside hpeek
    have hopens : m.opens = .opening m.cursor.position (Stream.token source m.cursor.position) := by
      rw [Machine.opens, hpeek]
      rfl
    have hlexed : (m.on (c.place (m.cursor.position + 1))).Lexed source :=
      ⟨hm.sound.on hg.cache_le hlt, htracks.placed hlt, hm.headed⟩
    have hplace : Stream.nesting source (m.cursor.position + 1) =
        n.step m.cursor.position (Stream.token source m.cursor.position) := by
      rw [← hm.place]
      rfl
    exact run_bind hrun hg.cache_le (hf ⟨hlexed, hplace⟩ hg.cache_le rfl hopens)
  · exact of_fault (fun _ => bind_fault hrun) fun _ => Error.noConfusion

theorem peekIs_bind {p : Punct} {f : Lookout → Bool → Exec α} (hm : m.Stands source n)
    (htrue : ∀ {m₁}, m₁.Stands source n → m.cursor.cache.toList <+: m₁.cursor.cache.toList →
      Stream.token source m₁.cursor.position = .punct p →
      Follows source none carries P (fun w => f w true) m₁)
    (hfalse : ∀ {m₁}, m₁.Stands source n → m.cursor.cache.toList <+: m₁.cursor.cache.toList →
      Follows source none carries P (fun w => f w false) m₁) :
    Follows source none carries P (fun w => peekIs p >>= f w) m := by
  simp only [peekIs, bind_assoc, pure_bind]
  refine peek_bind hm fun {m₁} hm₁ hgrown hpos => ?_
  cases htoken : (Stream.lexeme source m.cursor.position).token.isPunct p with
  | true => exact htrue hm₁ hgrown (hpos ▸ Token.isPunct_iff.mp htoken)
  | false => exact hfalse hm₁ hgrown

/-- A sign that is known to come next. -/
theorem sign_bind {p : Punct} {f : Lookout → Lexeme → Exec α} (hm : m.Stands source n)
    (hp : Stream.token source m.cursor.position = .punct p)
    (hf : ∀ {m₁}, m₁.Stands source (n.step m.cursor.position (.punct p)) →
      m.cursor.cache.toList <+: m₁.cursor.cache.toList →
      Follows source none carries P (fun w => f w (Stream.lexeme source m.cursor.position)) m₁) :
    Follows source none carries P (fun w => next >>= f w) m :=
  next_bind hm fun hm₁ hgrown _ _ => hf (hp ▸ hm₁) hgrown

theorem expect_bind {p : Punct} {f : Lookout → Unit → Exec α} (hm : m.Stands source n)
    (hf : ∀ {m₁}, m₁.Stands source (n.step m.cursor.position (.punct p)) →
      m.cursor.cache.toList <+: m₁.cursor.cache.toList →
      Follows source none carries P (fun w => f w ()) m₁) :
    Follows source none carries P (fun w => expect p >>= f w) m := by
  simp only [expect, bind_assoc]
  refine next_bind hm fun {m₁} hm₁ hgrown _ _ => ?_
  cases htoken : (Stream.lexeme source m.cursor.position).token.isPunct p with
  | true => exact hf (Token.isPunct_iff.mp htoken ▸ hm₁) hgrown
  | false => exact failParse _ _

theorem expectKeyword_bind {k : Keyword} {f : Lookout → Unit → Exec α} (hm : m.Stands source n)
    (hf : ∀ {m₁}, m₁.Stands source (n.step m.cursor.position (.keyword k)) →
      m.cursor.cache.toList <+: m₁.cursor.cache.toList →
      Follows source none carries P (fun w => f w ()) m₁) :
    Follows source none carries P (fun w => expectKeyword k >>= f w) m := by
  simp only [expectKeyword, bind_assoc]
  refine next_bind hm fun {m₁} hm₁ hgrown _ _ => ?_
  cases htoken : (Stream.lexeme source m.cursor.position).token.isKeyword k with
  | true => exact hf (Token.isKeyword_iff.mp htoken ▸ hm₁) hgrown
  | false => exact failParse _ _

theorem expectIdentifier_bind {f : Lookout → String × Location → Exec α} (hm : m.Stands source n)
    (hf : ∀ {name m₁}, m₁.Stands source n → m.cursor.cache.toList <+: m₁.cursor.cache.toList →
      Follows source none carries P (fun w => f w name) m₁) :
    Follows source none carries P (fun w => expectIdentifier >>= f w) m := by
  simp only [expectIdentifier, bind_assoc]
  refine next_bind hm fun {m₁} hm₁ hgrown _ _ => ?_
  cases htoken : (Stream.lexeme source m.cursor.position).token with
  | identifier name =>
    rw [Stream.token, htoken] at hm₁
    exact hf hm₁ hgrown
  | _ => exact failParse _ _

/-- A token is given back. -/
theorem rollback_bind {f : Lookout → Unit → Exec α} {i : Nat} (hm : m.Lexed source)
    (hpos : m.cursor.position = i + 1) (hn : Stream.nesting source i = n)
    (hf : ∀ {m₁}, m₁.Stands source n → m₁.cursor.position = i →
      Follows source none carries P (fun w => f w ()) m₁) :
    Follows source none carries P (fun w => rollback >>= f w) m := by
  have hrun := rollback_run (m := m) (by omega)
  have hle : i ≤ m.cursor.cache.size := by
    have hinside : m.cursor.position ≤ m.cursor.cache.size := hm.sound.inside
    omega
  rw [hpos, Nat.add_sub_cancel] at hrun
  have hlexed : (m.on (m.cursor.place i)).Lexed source :=
    ⟨hm.sound.placed hle, hm.tracks.placed hle, hm.headed⟩
  exact run_bind hrun (List.prefix_refl _) (hf ⟨hlexed, hn⟩ rfl)

theorem seek_bind {f : Lookout → Unit → Exec α} {p : Nat} (hm : m.Lexed source)
    (hp : p ≤ m.cursor.cache.size) (hn : Stream.nesting source p = n)
    (hf : ∀ {m₁}, m₁.Stands source n → m₁ = m.on (m.cursor.place p) →
      Follows source none carries P (fun w => f w ()) m₁) :
    Follows source none carries P (fun w => seek p >>= f w) m := by
  have hlexed : (m.on (m.cursor.place p)).Lexed source :=
    ⟨hm.sound.placed hp, hm.tracks.placed hp, hm.headed⟩
  exact run_bind (seek_run hp) (List.prefix_refl _) (hf ⟨hlexed, hn⟩ rfl)

theorem position_bind {f : Lookout → Nat → Exec α}
    (hf : Follows source none carries P (fun w => f w m.cursor.position) m) :
    Follows source none carries P (fun w => position >>= f w) m :=
  run_bind rfl (List.prefix_refl _) hf

theorem currentScope_bind {f : Lookout → ScopeId → Exec α}
    (hf : Follows source none carries P (fun w => f w m.current) m) :
    Follows source none carries P (fun w => currentScope >>= f w) m :=
  run_bind rfl (List.prefix_refl _) hf

end Follows

namespace Arrives

theorem expect {p : Punct} (hm : m.Stands source n) :
    Arrives source (n.step m.cursor.position (.punct p)) anything (fun _ => expect p) m := by
  rw [← bind_pure (Exec.expect p)]
  exact Follows.expect_bind hm fun hm₁ _ => pure hm₁ trivial

/-! ## Names and output -/

/-- A step that has no text. -/
theorem idle {γ : Type} {R : Reading α γ} {x : Exec α} {b : γ} (hm : m.Stands source n)
    (hx : Honours R none (Pure.pure b) m.cursor x m) (hcomplete : ∀ a, R.complete a)
    (hdone : ∀ {a m₁}, x m = .done a m₁ → m₁.scopes.Holds (Value.Headed source) ∧ A a m.cursor)
    (hfault : ∀ {e m₁}, x m = .fault e m₁ → ∀ j : Jump, e ≠ j.error) :
    Arrives source n A (fun _ => x) m := by
  refine Follows.const ?_
  cases hrun : x m with
  | done a m₁ =>
    have hd := hx.done hrun
    obtain ⟨_, _, hs⟩ := hd.scans (hcomplete a)
    have hcursor : m₁.cursor = m.cursor := (Machine.bare_inj (Outcome.done.inj hs).2).symm
    obtain ⟨hheaded, ha⟩ := hdone hrun
    refine ⟨⟨hd.sound, hcursor ▸ hm.tracks, hheaded⟩, hd.kept.cache, ?_, ?_⟩
    · rw [hcursor]
      exact ha
    · rw [hcursor]
      exact hm.place
  | fault e m₁ => exact .of_ne (hfault hrun)
  | outOfFuel => trivial

theorem ofRuntime {result : Except RuntimeCause α} (location : Location) (hm : m.Stands source n)
    (hok : ∀ {a}, result = .ok a → A a m.cursor)
    (herror : ∀ {cause}, result = .error cause → ∀ keyword, cause ≠ .invalidContext keyword) :
    Arrives source n A (fun _ => ofRuntime result location) m := by
  cases result with
  | ok a => exact pure hm (hok rfl)
  | error cause => exact Follows.raise (herror rfl) location

theorem lookup (name : String) (hm : m.Stands source n) :
    Arrives source n (fun found c => ∀ b v, found = some b → b.value = some v → v.Fine source c)
      (fun _ => lookup name) m := by
  obtain ⟨found, hok, hfound⟩ := ScopeTree.lookup_ok hm.sound.connected hm.sound.current name
  have hrun : Exec.lookup name m = .done found m := by simp only [Exec.lookup, hok]
  refine idle (b := ()) hm (Honours.lookup hm.sound name) (fun _ => trivial) (fun h => ?_)
    fun h => ?_
  · cases hrun.symm.trans h
    refine ⟨hm.headed, fun b v hb hv => ?_⟩
    obtain ⟨owner, scope, hs, hmem⟩ := hfound b hb
    exact ⟨(hm.sound.bindings hs).find? hmem hv, (hm.headed.find? hs).find? hmem hv⟩
  · cases hrun.symm.trans h

theorem declare (name : String) {value : Option Value} (location : Location)
    (hm : m.Stands source n) (hv : ∀ v, value = some v → v.Fine source m.cursor) :
    Arrives source n anything (fun _ => declare name value location) m := by
  refine idle (b := ()) hm (Honours.declare hm.sound name location fun v h => (hv v h).good)
    (fun _ => trivial)
    (fun h => ⟨?_, trivial⟩) fun h => ?_
  · unfold Exec.declare at h
    split at h <;> cases h
    next ht => exact hm.headed.declare? (fun v h => (hv v h).headed) ht
  · unfold Exec.declare at h
    split at h <;> cases h <;> intro j hj <;> cases hj

theorem store (name : String) {value : Value} (location : Location) (hm : m.Stands source n)
    (hv : value.Fine source m.cursor) :
    Arrives source n anything (fun _ => store name value location) m := by
  refine idle (b := ()) hm (Honours.store hm.sound name location hv.good) (fun _ => trivial)
    (fun h => ⟨?_, trivial⟩) fun h => ?_
  · unfold Exec.store at h
    split at h <;> cases h
    next ht => exact hm.headed.assign? (fun v h => by cases h; exact hv.headed) ht
  · unfold Exec.store at h
    split at h <;> cases h <;> intro j hj <;> cases hj

theorem write (text : String) (hm : m.Stands source n) :
    Arrives source n anything (fun _ => write text) m := by
  refine idle (b := ()) hm (Honours.write hm.sound text) (fun _ => trivial)
    (fun h => ⟨?_, trivial⟩) fun h => ?_
  · unfold Exec.write at h
    dsimp only at h
    split at h <;> cases h
    exact hm.headed
  · unfold Exec.write at h
    dsimp only at h
    split at h <;> cases h
    exact fun _ => Error.noConfusion

end Arrives

/-! ## Scopes -/

/-- However the computation ends, there are no scopes left that it has made. -/
structure Exec.Tidy (exempt : Option ScopeId) (x : Exec α) (m : Machine) : Prop where
  done : ∀ {a m'}, x m = .done a m' → m'.Sound ∧ m.Kept exempt m'
  fault : ∀ {e m'}, x m = .fault e m' → m'.Sound ∧ m.Kept exempt m'

theorem Honours.tidy {γ : Type} {R : Reading α γ} {exempt : Option ScopeId} {s : Exec γ}
    {c : Cursor} {x : Exec α} (h : Honours R exempt s c x m) : x.Tidy exempt m where
  done hx := ⟨(h.done hx).sound, (h.done hx).kept⟩
  fault hx := ⟨(h.fault hx).sound, (h.fault hx).kept⟩

theorem Exec.Tidy.inScope {exempt : Option ScopeId} {scope : ScopeId} {x : Exec α} (hm : m.Sound)
    (hx : x.Tidy exempt { m with current := scope }) : (inScope scope x).Tidy exempt m := by
  have hrestore {m₂ : Machine} (h : m₂.Sound ∧ Machine.Kept exempt { m with current := scope } m₂) :
      { m₂ with current := m.current }.Sound ∧ m.Kept exempt { m₂ with current := m.current } := by
    have hcurrent := h.2.contains hm.current
    exact ⟨{ h.1 with current := hcurrent }, { h.2 with current := rfl }⟩
  constructor
  · intro a m' h
    unfold Exec.inScope at h
    dsimp only at h
    split at h <;> cases h
    next hrun => exact hrestore (hx.done hrun)
  · intro e m' h
    unfold Exec.inScope at h
    dsimp only at h
    split at h <;> cases h
    next hrun => exact hrestore (hx.fault hrun)

theorem Machine.Lexed.created {parent id : ScopeId} {p : Scope} {kind : ScopeKind} {t : ScopeTree}
    (hm : m.Lexed source) (hp : m.scopes.find? parent = some p)
    (hok : createScope parent kind m = .done id { m with scopes := t })
    (hc : m.scopes.Created parent p kind id t) :
    { m with scopes := t }.Lexed source := by
  refine ⟨Machine.created_sound hm.sound hp hc, hm.tracks, ?_⟩
  unfold createScope at hok
  split at hok <;> cases hok
  next ht => exact hm.headed.create ht

namespace Follows

theorem changeScopes_bind {f : ScopeTree → Except InternalError ScopeTree}
    {g : Lookout → Unit → Exec α} {t : ScopeTree} (hf : f m.scopes = .ok t)
    (hg : Follows source none carries P (fun w => g w ()) { m with scopes := t }) :
    Follows source none carries P (fun w => changeScopes f >>= g w) m := by
  have hrun : changeScopes f m = .done () { m with scopes := t } := by simp only [changeScopes, hf]
  exact run_bind hrun (List.prefix_refl _) hg

/-- A scope for the time that `body` takes. -/
theorem withChild {parent : ScopeId} {kind : ScopeKind} {body : Lookout → ScopeId → Exec α}
    (hm : m.Lexed source) (hparent : m.scopes.contains parent = true)
    (htidy : ∀ w {p id t}, m.scopes.find? parent = some p → m.scopes.Created parent p kind id t →
      { m with scopes := t }.Sound → (body w id).Tidy (some id) { m with scopes := t })
    (hbody : ∀ {p id t}, m.scopes.find? parent = some p → m.scopes.Created parent p kind id t →
      { m with scopes := t }.Lexed source →
      Follows source none carries P (fun w => body w id) { m with scopes := t }) :
    Follows source none carries P (fun w => Exec.withChild parent kind (body w)) m := by
  obtain ⟨p, hp⟩ := ScopeTree.contains_iff.mp hparent
  rcases createScope_cases hm.sound hp kind with ⟨id, t, hok, hc⟩ | ⟨hno, _⟩
  · have hcreated := hm.created hp hok hc
    refine run_bind hok (List.prefix_refl _) ((hbody hp hc hcreated).ensuring ?_ ?_)
    · rintro a m₁ hrun ⟨hm₁, hgrown, ha⟩
      obtain ⟨hsound₁, hk⟩ := (htidy .none hp hc hcreated.sound).done hrun
      obtain ⟨t', hdestroy, _, hsound', _⟩ := Machine.destroy_created hm.sound hp hc hsound₁ hk
      exact ⟨_, destroyScope_done hdestroy,
        ⟨hsound', hm₁.tracks, hm₁.headed.destroy hdestroy⟩, hgrown, ha⟩
    · intro w e m₁ hrun
      obtain ⟨hsound₁, hk⟩ := (htidy w hp hc hcreated.sound).fault hrun
      obtain ⟨t', hdestroy, _⟩ := Machine.destroy_created hm.sound hp hc hsound₁ hk
      exact ⟨_, destroyScope_done hdestroy⟩
  · exact of_fault (fun _ => bind_fault hno) fun _ => Error.noConfusion

/-- A scope that is also the current one meanwhile. -/
theorem inChild {parent : ScopeId} {kind : ScopeKind} {body : Lookout → ScopeId → Exec α}
    (hm : m.Lexed source) (hparent : m.scopes.contains parent = true)
    (htidy : ∀ w {id m₁}, m₁.Sound → m₁.scopes.kindOf id = some kind → m₁.cursor = m.cursor →
      (body w id).Tidy (some id) m₁)
    (hbody : ∀ {id m₁}, m₁.Lexed source → m₁.scopes.kindOf id = some kind → m₁.cursor = m.cursor →
      Follows source none carries P (fun w => body w id) m₁) :
    Follows source none carries P
      (fun w => Exec.withChild parent kind fun scope => Exec.inScope scope (body w scope)) m := by
  have hkind {p : Scope} {id : ScopeId} {t : ScopeTree} (hc : m.scopes.Created parent p kind id t) :
      t.kindOf id = some kind := by
    rw [ScopeTree.kindOf, hc.find?_self]
    rfl
  have hinside {p : Scope} {id : ScopeId} {t : ScopeTree} (hc : m.scopes.Created parent p kind id t)
      (hsound : { m with scopes := t }.Sound) : { m with scopes := t, current := id }.Sound :=
    { hsound with current := ScopeTree.contains_of_find? hc.find?_self }
  refine withChild hm hparent (fun w {p id t} _ hc hsound => ?_) fun {p id t} _ hc hlexed => ?_
  · exact .inScope hsound (htidy w (hinside hc hsound) (hkind hc) rfl)
  · have hinside := hinside hc hlexed.sound
    refine Follows.inScope (hbody ⟨hinside, hlexed.tracks, hlexed.headed⟩ (hkind hc) rfl)
      fun hrun => ?_
    exact ((htidy .none hinside (hkind hc) rfl).done hrun).2.contains hlexed.sound.current

end Follows
end Replay
