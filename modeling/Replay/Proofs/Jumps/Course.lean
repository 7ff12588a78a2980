import Replay.Proofs.Jumps.Lookout
import Replay.Proofs.Shape
/-!
The course of a computation.

A computation is looked at together with what happens on the way.  Every event has to agree with the
braces in the text, every jump that is made has to be dealt with, and the state that is reached
stands somewhere in the text, with braces around it that are known.  Courses are put together as the
computations are.
-/

namespace Replay

open Exec

/-! ## Agreement with the text -/

/-- The keyword of the jump is a token of the text, and this is where it leads to. -/
def Jump.Aims (source : String) (j : Jump) (target : Option Brace) : Prop :=
  (j.keyword = .kwBreak ∨ j.keyword = .kwContinue ∨ j.keyword = .kwReturn) ∧
    ∃ k, Stream.token source k = .keyword j.keyword ∧
    (Stream.lexeme source k).location = j.location ∧
      target? j.keyword (Stream.nesting source k).braces = target

def Event.Lexical (source : String) : Event → Prop
  | made j => ∃ target, j.Aims source target
  | taken b j => j.Aims source (some b)

/-- Only a jump that leads nowhere is complained about. -/
def Error.Lexical (source : String) (e : Error) : Prop := ∀ j :
    Jump, e = j.error → j.Aims source none

/-- A procedure starts where a body is ahead that belongs to it. -/
def Value.Headed (source : String) : Value → Prop
  | procedure p => (Stream.nesting source p.entry).ahead = .procedure
  | _ => True

structure Machine.Lexed (source : String) (m : Machine) : Prop where
  sound : m.Sound
  tracks : m.cursor.Tracks source []
  headed : m.scopes.Holds (Value.Headed source)

def Cursor.nesting (source : String) (c : Cursor) : Nesting := Stream.nesting source c.position

structure Value.Fine (source : String) (c : Cursor) (v : Value) : Prop where
  good : v.Good c.cache
  headed : v.Headed source

/-! ## Courses -/

def Outcome.Fits {α : Type} (source : String) (m : Machine) (Q : α → Cursor → Prop) :
    Outcome α → Prop
  | done a m' => m'.Lexed source ∧ m.cursor.cache.toList <+: m'.cursor.cache.toList ∧ Q a m'.cursor
  | fault e _ => e.Lexical source
  | outOfFuel => True

/-- What has become of the jump: something has taken it, or the result passes it on, or there is a
complaint. -/
def Settles {α : Type} (events : Event → Prop) (carries : α → Option Jump) (j : Jump)
    (o : Outcome α) : Prop :=
  (∃ b, events (.taken b j)) ∨ (∃ a m, o = .done a m ∧ carries a = some j) ∨
  ∃ m, o = .fault j.error m

/-- These are the events on the way.  A jump that is `pending` has been made before. -/
structure Course {α : Type} (source : String) (pending : Option Jump) (carries : α → Option Jump)
    (Q : α → Cursor → Prop) (x : Lookout → Exec α) (m : Machine) (events : Event → Prop) :
    Prop where
  stops : ∀ {w e}, events e → w e = true → ∃ m', x w m = .fault sighted m'
  same : ∀ {w : Lookout}, (∀ e, events e → w e = false) → x w m = x .none m
  fits : (x .none m).Fits source m Q
  lexical : ∀ e, events e → e.Lexical source
  settled : ∀ j, events (.made j) ∨ pending = some j → Settles events carries j (x .none m)

def Follows {α : Type} (source : String) (pending : Option Jump) (carries : α → Option Jump)
    (Q : α → Cursor → Prop) (x : Lookout → Exec α) (m : Machine) : Prop :=
  ∃ events, Course source pending carries Q x m events

abbrev nothing {α : Type} (_ : α) : Option Jump := none

/-- What is left of the jump outside of braces of this kind. -/
def Brace.leaves (b : Brace) (s : Signal) :
    Option Jump := s.jump?.filter fun j => !b.takes j.keyword

def Turn.carries {σ β : Type} (passes : β → Option Jump) : Turn σ β → Option Jump
  | again _ => none
  | stop b => passes b

variable {α β σ : Type} {source : String} {pending : Option Jump} {carries : α → Option Jump}
  {passes : β → Option Jump} {P P' : α → Cursor → Prop} {Q : β → Cursor → Prop}
  {x : Lookout → Exec α} {m : Machine}

theorem Error.Lexical.of_ne {e : Error} (h : ∀ j : Jump, e ≠ j.error) : e.Lexical source :=
  fun j hj => absurd hj (h j)

theorem Jump.Aims.lexical_error {j : Jump} (h : j.Aims source none) : j.error.Lexical source := by
  rintro ⟨keyword, location⟩ heq
  cases heq
  exact h

namespace Value.Fine

variable {c d : Cursor} {v : Value}

theorem mono (h : v.Fine source c) (hgrown : c.cache.toList <+: d.cache.toList) : v.Fine source d :=
  ⟨h.good.mono hgrown, h.headed⟩

theorem of_kind (h : v.kind ≠ .procedure) : v.Fine source c := by
  cases v with
  | procedure p => exact absurd rfl h
  | _ => exact ⟨trivial, trivial⟩

end Value.Fine

theorem Settles.mono {events events' : Event → Prop} {j : Jump} {o : Outcome α}
    (h : Settles events carries j o)
    (hle : ∀ e, events e → events' e) : Settles events' carries j o :=
  h.imp_left fun ⟨b, hb⟩ => ⟨b, hle _ hb⟩

namespace Outcome.Fits

theorem imp {o : Outcome α} (h : o.Fits source m P) (himp : ∀ a c, P a c → P' a c) :
    o.Fits source m P' := by
  cases o with
  | done a m' => exact ⟨h.1, h.2.1, himp a m'.cursor h.2.2⟩
  | fault e m' => exact h
  | outOfFuel => trivial

theorem after {o : Outcome α} {m₁ : Machine} (h : o.Fits source m₁ P)
    (hgrown : m.cursor.cache.toList <+: m₁.cursor.cache.toList) : o.Fits source m P := by
  cases o with
  | done a m' => exact ⟨h.1, hgrown.trans h.2.1, h.2.2⟩
  | fault e m' => exact h
  | outOfFuel => trivial

end Outcome.Fits

namespace Follows

theorem fits (h : Follows source pending carries P x m) : (x .none m).Fits source m P := by
  obtain ⟨events, hc⟩ := h
  exact hc.fits

/-! ## Where nothing happens -/

theorem quiet {x : Exec α} (h : (x m).Fits source m P)
    (hpending : ∀ j, pending = some j → Settles (fun _ => False) carries j (x m)) :
    Follows source pending carries P (fun _ => x) m := by
  refine ⟨fun _ => False, ?_, ?_, h, ?_, ?_⟩
  · intro w e he
    exact he.elim
  · intro w _
    rfl
  · intro e he
    exact he.elim
  · intro j hj
    exact hpending j (hj.resolve_left id)

theorem const {x : Exec α} (h : (x m).Fits source m P) :
    Follows source none carries P (fun _ => x) m :=
  quiet h fun j hj => by cases hj

/-- A jump is passed on with the result. -/
theorem pure_of {a : α} (hm : m.Lexed source) (ha : P a m.cursor)
    (hpending : ∀ j, pending = some j → carries a = some j) :
    Follows source pending carries P (fun _ => Pure.pure a) m :=
  quiet ⟨hm, List.prefix_refl _, ha⟩ fun j hj => .inr (.inl ⟨a, m, rfl, hpending j hj⟩)

theorem pure {a : α} (hm : m.Lexed source) (ha : P a m.cursor) :
    Follows source none carries P (fun _ => Pure.pure a) m :=
  const ⟨hm, List.prefix_refl _, ha⟩

theorem fail_of {e : Error} (he : e.Lexical source)
    (hpending : ∀ j, pending = some j → e = j.error) :
    Follows source pending carries P (fun _ => fail e) m :=
  quiet he fun j hj => .inr (.inr ⟨m, congrArg (Outcome.fault · m) (hpending j hj)⟩)

/-- A jump that leads nowhere is complained about. -/
theorem complain {j : Jump} (h : j.Aims source none) :
    Follows source (some j) carries P (fun _ => Exec.fail j.error) m := by
  refine fail_of h.lexical_error fun j' hj' => ?_
  cases hj'
  rfl

theorem fail {e : Error} (h : ∀ j : Jump, e ≠ j.error) :
    Follows source none carries P (fun _ => fail e) m :=
  const (Error.Lexical.of_ne h)

theorem failParse (cause : ParseCause) (location : Location) :
    Follows source none carries P (fun _ => failParse cause location) m :=
  fail fun _ => Error.noConfusion

theorem raise {cause : RuntimeCause} (h : ∀ keyword, cause ≠ .invalidContext keyword)
    (location : Location) :
    Follows source none carries P (fun _ => raise cause location) m :=
  fail fun j hj => h j.keyword (RuntimeError.mk.inj (Error.runtime.inj hj)).1

theorem outOfFuel : Follows source none carries P (fun _ => outOfFuel) m := const trivial

/-! ## Sequences and loops -/

theorem imp (h : Follows source pending carries P x m) (himp : ∀ a c, P a c → P' a c) :
    Follows source pending carries P' x m := by
  obtain ⟨events, hc⟩ := h
  exact ⟨events, hc.stops, hc.same, hc.fits.imp himp, hc.lexical, hc.settled⟩

/-- The result passes on at least as much. -/
theorem passing {carries' : α → Option Jump} (h : Follows source pending carries P x m)
    (hcarries : ∀ {a c j}, P a c → carries a = some j → carries' a = some j) :
    Follows source pending carries' P x m := by
  obtain ⟨events, hc⟩ := h
  refine ⟨events, hc.stops, hc.same, hc.fits, hc.lexical, fun j hj => ?_⟩
  rcases hc.settled j hj with htaken | ⟨a, m₁, hrun, ha⟩ | hfault
  · exact .inl htaken
  · have hfits := hc.fits
    rw [hrun] at hfits
    exact .inr (.inl ⟨a, m₁, hrun, hcarries hfits.2.2 ha⟩)
  · exact .inr (.inr hfault)

/-- One thing after the other.  What the first one passes on is pending for the second one. -/
theorem bind {f : Lookout → α → Exec β} (hx : Follows source pending carries P x m)
    (hf : ∀ {a m₁}, x .none m = .done a m₁ → m₁.Lexed source →
      m.cursor.cache.toList <+: m₁.cursor.cache.toList →
      P a m₁.cursor → Follows source (carries a) passes Q (fun w => f w a) m₁) :
    Follows source pending passes Q (fun w => x w >>= f w) m := by
  obtain ⟨events, hc⟩ := hx
  -- The second part counts only if the first one is done; otherwise the events of the first one are
  -- all there are.
  have hstops {w : Lookout} {e : Event} (he : events e) (hw : w e = true) :
      ∃ m', (x w >>= f w) m = .fault sighted m' := by
    obtain ⟨m', hm'⟩ := hc.stops he hw
    exact ⟨m', bind_fault hm'⟩
  have hfits := hc.fits
  cases hrun : x .none m with
  | done a m₁ =>
    rw [hrun] at hfits
    obtain ⟨hm₁, hgrown, ha⟩ := hfits
    obtain ⟨later, hl⟩ := hf hrun hm₁ hgrown ha
    have hwhole : (x .none >>= f .none) m = f .none a m₁ := bind_done hrun
    refine ⟨fun e => events e ∨ later e, ?_, ?_, ?_, ?_, ?_⟩
    · intro w e he hw
      by_cases hearly : ∃ e', events e' ∧ w e' = true
      · obtain ⟨e', he', hw'⟩ := hearly
        exact hstops he' hw'
      · have hquiet : ∀ e', events e' → w e' = false :=
          fun e' he' => Bool.eq_false_iff.mpr fun hw' => hearly ⟨e', he', hw'⟩
        obtain ⟨m', hm'⟩ := hl.stops (he.resolve_left fun h => hearly ⟨e, h, hw⟩) hw
        exact ⟨m', (bind_done ((hc.same hquiet).trans hrun)).trans hm'⟩
    · intro w hw
      have hfirst := (hc.same fun e he => hw e (.inl he)).trans hrun
      exact (bind_done hfirst).trans ((hl.same fun e he => hw e (.inr he)).trans hwhole.symm)
    · rw [hwhole]
      exact hl.fits.after hgrown
    · intro e he
      exact he.elim (hc.lexical e) (hl.lexical e)
    · intro j hj
      rw [hwhole]
      have hlate (h : later (.made j) ∨ carries a = some j) :
          Settles (fun e => events e ∨ later e) passes j (f .none a m₁) :=
        (hl.settled j h).mono fun _ => .inr
      by_cases hmade : later (.made j)
      · exact hlate (.inl hmade)
      · have hfirst := hc.settled j (hj.imp_left fun h => h.resolve_right hmade)
        rw [hrun] at hfirst
        rcases hfirst with ⟨b, hb⟩ | ⟨_, _, hdone, hcarries⟩ | ⟨_, hfault⟩
        · exact .inl ⟨b, .inl hb⟩
        · cases hdone
          exact hlate (.inr hcarries)
        · cases hfault
  | fault e m₁ =>
    have hwhole : (x .none >>= f .none) m = .fault e m₁ := bind_fault hrun
    rw [hrun] at hfits
    refine ⟨events, hstops, ?_, ?_, hc.lexical, ?_⟩
    · intro w hw
      exact (bind_fault ((hc.same hw).trans hrun)).trans hwhole.symm
    · rw [hwhole]
      exact hfits
    · intro j hj
      have hfirst := hc.settled j hj
      rw [hrun] at hfirst
      rw [hwhole]
      rcases hfirst with ⟨b, hb⟩ | ⟨_, _, hdone, _⟩ | ⟨m', hfault⟩
      · exact .inl ⟨b, hb⟩
      · cases hdone
      · cases hfault
        exact .inr (.inr ⟨m₁, rfl⟩)
  | outOfFuel =>
    have hwhole : (x .none >>= f .none) m = .outOfFuel := bind_outOfFuel hrun
    refine ⟨events, hstops, ?_, ?_, hc.lexical, ?_⟩
    · intro w hw
      exact (bind_outOfFuel ((hc.same hw).trans hrun)).trans hwhole.symm
    · rw [hwhole]
      trivial
    · intro j hj
      have hfirst := hc.settled j hj
      rw [hrun] at hfirst
      rcases hfirst with ⟨b, hb⟩ | ⟨_, _, hdone, _⟩ | ⟨_, hfault⟩
      · exact .inl ⟨b, hb⟩
      · cases hdone
      · cases hfault

/-- A loop keeps to what one turn keeps to. -/
theorem loop {J : σ → Cursor → Prop} {body : Lookout → σ → Exec (Turn σ β)} {fuel : Lookout → Nat}
    {n : Nat} {s : σ}
    (hbody : ∀ {s m₁}, m₁.Lexed source → m.cursor.cache.toList <+: m₁.cursor.cache.toList →
      J s m₁.cursor →
      Follows source none (Turn.carries passes) (fun turn c => turn.All (J · c) (Q · c))
      (fun w => body w s) m₁)
    (hfuel : ∀ w, fuel w = n) (hm : m.Lexed source) (hs : J s m.cursor) :
    Follows source none passes Q (fun w => Exec.loop (body w) (fuel w) s) m := by
  simp only [hfuel]
  clear hfuel
  suffices h : ∀ {s m₁}, m₁.Lexed source → m.cursor.cache.toList <+: m₁.cursor.cache.toList →
    J s m₁.cursor →
      Follows source none passes Q (fun w => Exec.loop (body w) n s) m₁ from
      h hm (List.prefix_refl _) hs
  induction n with
  | zero => exact fun _ _ _ => outOfFuel
  | succ n ih =>
    intro s m₁ hm₁ hgrown hs
    simp only [loop_succ]
    refine (hbody hm₁ hgrown hs).bind fun {turn m₂} _ hm₂ hgrown₂ hturn => ?_
    cases turn with
    | again s' => exact ih hm₂ (hgrown.trans hgrown₂) hturn
    | stop b => exact pure_of hm₂ hturn fun j hj => hj

/-! ## Events -/

/-- The one thing that happens is `e`. -/
theorem notice {e : Event} {a : α} (hm : m.Lexed source) (ha : P a m.cursor) (he : e.Lexical source)
    (hsettled : ∀ j, e = .made j ∨ pending = some j → (∃ b, e = .taken b j) ∨ carries a = some j) :
    Follows source pending carries P
      (fun w => if w e then Exec.fail sighted else Pure.pure a) m := by
  refine ⟨(e = ·), ?_, ?_, ⟨hm, List.prefix_refl _, ha⟩, ?_, ?_⟩
  · rintro w _ rfl hw
    rw [if_pos hw]
    exact ⟨m, rfl⟩
  · intro w hw
    rw [hw e rfl]
  · rintro _ rfl
    exact he
  · intro j hj
    rcases hsettled j hj with htaken | hcarries
    · exact .inl htaken
    · exact .inr (.inl ⟨a, m, rfl, hcarries⟩)

/-- A statement that ends with a jump has made it. -/
theorem making {P : Signal → Cursor → Prop} {x : Lookout → Exec Signal}
    (hx : Follows source none Signal.jump? P x m)
    (haims : ∀ {s c j}, P s c → s.jump? = some j → ∃ target, j.Aims source target) :
    Follows source none Signal.jump? P (fun w => (x w).heeding fun j => w (.made j)) m := by
  refine hx.bind fun {s m₁} _ hm₁ _ hs => ?_
  cases hjump : s.jump? with
  | none => exact pure_of hm₁ hs fun j hj => by cases hj
  | some j =>
    refine notice hm₁ hs (haims hs hjump) fun j' hj' => .inr ?_
    rcases hj' with heq | heq <;> cases heq <;> exact hjump

/-- Inside of braces that take it a jump goes no further. -/
theorem taking {b : Brace} {P : Signal → Cursor → Prop} {x : Lookout → Exec Signal}
    (hx : Follows source none Signal.jump? P x m)
    (haims : ∀ {s c j}, P s c → s.jump? = some j → b.takes j.keyword = true →
      j.Aims source (some b)) :
    Follows source none b.leaves P
      (fun w => (x w).heeding fun j => b.takes j.keyword && w (.taken b j)) m := by
  refine hx.bind fun {s m₁} _ hm₁ _ hs => ?_
  cases hjump : s.jump? with
  | none => exact pure_of hm₁ hs fun j hj => by cases hj
  | some j =>
    cases htakes : b.takes j.keyword with
    | false =>
      simp only [Option.any_some, htakes, Bool.false_and]
      refine pure_of hm₁ hs fun j' hj' => ?_
      cases hj'
      rw [Brace.leaves, hjump, Option.filter_some, htakes]
      rfl
    | true =>
      simp only [Option.any_some, htakes, Bool.true_and]
      refine notice hm₁ hs (haims hs hjump htakes) fun j' hj' => .inl ?_
      rcases hj' with heq | heq <;> cases heq
      exact ⟨b, rfl⟩

/-! ## Cleaning up -/

/-- Something is made of the outcome that keeps its result or error. -/
theorem through {y : Lookout → Exec α} {m' : Machine} (hx : Follows source pending carries P x m)
    (post : Outcome α → Outcome α) (hy : ∀ w, y w m' = post (x w m))
    (hdone : ∀ {a m₁}, x .none m = .done a m₁ → (Outcome.done a m₁).Fits source m P →
      ∃ m₂, post (.done a m₁) = .done a m₂ ∧ (Outcome.done a m₂).Fits source m' P')
    (hfault : ∀ {w e m₁}, x w m = .fault e m₁ → ∃ m₂, post (.fault e m₁) = .fault e m₂)
    (hfuel : post .outOfFuel = .outOfFuel) : Follows source pending carries P' y m' := by
  obtain ⟨events, hc⟩ := hx
  have hfits := hc.fits
  refine ⟨events, ?_, ?_, ?_, hc.lexical, ?_⟩
  · intro w e he hw
    obtain ⟨m₁, hm₁⟩ := hc.stops he hw
    obtain ⟨m₂, hm₂⟩ := hfault hm₁
    exact ⟨m₂, by rw [hy, hm₁, hm₂]⟩
  · intro w hw
    rw [hy, hy, hc.same hw]
  · rw [hy]
    cases hrun : x .none m with
    | done a m₁ =>
      obtain ⟨m₂, hm₂, hend⟩ := hdone hrun (hrun ▸ hfits)
      rw [hm₂]
      exact hend
    | fault e m₁ =>
      rw [hrun] at hfits
      obtain ⟨m₂, hm₂⟩ := hfault hrun
      rw [hm₂]
      exact hfits
    | outOfFuel =>
      rw [hfuel]
      trivial
  · intro j hj
    rw [hy]
    rcases hc.settled j hj with htaken | ⟨a, m₁, hrun, hcarries⟩ | ⟨m₁, hrun⟩
    · exact .inl htaken
    · obtain ⟨m₂, hm₂, _⟩ := hdone hrun (hrun ▸ hfits)
      exact .inr (.inl ⟨a, m₂, by rw [hrun, hm₂], hcarries⟩)
    · obtain ⟨m₂, hm₂⟩ := hfault hrun
      exact .inr (.inr ⟨m₂, by rw [hrun, hm₂]⟩)

/-- Only what is done from this state matters. -/
theorem congr {y : Lookout → Exec α} {m' : Machine} (hx : Follows source pending carries P x m)
    (hgrown : m'.cursor.cache.toList <+: m.cursor.cache.toList) (hy : ∀ w, y w m' = x w m) :
    Follows source pending carries P y m' :=
  hx.through id hy (fun {_ m₁} _ h => ⟨m₁, rfl, h.after hgrown⟩) (fun {_ _ m₁} _ => ⟨m₁, rfl⟩) rfl

theorem ensuring {cleanup : Exec Unit} (hx : Follows source pending carries P x m)
    (hdone : ∀ {a m₁}, x .none m = .done a m₁ → (Outcome.done a m₁).Fits source m P →
      ∃ m₂, cleanup m₁ = .done () m₂ ∧ (Outcome.done a m₂).Fits source m P')
    (hfault : ∀ {w e m₁}, x w m = .fault e m₁ → ∃ m₂, cleanup m₁ = .done () m₂) :
    Follows source pending carries P' (fun w => Exec.ensuring (x w) cleanup) m := by
  refine hx.through (fun o => Exec.ensuring (fun _ => o) cleanup m) (fun w => rfl) ?_ ?_ rfl
  · intro a m₁ hrun hfits
    obtain ⟨m₂, hclean, hend⟩ := hdone hrun hfits
    exact ⟨m₂, ensuring_done rfl hclean, hend⟩
  · intro w e m₁ hrun
    obtain ⟨m₂, hclean⟩ := hfault hrun
    exact ⟨m₂, ensuring_fault rfl hclean⟩

/-- The scope that was current before has to be there still. -/
theorem inScope {scope : ScopeId}
    (hx : Follows source pending carries P x { m with current := scope })
    (hm : ∀ {a m₁}, x .none { m with current := scope } = .done a m₁ →
      m₁.scopes.contains m.current = true) :
    Follows source pending carries P (fun w => Exec.inScope scope (x w)) m := by
  refine hx.through (fun o => Exec.inScope scope (fun _ => o) m) (fun w => rfl) ?_ ?_ rfl
  · rintro a m₁ hrun ⟨hm₁, hgrown, ha⟩
    have hcurrent := hm hrun
    exact ⟨_, rfl, ⟨{ hm₁.sound with current := hcurrent }, hm₁.tracks, hm₁.headed⟩, hgrown, ha⟩
  · intro w e m₁ _
    exact ⟨_, rfl⟩

end Follows

end Replay
