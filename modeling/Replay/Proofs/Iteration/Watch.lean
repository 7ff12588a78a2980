import Replay.Proofs.Lexical
/-!
Watches that are in vain.

A watch may be silent in all states that a frame allows.  Then no rule is ever started in a state
that it looks out for, and the rules do with the watch what they do without it.
-/

namespace Replay

open Exec

namespace Exec

variable {α β σ : Type} {m : Machine}

theorem bind_congr_run {x y : Exec α} {f g : α → Exec β} (hx : x m = y m)
    (hf : ∀ {a m₁}, y m = .done a m₁ → f a m₁ = g a m₁) : (x >>= f) m = (y >>= g) m := by
  cases hy : y m with
  | done a m₁ => rw [bind_done (hx.trans hy), bind_done hy, hf hy]
  | fault e m₁ => rw [bind_fault (hx.trans hy), bind_fault hy]
  | outOfFuel => rw [bind_outOfFuel (hx.trans hy), bind_outOfFuel hy]

theorem inScope_congr {scope : ScopeId} {x y : Exec α}
    (h : x { m with current := scope } = y { m with current := scope }) :
    inScope scope x m = inScope scope y m := by
  simp only [inScope, h]

theorem ensuring_congr {x y : Exec α} (cleanup : Exec Unit) (h : x m = y m) :
    ensuring x cleanup m = ensuring y cleanup m := by
  simp only [ensuring, h]

end Exec

namespace Frame

/-- With the watch or without it, the same happens in the states that the frame allows, and such a
state is left. -/
structure Agrees (f : Frame) (here : ScopeId → Prop) (w : Watch) {α : Type} (Q : α → Prop)
    (x : Watch → Exec α) :
    Prop where
  keeps : (x fun _ => false).Keeps (f.Holds here) Q
  same : ∀ m, f.Holds here m → x w m = x (fun _ => false) m

namespace Agrees

variable {f : Frame} {here : ScopeId → Prop} {w : Watch} {α β σ : Type} {P : α → Prop}
  {Q : β → Prop}

theorem const {x : Exec α} (h : x.Keeps (f.Holds here) P) : f.Agrees here w P fun _ => x :=
  ⟨h, fun _ _ => rfl⟩

theorem bind {x : Watch → Exec α} {g : Watch → α → Exec β} (hx : f.Agrees here w P x)
    (hg : ∀ a, P a → f.Agrees here w Q fun w => g w a) :
    f.Agrees here w Q fun w => x w >>= g w where
  keeps := hx.keeps.bind fun a ha => (hg a ha).keeps
  same m hm := by
    refine bind_congr_run (hx.same m hm) fun {a m₁} hrun => ?_
    have hall := hx.keeps m hm
    rw [hrun] at hall
    exact (hg a hall.1).same m₁ hall.2

theorem loop {body : Watch → σ → Exec (Turn σ β)} {I : σ → Prop}
    (h : ∀ s, I s → f.Agrees here w (Turn.All I Q) fun w => body w s) (n : Nat) {s : σ} (hs : I s) :
    f.Agrees here w Q fun w => loop (body w) n s := by
  induction n generalizing s with
  | zero => exact const (.outOfFuel Q)
  | succ n ih =>
    simp only [loop_succ]
    refine (h s hs).bind fun turn hturn => ?_
    cases turn with
    | again s' => exact ih hturn
    | stop b => exact const (.pure hturn)

theorem inScope {scope : ScopeId} {x : Watch → Exec α} (hscope : f.Fresh scope)
    (h : f.Agrees f.Local w P x) :
    f.Agrees here w P fun w => inScope scope (x w) where
  keeps := h.keeps.inScope hscope
  same _ hm := inScope_congr (h.same _ ⟨hm.scopes, .inr hscope⟩)

theorem ensuring {x : Watch → Exec α} {cleanup : Exec Unit} (hx : f.Agrees here w P x)
    (hc : cleanup.Keeps (f.Holds here) fun _ => True) :
    f.Agrees here w P fun w => ensuring (x w) cleanup where
  keeps := hx.keeps.ensuring hc
  same m hm := ensuring_congr cleanup (hx.same m hm)

theorem withChild {parent : ScopeId} {body : Watch → ScopeId → Exec α} (hparent : f.Open parent)
    (kind : ScopeKind) (h : ∀ scope, f.Fresh scope → f.Agrees here w P fun w => body w scope) :
    f.Agrees here w P fun w => withChild parent kind (body w) :=
  (const (.createScope hparent kind)).bind fun scope hscope =>
  (h scope hscope).ensuring (.destroyScope hscope)

theorem watched {x : Watch → Exec α} (hw : ∀ m, f.Holds here m → w m = false)
    (h : f.Agrees here w P x) :
    f.Agrees here w P fun w => (x w).watched w where
  keeps := h.keeps
  same m hm := by
    rw [watched_run (hw m hm)]
    exact h.same m hm

theorem calling {procedure : Procedure} {body : Watch → Exec Signal} {R : Signal → Prop}
    (hp : f.Open procedure.scope) (hw : ∀ m, f.Holds here m → w m = false)
    (h : f.Agrees f.Local w R body) (arguments : List Value) (location : Location) :
    f.Agrees here w R fun w => calling w procedure arguments location (body w) := by
  refine bind (P := fun _ => True) (const fun m hm => ⟨trivial, hm⟩) fun p _ => ?_
  refine bind (const (.pushCall Holds.calls _ location)) fun _ _ => ?_
  refine bind (const (.moveCursor Holds.on _)) fun _ _ => watched hw ?_
  exact (const (.createScope hp .procedure)).bind fun _ hscope =>
    (h.inScope hscope).ensuring ((Exec.Keeps.destroyScope hscope).bind fun _ _ => .leaveCall)

end Agrees
end Frame

variable {f : Frame} {w : Watch}

end Replay
