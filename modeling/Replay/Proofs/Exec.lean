import Replay.Interpreter
/-!
Computations, one step at a time.

A computation is opened by saying how its first part ended: the lemmas below continue from there,
and take an answer of the whole apart into answers of the parts.
-/

namespace Replay

def Machine.on (m : Machine) (c : Cursor) : Machine := { m with cursor := c }

namespace Machine

@[simp] theorem on_cursor (m : Machine) (c : Cursor) : (m.on c).cursor = c := rfl
@[simp] theorem on_scopes (m : Machine) (c : Cursor) : (m.on c).scopes = m.scopes := rfl
@[simp] theorem on_calls (m : Machine) (c : Cursor) : (m.on c).calls = m.calls := rfl
@[simp] theorem on_current (m : Machine) (c : Cursor) : (m.on c).current = m.current := rfl
@[simp] theorem on_out (m : Machine) (c : Cursor) : (m.on c).out = m.out := rfl
@[simp] theorem on_on (m : Machine) (c d : Cursor) : (m.on c).on d = m.on d := rfl
@[simp] theorem on_self (m : Machine) : m.on m.cursor = m := rfl

end Machine

namespace Outcome

variable {α : Type} {o : Outcome α}

/-- How a computation has ended, without the state it has left behind. -/
def result? : Outcome α → Option (Except Error α)
  | done a _ => some (.ok a)
  | fault e _ => some (.error e)
  | outOfFuel => none

theorem exists_of_result_ok {a : α} (h : o.result? = some (.ok a)) : ∃ m, o = .done a m := by
  cases o <;> cases h
  exact ⟨_, rfl⟩

theorem exists_of_result_error {e : Error} (h : o.result? = some (.error e)) :
    ∃ m, o = .fault e m := by
  cases o <;> cases h
  exact ⟨_, rfl⟩

end Outcome

/-! Two answers are compared by evaluation.  Only where both are reals this comes to nothing, as
equality of reals is not computed. -/

noncomputable instance decidableEqFloat : DecidableEq Float := fun _ _ => Classical.propDecidable _

deriving noncomputable instance DecidableEq for Token, ParseCause, ParseError, Error, Value, Signal

namespace Exec

variable {α β σ : Type}

/-! ## Sequences -/

theorem bind_done {x : Exec α} {f : α → Exec β} {m m' : Machine} {a : α} (h : x m = .done a m') :
    (x >>= f) m = f a m' := by
  show Exec.bind x f m = f a m'
  simp only [Exec.bind, h]

theorem bind_fault {x : Exec α} {f : α → Exec β} {m m' : Machine} {e : Error}
    (h : x m = .fault e m') :
    (x >>= f) m = .fault e m' := by
  show Exec.bind x f m = .fault e m'
  simp only [Exec.bind, h]

theorem bind_outOfFuel {x : Exec α} {f : α → Exec β} {m : Machine} (h : x m = .outOfFuel) :
    (x >>= f) m = .outOfFuel := by
  show Exec.bind x f m = .outOfFuel
  simp only [Exec.bind, h]

theorem of_bind_done {x : Exec α} {f : α → Exec β} {m m' : Machine} {b : β}
    (h : (x >>= f) m = .done b m') : ∃ a m₁, x m = .done a m₁ ∧ f a m₁ = .done b m' := by
  cases hx : x m with
  | done a m₁ => exact ⟨a, m₁, rfl, by rwa [bind_done hx] at h⟩
  | fault e m₁ => rw [bind_fault hx] at h; cases h
  | outOfFuel => rw [bind_outOfFuel hx] at h; cases h

theorem of_bind_fault {x : Exec α} {f : α → Exec β} {m m' : Machine} {e : Error}
    (h : (x >>= f) m = .fault e m') :
    x m = .fault e m' ∨ ∃ a m₁, x m = .done a m₁ ∧ f a m₁ = .fault e m' := by
  cases hx : x m with
  | done a m₁ => exact .inr ⟨a, m₁, rfl, by rwa [bind_done hx] at h⟩
  | fault e₁ m₁ =>
    rw [bind_fault hx] at h
    cases h
    exact .inl rfl
  | outOfFuel => rw [bind_outOfFuel hx] at h; cases h

instance : LawfulMonad Exec :=
  LawfulMonad.mk' Exec
    (fun x => by
      funext m
      show Exec.bind x (fun a => Exec.pure a) m = x m
      unfold Exec.bind Exec.pure
      cases x m <;> rfl)
    (fun _ _ => rfl)
    (fun x f g => by
      funext m
      show Exec.bind (Exec.bind x f) g m = Exec.bind x (fun a => Exec.bind (f a) g) m
      unfold Exec.bind
      cases x m <;> rfl)

/-! ## Cleaning up -/

theorem ensuring_done {body : Exec α} {cleanup : Exec Unit} {m m₁ m₂ : Machine} {a : α}
    (h : body m = .done a m₁) (hc : cleanup m₁ = .done () m₂) :
    ensuring body cleanup m = .done a m₂ := by
  simp only [ensuring, h, hc]

theorem ensuring_fault {body : Exec α} {cleanup : Exec Unit} {m m₁ m₂ : Machine} {e : Error}
    (h : body m = .fault e m₁) (hc : cleanup m₁ = .done () m₂) :
    ensuring body cleanup m = .fault e m₂ := by
  simp only [ensuring, h, hc]

theorem ensuring_outOfFuel {body : Exec α} {cleanup : Exec Unit} {m : Machine}
    (h : body m = .outOfFuel) :
    ensuring body cleanup m = .outOfFuel := by
  simp only [ensuring, h]

/-! ## Loops -/

/-- A loop that may still turn is one turn and what it asks for. -/
theorem loop_succ (body : σ → Exec (Turn σ β)) (fuel : Nat) (s : σ) :
    loop body (fuel + 1) s = body s >>= fun turn =>
      match turn with
      | .again s => loop body fuel s
      | .stop b => pure b := by
  funext m
  cases h : body s m with
  | done turn m' =>
    rw [bind_done h]
    cases turn with
    | again s' => simp only [loop, h]
    | stop b => simp only [loop, h]; rfl
  | fault e m' => rw [bind_fault h]; simp only [loop, h]
  | outOfFuel => rw [bind_outOfFuel h]; simp only [loop, h]

end Exec
end Replay
