import Replay.Proofs.Exec
/-!
What comes of a computation if it is given enough fuel.

A rule is a family of computations, one for each amount of fuel.  The family converges to an outcome
if that is the outcome with enough fuel, and with less fuel there is that outcome or none.
-/

namespace Replay

open Exec

variable {α β σ : Type}

def Exec.afterTurn (rest : σ → Exec β) : Turn σ β → Exec β
  | .again s => rest s
  | .stop b => pure b

theorem Exec.loop_turn (body : σ → Exec (Turn σ β)) (fuel : Nat) (s : σ) :
    loop body (fuel + 1) s = body s >>= afterTurn (loop body fuel) := by
  rw [loop_succ]
  congr 1

def Outcome.ofResult (result : Except Error α) (m : Machine) : Outcome α :=
  match result with
  | .ok a => .done a m
  | .error e => .fault e m

structure Converges (X : Nat → Exec α) (m : Machine) (o : Outcome α) : Prop where
  only : ∀ k, X k m = .outOfFuel ∨ X k m = o
  enough : ∃ bound, ∀ k, bound ≤ k → X k m = o

namespace Converges

variable {X : Nat → Exec α} {F : Nat → α → Exec β} {m m₁ m' : Machine} {o : Outcome α}
  {a : α} {e : Error}

theorem exists_run (h : Converges X m o) : ∃ k, X k m = o := by
  obtain ⟨bound, hbound⟩ := h.enough
  exact ⟨bound, hbound bound (Nat.le_refl _)⟩

/-- An outcome that was reached is the outcome. -/
theorem eq_of_run (h : Converges X m o) {k : Nat} (hk : X k m ≠ .outOfFuel) : X k m = o :=
  (h.only k).resolve_left hk

/-- More fuel does not change an outcome. -/
theorem of_mono (hmono : ∀ {n k}, n ≤ k → X n m = .outOfFuel ∨ X k m = X n m) {k : Nat}
    (hk : X k m ≠ .outOfFuel) : Converges X m (X k m) where
  only n := by
    rcases Nat.le_total n k with hle | hle
    · rcases hmono hle with hn | hn
      · exact .inl hn
      · exact .inr hn.symm
    · exact .inr ((hmono hle).resolve_left hk)
  enough := ⟨k, fun n hle => (hmono hle).resolve_left hk⟩

theorem const {x : Exec α} (h : x m = o) : Converges (fun _ => x) m o where
  only _ := .inr h
  enough := ⟨0, fun _ _ => h⟩

/-! ## Sequences -/

theorem bind_done {o : Outcome β} (hX : Converges X m (.done a m₁))
    (hF : Converges (fun k => F k a) m₁ o) :
    Converges (fun k => X k >>= F k) m o where
  only k := by
    rcases hX.only k with hk | hk
    · exact .inl (bind_outOfFuel hk)
    · rw [Exec.bind_done hk]
      exact hF.only k
  enough := by
    obtain ⟨bound, hbound⟩ := hX.enough
    obtain ⟨bound', hbound'⟩ := hF.enough
    refine ⟨max bound bound', fun k hk => ?_⟩
    rw [Exec.bind_done (hbound k (Nat.le_trans (Nat.le_max_left _ _) hk))]
    exact hbound' k (Nat.le_trans (Nat.le_max_right _ _) hk)

theorem bind_fault (hX : Converges X m (.fault e m')) :
    Converges (fun k => X k >>= F k) m (.fault e m') where
  only k := by
    rcases hX.only k with hk | hk
    · exact .inl (bind_outOfFuel hk)
    · exact .inr (Exec.bind_fault hk)
  enough := by
    obtain ⟨bound, hbound⟩ := hX.enough
    exact ⟨bound, fun k hk => Exec.bind_fault (hbound k hk)⟩

/-- What is made of an outcome is made of what a family converges to. -/
theorem through {Y : Nat → Exec β} {o : Outcome α} {o' : Outcome β} {m' : Machine}
    (h : Converges X m o)
    (hout : ∀ {k}, X k m = .outOfFuel → Y k m' = .outOfFuel) (ho : ∀ {k}, X k m = o → Y k m' = o') :
    Converges Y m' o' where
  only k := (h.only k).imp hout ho
  enough := by
    obtain ⟨bound, hbound⟩ := h.enough
    exact ⟨bound, fun k hk => ho (hbound k hk)⟩

/-! ## Levels and turns -/

/-- A level of rules more. -/
theorem succ (h₀ : X 0 m = .outOfFuel) (h : Converges (fun k => X (k + 1)) m o) :
    Converges X m o where
  only k := by
    cases k with
    | zero => exact .inl h₀
    | succ k => exact h.only k
  enough := by
    obtain ⟨bound, hbound⟩ := h.enough
    refine ⟨bound + 1, fun k hk => ?_⟩
    obtain ⟨k, rfl⟩ := Nat.exists_eq_add_of_le' hk
    exact hbound (k + bound) (Nat.le_add_left _ _)

/-- With little fuel there is no outcome, and with more of it that of another family. -/
theorem above {Y : Nat → Exec α} {t : Nat} (hlow : ∀ k, k ≤ t → X k m = .outOfFuel)
    (hhigh : ∀ k, t < k → X k m = Y k m) (h : Converges Y m o) : Converges X m o where
  only k := by
    by_cases hk : t < k
    · rw [hhigh k hk]
      exact h.only k
    · exact .inl (hlow k (Nat.le_of_not_lt hk))
  enough := by
    obtain ⟨bound, hbound⟩ := h.enough
    refine ⟨max bound (t + 1), fun k hk => ?_⟩
    have hle : bound ≤ k := Nat.le_trans (Nat.le_max_left _ _) hk
    rw [hhigh k (Nat.le_trans (Nat.le_max_right _ _) hk)]
    exact hbound k hle

end Converges
end Replay
