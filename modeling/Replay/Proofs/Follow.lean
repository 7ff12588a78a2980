import Replay.Proofs.Contract.Statement
import Replay.Proofs.Converge
import Replay.Proofs.Shape
import Replay.Proofs.Tape
import Replay.Proofs.Walk
/-!
The interpreter follows a walk over the tree.

The interpreter stands at a token and the walk at a place of the tree.  As long as the two agree on
everything else, each rule of the interpreter does what the walk does there, and then they agree
again: the interpreter behind the tokens of the part of the tree that was walked over.  What this
means for sequences of computations, for reading tokens and for errors is said here, for all rules
at once.
-/

namespace Replay

open Exec

/-! ## Walks -/

namespace Walk

variable {α β : Type} {x : Walk α} {f : α → Walk β} {w w' : World}

theorem bind_ok {a : α} (h : x w = some (.ok a, w')) : (x >>= f) w = f a w' := by
  simp only [bind, ExceptT.bind, ExceptT.mk, StateT.bind, h]
  rfl

theorem bind_error {e : Error} (h : x w = some (.error e, w')) :
    (x >>= f) w = some (.error e, w') := by
  simp only [bind, ExceptT.bind, ExceptT.mk, StateT.bind, h]
  rfl

theorem bind_none (h : x w = none) : (x >>= f) w = none := by
  simp only [bind, ExceptT.bind, ExceptT.mk, StateT.bind, h]
  rfl

end Walk

/-! ## Agreement -/

def UpdatesAlike (alike : ScopeTree → ScopeTree → Prop)
    (r r' : Except InternalError (Option ScopeTree)) : Prop :=
  match r, r' with
  | .ok (some t), .ok (some u) => alike t u
  | .ok none, .ok none => True
  | .error e, .error e' => e = e'
  | _, _ => False

/-- What the two sides have to agree on: the tokens ahead, which trees of scopes are taken for the
same, and which values there may be. -/
structure View where
  tape : Cursor
  alike : ScopeTree → ScopeTree → Prop
  known : Value → Prop
  lookup_eq : ∀ {t u}, alike t u → ∀ id name, t.lookup id name = u.lookup id name
  assign_alike : ∀ {t u}, alike t u →
    ∀ id name value, UpdatesAlike alike (t.assign? id name value) (u.assign? id name value)
  plain : ∀ {v : Value}, v.kind ≠ .procedure → known v

namespace View

/-- Wherever the interpreter stands, for the rest it is where the walk is. -/
structure Like (V : View) (m : Machine) (w : World) : Prop where
  grown : m.cursor.Grown V.tape
  scopes : V.alike m.scopes w.scopes
  current : m.current = w.current
  depth : m.calls.depth = w.depth
  maxDepth : m.calls.maxDepth = w.maxDepth
  out : m.out = w.out
  known : m.scopes.Holds V.known

/-- The interpreter stands at the token with the number `i`, and for the rest it is where the walk
is. -/
structure Agree (V : View) (i : Nat) (m : Machine) (w : World) : Prop extends V.Like m w where
  sound : m.Sound
  position : m.cursor.position = i

structure Fails (V : View) (m : Machine) (w : World) : Prop where
  scopes : V.alike m.scopes w.scopes
  out : m.out = w.out

variable {V : View} {i j n : Nat} {m : Machine} {w : World}

theorem Like.fails (h : V.Like m w) : V.Fails m w := ⟨h.scopes, h.out⟩

namespace Agree

theorem fails (h : V.Agree i m w) : V.Fails m w := h.toLike.fails

theorem on (h : V.Agree i m w) {d : Cursor} (hd : m.cursor.Grown d) (hg : d.Grown V.tape)
    (hin : d.Inside) (hpos : d.position = j) : V.Agree j (m.on d) w :=
  ⟨⟨hg, h.scopes, h.current, h.depth, h.maxDepth, h.out, h.known⟩, h.sound.on hd.cache_le hin, hpos⟩

theorem place (h : V.Agree i m w) {p : Nat} (hp : p ≤ m.cursor.cache.size) :
    V.Agree p (m.on (m.cursor.place p)) w :=
  h.on (.same _ p) (h.grown.place_left p) hp rfl

/-- Reading a token that is on the tape. -/
theorem peek (h : V.Agree i m w) {t : Token} (ht : V.tape.At i t) :
    ∃ d index, m.cursor.peek = (.ok ⟨t, (V.tape.marks i).location, index⟩, d) ∧ m.cursor.Grown d ∧
      V.Agree i (m.on d) w ∧ V.Agree (i + 1) (m.on (d.place (m.cursor.position + 1))) w := by
  obtain ⟨index, hl⟩ := ht
  rw [← h.position] at hl
  obtain ⟨d, hp, hg, hd, hpos, hlt⟩ := Cursor.peek_tape h.sound.inside h.grown hl
  refine ⟨d, index, ?_, hd, h.on hd hg ?_ (hpos.trans h.position), ?_⟩
  · rw [hp, h.position]
  · exact show d.position ≤ d.cache.size from hpos ▸ Nat.le_of_lt hlt
  · exact h.on (hd.place_right _) (hg.place_left _) hlt (congrArg Nat.succ h.position)

end Agree

/-! ## Simulation -/

section

variable {α β γ δ : Type}

/-- From the state `m` the family `X` does what the walk `y` does from `w`.  If the walk is done,
`Q` holds of the two results and the states reached, and nothing that was read is lost.  If its
bound was too small, so is every amount of fuel below `n`. -/
structure Sim (V : View) (n : Nat) (X : Nat → Exec α) (y : Walk β)
    (Q : α → β → Machine → World → Prop) (m : Machine) (w : World) : Prop where
  done : ∀ {b w'}, y w = some (.ok b, w') →
    ∃ a m', Converges X m (.done a m') ∧ m.cursor.Grown m'.cursor ∧ Q a b m' w'
  fault : ∀ {e w'}, y w = some (.error e, w') → ∃ m', Converges X m (.fault e m') ∧ V.Fails m' w'
  spent : y w = none → ∀ k, k < n → X k m = .outOfFuel

namespace Sim

variable {X : Nat → Exec α} {F : Nat → α → Exec γ} {y : Walk β} {g : β → Walk δ}
  {Q : α → β → Machine → World → Prop} {R : γ → δ → Machine → World → Prop}

theorem of_ok {b : β} {w' : World} (hy : y w = some (.ok b, w'))
    (h : ∃ a m', Converges X m (.done a m') ∧ m.cursor.Grown m'.cursor ∧ Q a b m' w') :
    V.Sim n X y Q m w where
  done hy' := by
    cases hy.symm.trans hy'
    exact h
  fault hy' := by cases hy.symm.trans hy'
  spent hy' := by cases hy.symm.trans hy'

theorem of_error {e : Error} {w' : World} (hy : y w = some (.error e, w'))
    (h : ∃ m', Converges X m (.fault e m') ∧ V.Fails m' w') : V.Sim n X y Q m w where
  done hy' := by cases hy.symm.trans hy'
  fault hy' := by
    cases hy.symm.trans hy'
    exact h
  spent hy' := by cases hy.symm.trans hy'

theorem of_none (hy : y w = none) (h : ∀ k, k < n → X k m = .outOfFuel) : V.Sim n X y Q m w where
  done hy' := by cases hy.symm.trans hy'
  fault hy' := by cases hy.symm.trans hy'
  spent _ := h

theorem bind (hx : V.Sim n X y Q m w)
    (hf : ∀ {a b m₁ w₁}, m.cursor.Grown m₁.cursor → Q a b m₁ w₁ →
      V.Sim n (fun k => F k a) (g b) R m₁ w₁) :
    V.Sim n (fun k => X k >>= F k) (y >>= g) R m w := by
  cases hy : y w with
  | none => exact of_none (Walk.bind_none hy) fun k hk => bind_outOfFuel (hx.spent hy k hk)
  | some r =>
    obtain ⟨result, w₁⟩ := r
    cases result with
    | error e =>
      obtain ⟨m₁, hX, hfails⟩ := hx.fault hy
      exact of_error (Walk.bind_error hy) ⟨m₁, hX.bind_fault, hfails⟩
    | ok b =>
      obtain ⟨a, m₁, hX, hgrown, hQ⟩ := hx.done hy
      have hF := hf hgrown hQ
      refine ⟨fun h => ?_, fun h => ?_, fun h k hk => ?_⟩ <;> rw [Walk.bind_ok hy] at h
      · obtain ⟨c, m', hF', hgrown', hR⟩ := hF.done h
        exact ⟨c, m', hX.bind_done hF', hgrown.trans hgrown', hR⟩
      · obtain ⟨m', hF', hfails⟩ := hF.fault h
        exact ⟨m', hX.bind_done hF', hfails⟩
      · rcases hX.only k with hk' | hk'
        · exact bind_outOfFuel hk'
        · rw [Exec.bind_done hk']
          exact hF.spent h k hk

theorem mono {Q' : α → β → Machine → World → Prop} (h : V.Sim n X y Q m w)
    (hQ : ∀ {a b m' w'}, m.cursor.Grown m'.cursor → Q a b m' w' → Q' a b m' w') :
    V.Sim n X y Q' m w where
  done hy := by
    obtain ⟨a, m', hX, hgrown, hQ'⟩ := h.done hy
    exact ⟨a, m', hX, hgrown, hQ hgrown hQ'⟩
  fault := h.fault
  spent := h.spent

/-- Another walk that does the same from here. -/
theorem of_walk {y' : Walk β} (h : V.Sim n X y Q m w) (hy : y' w = y w) : V.Sim n X y' Q m w where
  done hy' := h.done (hy ▸ hy')
  fault hy' := h.fault (hy ▸ hy')
  spent hy' := h.spent (hy ▸ hy')

/-- What the interpreter guarantees by itself. -/
theorem and {P : α → Machine → Prop} (h : V.Sim n X y Q m w)
    (hP : ∀ {k a m'}, X k m = .done a m' → P a m') :
    V.Sim n X y (fun a b m' w' => Q a b m' w' ∧ P a m') m w where
  done hy := by
    obtain ⟨a, m', hX, hgrown, hQ⟩ := h.done hy
    obtain ⟨k, hk⟩ := hX.exists_run
    exact ⟨a, m', hX, hgrown, hQ, hP hk⟩
  fault := h.fault
  spent := h.spent

theorem le {n' : Nat} (h : V.Sim n X y Q m w) (hn : n' ≤ n) : V.Sim n' X y Q m w where
  done := h.done
  fault := h.fault
  spent hy k hk := h.spent hy k (Nat.lt_of_lt_of_le hk hn)

/-- A level of rules more, which stands for a level more of the walk. -/
theorem succ (h₀ : X 0 m = .outOfFuel) (h : V.Sim n (fun k => X (k + 1)) y Q m w) :
    V.Sim (n + 1) X y Q m w where
  done hy := by
    obtain ⟨a, m', hX, hQ⟩ := h.done hy
    exact ⟨a, m', hX.succ h₀, hQ⟩
  fault hy := by
    obtain ⟨m', hX, hfails⟩ := h.fault hy
    exact ⟨m', hX.succ h₀, hfails⟩
  spent hy k hk := by
    cases k with
    | zero => exact h₀
    | succ k => exact h.spent hy k (Nat.lt_of_succ_lt_succ hk)

/-- A level of rules more. -/
theorem level (h₀ : X 0 m = .outOfFuel) (h : V.Sim n (fun k => X (k + 1)) y Q m w) :
    V.Sim n X y Q m w :=
  (h.succ h₀).le (Nat.le_succ n)

theorem of_done {x : Exec α} {a : α} {b : β} {m' : Machine} {w' : World} (hx : x m = .done a m')
    (hy : y w = some (.ok b, w')) (hgrown : m.cursor.Grown m'.cursor) (h : Q a b m' w') :
    V.Sim n (fun _ => x) y Q m w :=
  of_ok hy ⟨a, m', .const hx, hgrown, h⟩

theorem of_fault {x : Exec α} {e : Error} {m' : Machine} {w' : World} (hx : x m = .fault e m')
    (hy : y w = some (.error e, w')) (h : V.Fails m' w') : V.Sim n (fun _ => x) y Q m w :=
  of_error hy ⟨m', .const hx, h⟩

/-- Something that does not depend on the fuel, and then the rest. -/
theorem done_bind {x : Exec α} {a : α} {b : β} {m₁ : Machine} {w₁ : World} (hx : x m = .done a m₁)
    (hy : y w = some (.ok b, w₁)) (hgrown : m.cursor.Grown m₁.cursor)
    (hf : V.Sim n (fun k => F k a) (g b) R m₁ w₁) :
    V.Sim n (fun k => x >>= F k) (y >>= g) R m w := by
  have hfirst : V.Sim n (fun _ => x) y (fun a' b' m' w' => a' = a ∧ b' = b ∧ m' = m₁ ∧
      w' = w₁) m w :=
    of_done hx hy hgrown ⟨rfl, rfl, rfl, rfl⟩
  refine hfirst.bind fun {a' b' m' w'} _ hsame => ?_
  obtain ⟨rfl, rfl, rfl, rfl⟩ := hsame
  exact hf

theorem fault_bind {x : Exec α} {e : Error} {m' : Machine} {w' : World} (hx : x m = .fault e m')
    (hy : y w = some (.error e, w')) (h : V.Fails m' w') :
    V.Sim n (fun k => x >>= F k) (y >>= g) R m w :=
  of_error (Walk.bind_error hy) ⟨m', (Converges.const hx).bind_fault, h⟩

theorem pure {a : α} {b : β} (h : Q a b m w) : V.Sim n (fun _ => Pure.pure a) (Pure.pure b) Q m w :=
  of_done rfl rfl (.refl _) h

theorem raise (h : V.Fails m w) (cause : RuntimeCause) (location : Location) :
    V.Sim n (fun _ => Exec.raise cause location) (Walk.raise cause location) Q m w :=
  of_fault rfl rfl h

theorem ofRuntime_bind {result : Except RuntimeCause α} {location : Location} {g : α → Walk δ}
    (h : V.Fails m w) (hf : ∀ {a}, result = .ok a → V.Sim n (fun k => F k a) (g a) R m w) :
    V.Sim n (fun k => Exec.ofRuntime result location >>= F k)
      (Walk.ofRuntime result location >>= g) R m w := by
  cases result with
  | ok a => exact hf rfl
  | error cause => exact fault_bind rfl rfl h

theorem ofRuntime {result : Except RuntimeCause α} {location : Location}
    {Q : α → α → Machine → World → Prop}
    (h : V.Fails m w) (hQ : ∀ {a}, result = .ok a → Q a a m w) :
    V.Sim n (fun _ => Exec.ofRuntime result location) (Walk.ofRuntime result location) Q m w := by
  cases result with
  | ok a => exact pure (hQ rfl)
  | error cause => exact raise h cause location

/-! ## The interpreter alone -/

/-- The interpreter does something on its own first. -/
theorem after {a : α} {m₁ : Machine} {y : Walk δ} (hX : Converges X m (.done a m₁))
    (hgrown : m.cursor.Grown m₁.cursor) (h : V.Sim n (fun k => F k a) y R m₁ w) :
    V.Sim n (fun k => X k >>= F k) y R m w where
  done hy := by
    obtain ⟨c, m', hF, hgrown', hR⟩ := h.done hy
    exact ⟨c, m', hX.bind_done hF, hgrown.trans hgrown', hR⟩
  fault hy := by
    obtain ⟨m', hF, hfails⟩ := h.fault hy
    exact ⟨m', hX.bind_done hF, hfails⟩
  spent hy k hk := by
    rcases hX.only k with hk' | hk'
    · exact bind_outOfFuel hk'
    · rw [Exec.bind_done hk']
      exact h.spent hy k hk

theorem lead {x : Exec α} {a : α} {m₁ : Machine} {y : Walk δ} (hx : x m = .done a m₁)
    (hgrown : m.cursor.Grown m₁.cursor) (h : V.Sim n (fun k => F k a) y R m₁ w) :
    V.Sim n (fun k => x >>= F k) y R m w :=
  after (.const hx) hgrown h

/-- A part that the walk does not have. -/
theorem scan_bind {b : β} {y : Walk δ} (hx : V.Sim n X (Pure.pure b) Q m w)
    (hf : ∀ {a m₁}, m.cursor.Grown m₁.cursor → Q a b m₁ w → V.Sim n (fun k => F k a) y R m₁ w) :
    V.Sim n (fun k => X k >>= F k) y R m w := by
  obtain ⟨a, m₁, hX, hgrown, hQ⟩ := hx.done rfl
  exact after hX hgrown (hf hgrown hQ)

section Tokens

variable {t : Token} {y : Walk δ}

theorem next_bind {F : Nat → Lexeme → Exec γ} (h : V.Agree i m w) (ht : V.tape.At i t)
    (hf : ∀ {d index}, m.cursor.Grown d → V.Agree (i + 1) (m.on d) w →
      V.Sim n (fun k => F k ⟨t, (V.tape.marks i).location, index⟩) y R (m.on d) w) :
    V.Sim n (fun k => next >>= F k) y R m w := by
  obtain ⟨d, index, hp, hd, _, hnext⟩ := h.peek ht
  exact lead (next_run_ok hp) (hd.place_right _) (hf (hd.place_right _) hnext)

theorem peek_bind {F : Nat → Lexeme → Exec γ} (h : V.Agree i m w) (ht : V.tape.At i t)
    (hf : ∀ {d index}, m.cursor.Grown d → V.Agree i (m.on d) w →
      V.Sim n (fun k => F k ⟨t, (V.tape.marks i).location, index⟩) y R (m.on d) w) :
    V.Sim n (fun k => peek >>= F k) y R m w := by
  obtain ⟨d, index, hp, hd, hpeek, _⟩ := h.peek ht
  exact lead (peek_run_ok hp) hd (hf hd hpeek)

theorem peekIs_bind {F : Nat → Bool → Exec γ} {p : Punct} {b : Bool} (h : V.Agree i m w)
    (ht : V.tape.At i t) (hb : t.isPunct p = b)
    (hf : ∀ {d}, m.cursor.Grown d → V.Agree i (m.on d) w →
      V.Sim n (fun k => F k b) y R (m.on d) w) :
    V.Sim n (fun k => peekIs p >>= F k) y R m w := by
  obtain ⟨d, index, hp, hd, hpeek, _⟩ := h.peek ht
  have hrun : peekIs p m = .done b (m.on d) := by
    rw [peekIs, bind_done (peek_run_ok hp)]
    exact congrArg (fun b => Outcome.done b (m.on d)) hb
  exact lead hrun hd (hf hd hpeek)

theorem expect_bind {F : Nat → Unit → Exec γ} {p : Punct} (h : V.Agree i m w)
    (ht : V.tape.At i (.punct p))
    (hf : ∀ {d}, m.cursor.Grown d → V.Agree (i + 1) (m.on d) w →
      V.Sim n (fun k => F k ()) y R (m.on d) w) :
    V.Sim n (fun k => expect p >>= F k) y R m w := by
  obtain ⟨d, index, hp, hd, _, hnext⟩ := h.peek ht
  have hrun : expect p m = .done () (m.on (d.place (m.cursor.position + 1))) := by
    have hpunct : (Token.punct p).isPunct p = true := decide_eq_true rfl
    rw [expect, bind_done (next_run_ok hp)]
    simp only [hpunct, if_true]
    rfl
  exact lead hrun (hd.place_right _) (hf (hd.place_right _) hnext)

theorem expectKeyword_bind {F : Nat → Unit → Exec γ} {q : Keyword} (h : V.Agree i m w)
    (ht : V.tape.At i (.keyword q))
    (hf : ∀ {d}, m.cursor.Grown d → V.Agree (i + 1) (m.on d) w →
      V.Sim n (fun k => F k ()) y R (m.on d) w) :
    V.Sim n (fun k => expectKeyword q >>= F k) y R m w := by
  obtain ⟨d, index, hp, hd, _, hnext⟩ := h.peek ht
  have hrun : expectKeyword q m = .done () (m.on (d.place (m.cursor.position + 1))) := by
    have hkeyword : (Token.keyword q).isKeyword q = true := decide_eq_true rfl
    rw [expectKeyword, bind_done (next_run_ok hp)]
    simp only [hkeyword, if_true]
    rfl
  exact lead hrun (hd.place_right _) (hf (hd.place_right _) hnext)

theorem expectIdentifier_bind {F : Nat → String × Location → Exec γ} {name : String}
    (h : V.Agree i m w) (ht : V.tape.At i (.identifier name))
    (hf : ∀ {d}, m.cursor.Grown d → V.Agree (i + 1) (m.on d) w →
      V.Sim n (fun k => F k (name, (V.tape.marks i).location)) y R (m.on d) w) :
    V.Sim n (fun k => expectIdentifier >>= F k) y R m w := by
  obtain ⟨d, index, hp, hd, _, hnext⟩ := h.peek ht
  have hrun : expectIdentifier m =
      .done (name, (V.tape.marks i).location) (m.on (d.place (m.cursor.position + 1))) := by
    rw [expectIdentifier, bind_done (next_run_ok hp)]
    rfl
  exact lead hrun (hd.place_right _) (hf (hd.place_right _) hnext)

theorem rollback_bind {F : Nat → Unit → Exec γ} (h : V.Agree (i + 1) m w)
    (hf : ∀ {d}, m.cursor.Grown d → V.Agree i (m.on d) w →
      V.Sim n (fun k => F k ()) y R (m.on d) w) :
    V.Sim n (fun k => rollback >>= F k) y R m w := by
  have hpos : 0 < m.cursor.position := h.position ▸ Nat.succ_pos i
  have hle : m.cursor.position - 1 ≤ m.cursor.cache.size :=
    Nat.le_trans (Nat.sub_le _ _) h.sound.inside
  have hi : m.cursor.position - 1 = i := by rw [h.position, Nat.add_sub_cancel]
  refine lead (rollback_run hpos) (.same _ _) (hf (.same _ _) ?_)
  rw [hi] at hle ⊢
  exact h.place hle

theorem position_bind {F : Nat → Nat → Exec γ} (h : V.Agree i m w)
    (hf : V.Sim n (fun k => F k i) y R m w) :
    V.Sim n (fun k => position >>= F k) y R m w :=
  lead (show position m = .done i m from congrArg (fun p => Outcome.done p m) h.position)
    (.refl _) hf

end Tokens

/-! ## Loops of the interpreter -/

theorem above {Y : Nat → Exec α} {t : Nat} (hlow : ∀ k, k ≤ t → X k m = .outOfFuel)
    (hhigh : ∀ k, t < k → X k m = Y k m) (h : V.Sim n Y y Q m w) : V.Sim n X y Q m w where
  done hy := by
    obtain ⟨a, m', hY, hQ⟩ := h.done hy
    exact ⟨a, m', hY.above hlow hhigh, hQ⟩
  fault hy := by
    obtain ⟨m', hY, hfails⟩ := h.fault hy
    exact ⟨m', hY.above hlow hhigh, hfails⟩
  spent hy k hk := by
    by_cases ht : t < k
    · rw [hhigh k ht]
      exact h.spent hy k hk
    · exact hlow k (Nat.le_of_not_lt ht)

section Turns

variable {σ : Type} {body : Nat → σ → Exec (Turn σ α)} {t : Nat} {s : σ}

/-- One turn of a loop that has turned `t` times. -/
theorem turn (h : V.Sim n (fun k => body k s >>= afterTurn (loop (body k) (k - (t + 1)))) y Q m w) :
    V.Sim n (fun k => loop (body k) (k - t) s) y Q m w := by
  refine above (t := t) (fun k hk => ?_) (fun k hk => ?_) h
  · rw [show k - t = 0 by omega]
    rfl
  · rw [show k - t = k - (t + 1) + 1 by omega, loop_turn]

/-- The same, with something behind the loop. -/
theorem turn_bind {y : Walk δ}
    (h : V.Sim n (fun k => body k s >>= fun turn => afterTurn (loop (body k) (k - (t + 1))) turn >>=
      F k) y R m w) :
    V.Sim n (fun k => loop (body k) (k - t) s >>= F k) y R m w := by
  refine above (t := t) (fun k hk => ?_) (fun k hk => ?_) h
  · rw [show k - t = 0 by omega]
    exact bind_outOfFuel rfl
  · rw [show k - t = k - (t + 1) + 1 by omega, loop_turn, bind_assoc]

end Turns

end Sim
end
end View
end Replay
