import Replay.Proofs.Contract.Statement
/-!
States that a session can reach.

Whatever a host asks for, and whatever errors it gets, the state that it is left with is sound, and
it is the initial one but for the names, the tokens and the output.  The states that are met inside
a request are sound as well.
-/

namespace Replay

open Exec
open ScopeTree (arenaFull maxSlots)

/-! ## What requests leave behind -/

/-- The part of a contract that is not about the text. -/
structure Safe {α : Type} (x : Exec α) (m : Machine) : Prop where
  done : ∀ {a m'}, x m = .done a m' → m'.Sound ∧ m.Kept none m' ∧ m'.calls = m.calls
  fault : ∀ {e m'}, x m = .fault e m' → m'.Sound ∧ m.Kept none m' ∧
    ((∀ i, e ≠ .internal i) → m'.calls = m.calls) ∧
    ∀ {i}, e = .internal i → i = arenaFull ∧ m'.scopes.slots.size = maxSlots

theorem Honours.safe {α β : Type} {R : Reading α β} {s : Exec β} {c : Cursor} {x : Exec α}
    {m : Machine} (h : Honours R none s c x m) : Safe x m where
  done hx := ⟨(h.done hx).sound, (h.done hx).kept, (h.done hx).calls⟩
  fault hx := ⟨(h.fault hx).sound, (h.fault hx).kept, (h.fault hx).calls, (h.fault hx).internal⟩

/-- What skips changes the cursor and nothing else. -/
theorem Link.Tied.safe {β : Type} {Q : β → Prop} {x y : Exec β} {m : Machine}
    (h : (Link.frame m (.bare m.cursor)).Tied 0 Q x y) (hm : m.Sound) : Safe x m :=
  (Honours.scan (R := .any) h hm fun _ _ => ⟨trivial, trivial, rfl⟩).safe

namespace Safe

variable {α β σ : Type} {m : Machine}

theorem pure {a : α} (hm : m.Sound) : Safe (pure a) m where
  done h := by
    cases h
    exact ⟨hm, .refl _ _, rfl⟩
  fault h := nomatch h

theorem fail {error : RuntimeError} (hm : m.Sound) : Safe (fail (.runtime error) : Exec α) m where
  done h := nomatch h
  fault h := by
    cases h
    exact ⟨hm, .refl _ _, fun _ => rfl, fun h => (nomatch h)⟩

theorem bind {x : Exec α} {f : α → Exec β} (hx : Safe x m)
    (hf : ∀ {a m₁}, m₁.Sound → Safe (f a) m₁) : Safe (x >>= f) m where
  done h := by
    obtain ⟨a, m₁, h₁, h₂⟩ := of_bind_done h
    obtain ⟨hm₁, hk₁, hcalls₁⟩ := hx.done h₁
    obtain ⟨hm', hk, hcalls⟩ := (hf hm₁).done h₂
    exact ⟨hm', hk₁.trans hk, hcalls.trans hcalls₁⟩
  fault h := by
    rcases of_bind_fault h with h₁ | ⟨a, m₁, h₁, h₂⟩
    · exact hx.fault h₁
    · obtain ⟨hm₁, hk₁, hcalls₁⟩ := hx.done h₁
      obtain ⟨hm', hk, hcalls, hi⟩ := (hf hm₁).fault h₂
      exact ⟨hm', hk₁.trans hk, fun he => (hcalls he).trans hcalls₁, hi⟩

theorem loop {body : σ → Exec (Turn σ β)} (h : ∀ {i m}, m.Sound → Safe (body i) m) (n : Nat) {i : σ}
    (hm : m.Sound) : Safe (loop body n i) m := by
  induction n generalizing i m with
  | zero => exact ⟨fun h => (nomatch h), fun h => (nomatch h)⟩
  | succ n ih =>
    rw [loop_succ]
    refine (h hm).bind fun {turn m₁} hm₁ => ?_
    cases turn with
    | again i' => exact ih hm₁
    | stop b => exact .pure hm₁

end Safe

structure Rules.AllSafe (r : Rules) (mode : Mode) (m : Machine) : Prop where
  statement : Safe (r.statement mode) m
  expression : Safe (r.expression mode) m
  assignment : Safe (r.assignment mode) m
  conditional : Safe (r.conditional mode) m
  binary : ∀ least, Safe (r.binary least mode) m
  call : ∀ name location, Safe (r.call name location mode) m

namespace Rules.Faithful

variable {r : Rules} {k : Nat} {m : Machine}

theorem safe (h : r.Faithful k) (hm : m.Sound) (mode : Mode) : r.AllSafe mode m := by
  cases mode with
  | execute =>
    exact ⟨(h.statement hm).safe, (h.expression hm).safe, (h.assignment hm).safe,
      (h.conditional hm).safe, fun least => (h.binary least hm).safe,
      fun name location => (h.call name location hm).safe⟩
  | skip =>
    have hs := h.inStep hm
    exact ⟨hs.statement.safe hm, hs.expression.safe hm, hs.assignment.safe hm,
      hs.conditional.safe hm, fun least => (hs.binary least).safe hm,
      fun name location => (hs.call name location).safe hm⟩

theorem script_safe (h : r.Faithful k) (hm : m.Sound) : Safe r.script m := by
  refine .loop (fun {_ m} hm => ?_) r.fuel hm
  have hpeek : Safe peek m := Link.Tied.peek.safe hm
  refine hpeek.bind fun {ahead m₁} hm₁ => ?_
  split
  · exact .pure hm₁
  · refine (h.statement hm₁).safe.bind fun {signal m₂} hm₂ => ?_
    split
    · exact .fail hm₂
    · exact .pure hm₂

end Rules.Faithful

section Sessions

variable {source : String} {maxDepth : Nat} {out : Sink} {m : Machine} {errors : List Error}

/-- There is nothing to give up but the names in the global scope. -/
theorem teardown_safe (hm : m.Sound) (hk : (Machine.start source maxDepth out).Kept none m)
    (r : Rules) :
    Safe (Request.teardown.perform r) m := by
  have hroot : ScopeTree.new.find? ScopeTree.root = some (.fresh none .global) := rfl
  obtain ⟨global, hglobal, _, hchildren⟩ := ScopeTree.exists_of_links (hk.links _) hroot
  obtain ⟨t, hok, hput⟩ := ScopeTree.modify_put hglobal fun s =>
    { s with bindings := Bindings.empty }
  obtain ⟨hsound, hkept⟩ : _ ∧ m.Kept none _ :=
    Machine.put_kept hm hglobal hput rfl rfl (.inl rfl) Bindings.All.empty
  have hcurrent : m.current = ScopeTree.root := hk.current
  have hteardown : m.scopes.teardown = .ok t :=
    (ScopeTree.teardown_leaf hglobal hchildren).trans hok
  have hrun : Request.teardown.perform r m = .done () { m with scopes := t } := by
    simp only [Request.perform, Interpreter.teardown, hteardown, ← hcurrent, bind, Except.bind,
      pure, Except.pure]
  refine ⟨fun h => ?_, fun h => (nomatch hrun.symm.trans h)⟩
  cases hrun.symm.trans h
  exact ⟨hsound, hkept, rfl⟩

theorem perform_safe {r : Rules} {k : Nat} (h : r.Faithful k) (hm : m.Sound)
    (hk : (Machine.start source maxDepth out).Kept none m) (request : Request) :
    Safe (request.perform r) m := by
  cases request with
  | step mode => exact (h.safe hm mode).statement.bind fun hm => .pure hm
  | expression mode => exact (h.safe hm mode).expression.bind fun hm => .pure hm
  | run => exact h.script_safe hm
  | teardown => exact teardown_safe hm hk r

structure AtRest (source : String) (maxDepth : Nat) (out : Sink) (errors : List Error)
    (m : Machine) : Prop where
  sound : m.Sound
  kept : (Machine.start source maxDepth out).Kept none m
  calls : (∀ i, .internal i ∉ errors) → m.calls = CallStack.new maxDepth
  internal : ∀ {i}, .internal i ∈ errors → i = arenaFull ∧ m.scopes.slots.size = maxSlots

/-- Slots are never given back. -/
theorem Machine.Kept.full {m' : Machine} (hk : m.Kept none m') (hm' : m'.Sound)
    (h : m.scopes.slots.size = maxSlots) : m'.scopes.slots.size = maxSlots :=
  Nat.le_antisymm hm'.stocked.size (h ▸ hk.slots)

theorem Session.atRest (h : Session source maxDepth out errors m) :
    AtRest source maxDepth out errors m := by
  induction h with
  | start => exact ⟨Machine.start_sound _ _ _, .refl _ _, fun _ => rfl, fun h => by cases h⟩
  | @done errors m m' request fuel _ hx ih =>
    have hsafe := perform_safe (Rules.within_faithful (Nat.le_refl fuel)) ih.sound ih.kept request
    obtain ⟨hm', hk, hcalls⟩ := hsafe.done hx
    refine ⟨hm', ih.kept.trans hk, fun he => hcalls.trans (ih.calls he), fun hi => ?_⟩
    obtain ⟨hfull, hsize⟩ := ih.internal hi
    exact ⟨hfull, hk.full hm' hsize⟩
  | @fault errors m m' e request fuel _ hx ih =>
    have hsafe := perform_safe (Rules.within_faithful (Nat.le_refl fuel)) ih.sound ih.kept request
    obtain ⟨hm', hk, hcalls, hnew⟩ := hsafe.fault hx
    refine ⟨hm', ih.kept.trans hk, fun he => ?_, fun hi => ?_⟩
    · exact (hcalls fun i hi => he i (hi ▸ List.mem_cons_self)).trans
        (ih.calls fun i hi => he i (List.mem_cons_of_mem _ hi))
    · rcases List.mem_cons.mp hi with hi | hi
      · exact hnew hi.symm
      · obtain ⟨hfull, hsize⟩ := ih.internal hi
        exact ⟨hfull, hk.full hm' hsize⟩

/-- A watch for states that are not sound is in vain. -/
theorem Met.sound (h : Met source maxDepth out m) : m.Sound := by
  classical
  obtain ⟨errors, before, request, fuel, hsession, hmet⟩ := h
  by_cases hm : m.Sound
  · exact hm
  · have hrest := hsession.atRest
    have hwatch : ∀ {m : Machine}, m.Sound → (!decide m.Sound) = false := fun hm => by simp [hm]
    obtain ⟨after, hx⟩ := hmet (fun m => !decide m.Sound) (by simp [hm])
    have hfaithful := Rules.watched_faithful hwatch (Nat.le_refl fuel)
    cases ((perform_safe hfaithful hrest.sound hrest.kept request).fault hx).2.2.2 rfl |>.1

/-- A host that asks for a statement has a rule started right away. -/
theorem Session.met (h : Session source maxDepth out errors m) : Met source maxDepth out m :=
  ⟨errors, m, .step .execute, 1, h, fun _ hwatch => ⟨m, bind_fault (watched_alarm hwatch _)⟩⟩

end Sessions
end Replay
