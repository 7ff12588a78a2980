import Replay.Proofs.Jumps.Statement
import Replay.Proofs.Reachable
/-!
Jumps are a matter of the text.

A run that starts outside of all braces makes of a jump what the braces around its keyword say.  It
goes to the innermost loop or procedure that takes it, and if there is none then the run is over,
with a complaint about this very keyword.
-/

namespace Replay

open Exec

/-! ## Whole scripts -/

section Scripts

variable {source : String} {maxDepth : Nat} {out : Sink} {m m' : Machine}

theorem Rules.noted_script (k : Nat) (hm : m.Stands source .outermost) :
    Arrives source .outermost anything (fun w => (noted w k).script) m := by
  refine Arrives.loop (I := anything) (fun {_ m₁} hm₁ _ => ?_) (fun w => noted_fuel w k) hm trivial
  refine Follows.peek_bind hm₁ fun {m₂} hm₂ _ _ => ?_
  split
  · exact Arrives.pure hm₂ trivial
  · refine Follows.bind (noted_statement k .execute hm₂) fun {s m₃} _ hm₃ _ hs => ?_
    cases s with
    | normal => exact Arrives.pure ⟨hm₃, hs.place rfl⟩ trivial
    | broke location => exact Follows.complain (hs.aims _ rfl)
    | continued location => exact Follows.complain (hs.aims _ rfl)
    | returned value location => exact Follows.complain (hs.aims _ rfl)

/-- The states in which a host finds the interpreter outside of all braces: what it has asked for so
far was done, and no jump was left over. -/
inductive Orderly (source : String) (maxDepth : Nat) (out : Sink) : Machine → Prop where
  | start : Orderly source maxDepth out (Machine.start source maxDepth out)
  | step {m m' : Machine} (fuel : Nat) (mode : Mode) :
      Orderly source maxDepth out m → Interpreter.step fuel mode m = .done .normal m' →
      Orderly source maxDepth out m'
  | expression {m m' : Machine} {v : Value} (fuel : Nat) (mode : Mode) :
      Orderly source maxDepth out m → Interpreter.expression fuel mode m = .done v m' →
      Orderly source maxDepth out m'
  | run {m m' : Machine} (fuel : Nat) :
      Orderly source maxDepth out m → Interpreter.run fuel m = .done () m' →
      Orderly source maxDepth out m'
  | teardown {m m' : Machine} :
      Orderly source maxDepth out m → Interpreter.teardown m = .ok m' →
      Orderly source maxDepth out m'

namespace Orderly

theorem session (h : Orderly source maxDepth out m) : Session source maxDepth out [] m := by
  induction h with
  | start => exact .start
  | step fuel mode _ hx ih => exact .done (.step mode) fuel ih (bind_done hx)
  | expression fuel mode _ hx ih => exact .done (.expression mode) fuel ih (bind_done hx)
  | run fuel _ hx ih => exact .done .run fuel ih hx
  | teardown _ hx ih => exact .done .teardown 0 ih (by simp only [Request.perform, hx])

theorem stands (h : Orderly source maxDepth out m) : m.Stands source .outermost := by
  induction h with
  | start => exact ⟨⟨Machine.start_sound _ _ _, .start source, .new⟩, rfl⟩
  | step fuel mode _ hx ih =>
    have hfits := (Rules.noted_statement fuel mode ih).fits
    rw [Rules.noted_none, show (Rules.within fuel).statement mode _ = _ from hx] at hfits
    exact ⟨hfits.1, hfits.2.2.place rfl⟩
  | expression fuel mode _ hx ih =>
    have hfits := ((Rules.noted_lexical source fuel .block).expression mode ih).fits
    rw [Rules.inside_none, Rules.noted_none, show (Rules.within fuel).expression mode _ = _ from
      hx] at hfits
    exact ⟨hfits.1, hfits.2.2.2⟩
  | run fuel _ hx ih =>
    have hfits := (Rules.noted_script fuel ih).fits
    rw [Rules.noted_none, show (Rules.within fuel).script _ = _ from hx] at hfits
    exact ⟨hfits.1, hfits.2.2.2⟩
  | @teardown m m' hm hx ih =>
    have hrest := hm.session.atRest
    have hrun : Request.teardown.perform (Rules.within 0) m = .done () m' := by
      simp only [Request.perform, hx]
    have hsound := ((teardown_safe hrest.sound hrest.kept (Rules.within 0)).done hrun).1
    simp only [Interpreter.teardown, bind, Except.bind, pure, Except.pure] at hx
    split at hx <;> cases hx
    next ht => exact ⟨⟨hsound, ih.tracks, ih.headed.teardown ht⟩, ih.place⟩

end Orderly

end Scripts

/-! ## Where jumps lead to -/

section Targets

variable {α : Type} {source : String} {maxDepth : Nat} {out : Sink} {m : Machine}

/-- The run comes to a point where this happens. -/
def Happens (fuel : Nat) (m : Machine) (e : Event) : Prop :=
  ∃ m', (Rules.noted (fun seen => decide (seen = e)) fuel).script m = .fault sighted m'

/-- What a lookout sees are the events on the way, and nothing else. -/
theorem Course.sighted_iff {carries : α → Option Jump} {P : α → Cursor → Prop}
    {x : Lookout → Exec α}
    {events : Event → Prop} (hc : Course source none carries P x m events) (e : Event) :
    (∃ m', x (fun seen => decide (seen = e)) m = .fault sighted m') ↔ events e := by
  constructor
  · rintro ⟨m', hrun⟩
    by_contra hno
    have hquiet : ∀ seen, events seen → decide (seen = e) = false := by
      intro seen hseen
      refine decide_eq_false fun heq => hno ?_
      rw [← heq]
      exact hseen
    have hfits := hc.fits
    rw [← hc.same hquiet, hrun] at hfits
    obtain ⟨hkeyword, _⟩ := hfits _ rfl
    rcases hkeyword with h | h | h <;> cases h
  · intro he
    exact hc.stops he (decide_eq_true rfl)

theorem Jump.Aims.target_eq {j : Jump} {target : Option Brace} {k : Nat} (h : j.Aims source target)
    (htoken : Stream.token source k = .keyword j.keyword)
    (hplace : (Stream.lexeme source k).location = j.location) :
    target? j.keyword (Stream.nesting source k).braces = target := by
  obtain ⟨_, i, hi, hlocation, htarget⟩ := h
  have hik : i = k :=
    Stream.location_inj (by rw [htoken]; exact Token.noConfusion) (hlocation.trans hplace.symm)
  rw [← hik]
  exact htarget

/-- A run complains about a jump only if its keyword stands where nothing around it takes the jump,
and whenever such a jump is made the run ends with that complaint.  Any other jump that is made is
taken by the innermost loop of the procedure it stands in, or by the procedure if it is a `return`,
and by nothing else. -/
theorem jump_goes_by_text (hm : Orderly source maxDepth out m) (fuel : Nat) :
    (∀ {keyword location m'},
      Interpreter.run fuel m = .fault (.runtime ⟨.invalidContext keyword, location⟩) m' →
      ∃ k, (∀ i, (Stream.lexeme source i).location = location ↔ i = k) ∧
        Stream.token source k = .keyword keyword ∧
        Misplaced keyword (Stream.nesting source k).braces) ∧
    ∀ {j : Jump} {k : Nat}, Stream.token source k = .keyword j.keyword →
      (Stream.lexeme source k).location = j.location →
      (Misplaced j.keyword (Stream.nesting source k).braces → Happens fuel m (.made j) →
        ∃ m', Interpreter.run fuel m =
          .fault (.runtime ⟨.invalidContext j.keyword, j.location⟩) m') ∧
      (∀ b, target? j.keyword (Stream.nesting source k).braces = some b → Happens fuel m (.made j) →
        Happens fuel m (.taken b j)) ∧
      ∀ b, Happens fuel m (.taken b j) →
        target? j.keyword (Stream.nesting source k).braces = some b := by
  obtain ⟨events, hc⟩ := Rules.noted_script fuel hm.stands
  have hrun : (Rules.noted .none fuel).script m = Interpreter.run fuel m := by
    rw [Rules.noted_none]
    rfl
  refine ⟨fun {keyword location m'} hfault => ?_, fun {j k} htoken hplace => ⟨?_, ?_, ?_⟩⟩
  · have hfits := hc.fits
    rw [hrun, hfault] at hfits
    obtain ⟨hkeyword, k, htoken, hlocation, htarget⟩ := hfits ⟨keyword, location⟩ rfl
    refine ⟨k, fun i => ⟨fun hi => ?_, fun hi => hi ▸ hlocation⟩, htoken,
      (target?_eq_none_iff hkeyword).mp htarget⟩
    exact Stream.location_inj (by rw [htoken]; exact Token.noConfusion) (hi.trans hlocation.symm)
  · intro hmisplaced hmade
    have hmade := (hc.sighted_iff (.made j)).mp hmade
    obtain ⟨target, haims⟩ := hc.lexical _ hmade
    have hnone := (target?_eq_none_iff haims.1).mpr hmisplaced
    rcases hc.settled j (.inl hmade) with ⟨b, htaken⟩ | ⟨_, _, _, hcarries⟩ | ⟨m', hfault⟩
    · cases hnone.symm.trans ((hc.lexical _ htaken).target_eq htoken hplace)
    · cases hcarries
    · exact ⟨m', hrun ▸ hfault⟩
  · intro b hb hmade
    have hmade := (hc.sighted_iff (.made j)).mp hmade
    refine (hc.sighted_iff (.taken b j)).mpr ?_
    rcases hc.settled j (.inl hmade) with ⟨b', htaken⟩ | ⟨_, _, _, hcarries⟩ | ⟨m', hfault⟩
    · cases hb.symm.trans ((hc.lexical _ htaken).target_eq htoken hplace)
      exact htaken
    · cases hcarries
    · have hfits := hc.fits
      rw [hfault] at hfits
      cases hb.symm.trans ((hfits j rfl).target_eq htoken hplace)
  · intro b htaken
    exact (hc.lexical _ ((hc.sighted_iff (.taken b j)).mp htaken)).target_eq htoken hplace

/-- A loop inside of a procedure that is called inside of a loop. -/
def calledInLoopText : String :=
  "procedure f() { for (;;) { break; } break; } while (true) { f(); }"

def calledInLoop : Machine := Machine.start calledInLoopText 1 .unlimited

theorem calledInLoop_first : Happens 10 calledInLoop (.made ⟨.kwBreak, ⟨1, 28⟩⟩) :=
  Outcome.exists_of_result_error (by decide +kernel)

theorem calledInLoop_second : Happens 10 calledInLoop (.made ⟨.kwBreak, ⟨1, 37⟩⟩) :=
  Outcome.exists_of_result_error (by decide +kernel)

/-- The first `break` ends the loop it stands in.  The second one has no loop around it in its
procedure. -/
theorem jump_goes_by_text_called :
    ∃ source, Orderly source 1 .unlimited calledInLoop ∧
      target? .kwBreak (Stream.nesting source 11).braces = some (.loop 5) ∧
      Happens 10 calledInLoop (.made ⟨.kwBreak, ⟨1, 28⟩⟩) ∧
      Happens 10 calledInLoop (.taken (.loop 5) ⟨.kwBreak, ⟨1, 28⟩⟩) ∧
      Misplaced .kwBreak (Stream.nesting source 14).braces ∧
      Happens 10 calledInLoop (.made ⟨.kwBreak, ⟨1, 37⟩⟩) ∧
      ∃ m', Interpreter.run 10 calledInLoop =
        .fault (.runtime ⟨.invalidContext .kwBreak, ⟨1, 37⟩⟩) m' := by
  have hm : Orderly calledInLoopText 1 .unlimited calledInLoop := .start
  obtain ⟨_, hjumps⟩ := jump_goes_by_text hm 10
  obtain ⟨htoken, hplace, htarget⟩ : Stream.token calledInLoopText 11 = .keyword .kwBreak ∧
      (Stream.lexeme calledInLoopText 11).location = ⟨1, 28⟩ ∧
      target? .kwBreak (Stream.nesting calledInLoopText 11).braces = some (.loop 5) := by
    decide +kernel
  obtain ⟨htoken', hplace', hnone⟩ : Stream.token calledInLoopText 14 = .keyword .kwBreak ∧
      (Stream.lexeme calledInLoopText 14).location = ⟨1, 37⟩ ∧
      target? .kwBreak (Stream.nesting calledInLoopText 14).braces = none := by
    decide +kernel
  have hmisplaced := (target?_eq_none_iff (.inl rfl)).mp hnone
  obtain ⟨_, htaken, _⟩ := hjumps (j := ⟨.kwBreak, ⟨1, 28⟩⟩) htoken hplace
  obtain ⟨hcomplaint, _⟩ := hjumps (j := ⟨.kwBreak, ⟨1, 37⟩⟩) htoken' hplace'
  exact ⟨_, hm, htarget, calledInLoop_first, htaken _ htarget calledInLoop_first, hmisplaced,
    calledInLoop_second, hcomplaint hmisplaced calledInLoop_second⟩

/-- A run goes on from where the cursor stands.  Where one has failed inside of a loop the next one
starts inside of it, and for a `break` that it comes to there is no loop to end. -/
theorem break_refused_inside_loop :
    ∃ m m', Session "while (true) { x; break; }" 1 .unlimited
        [.runtime ⟨.undefinedIdentifier "x", ⟨1, 16⟩⟩] m ∧
      Interpreter.run 8 m = .fault (.runtime ⟨.invalidContext .kwBreak, ⟨1, 19⟩⟩) m' ∧
      ((Stream.lexeme "while (true) { x; break; }" 7).location = ⟨1, 19⟩ ∧
        target? .kwBreak (Stream.nesting "while (true) { x; break; }" 7).braces = some (.loop 0)) ∧
      ¬∃ k, (Stream.lexeme "while (true) { x; break; }" k).location = ⟨1, 19⟩ ∧
        Stream.token "while (true) { x; break; }" k = .keyword .kwBreak ∧
        Misplaced .kwBreak (Stream.nesting "while (true) { x; break; }" k).braces := by
  have hfirst : (Interpreter.run 8
      (Machine.start "while (true) { x; break; }" 1 .unlimited)).result? =
        some (.error (.runtime ⟨.undefinedIdentifier "x", ⟨1, 16⟩⟩)) := by decide +kernel
  have hagain : (ensuring (Interpreter.run 8) (Interpreter.run 8)
      (Machine.start "while (true) { x; break; }" 1 .unlimited)).result? =
        some (.error (.runtime ⟨.invalidContext .kwBreak, ⟨1, 19⟩⟩)) := by decide +kernel
  obtain ⟨m, hm⟩ := Outcome.exists_of_result_error hfirst
  obtain ⟨m', hm'⟩ : ∃ m', Interpreter.run 8 m =
      .fault (.runtime ⟨.invalidContext .kwBreak, ⟨1, 19⟩⟩) m' := by
    cases hrun : Interpreter.run 8 m with
    | done u m' =>
      simp only [ensuring, hm, hrun] at hagain
      cases hagain
    | fault e m' =>
      simp only [ensuring, hm, hrun] at hagain
      cases hagain
      exact ⟨m', rfl⟩
    | outOfFuel =>
      simp only [ensuring, hm, hrun] at hagain
      cases hagain
  have hbreak : (Stream.lexeme "while (true) { x; break; }" 7).location = ⟨1, 19⟩ ∧
      target? .kwBreak (Stream.nesting "while (true) { x; break; }" 7).braces = some (.loop 0) := by
    decide +kernel
  refine ⟨m, m', .fault .run 8 .start hm, hm', hbreak, ?_⟩
  rintro ⟨k, hplace, htoken, hmisplaced⟩
  have hk : 7 = k :=
    Stream.location_inj (by rw [htoken]; exact Token.noConfusion) (hbreak.1.trans hplace.symm)
  rw [← hk, ← target?_eq_none_iff (.inl rfl), hbreak.2] at hmisplaced
  cases hmisplaced

end Targets

end Replay
