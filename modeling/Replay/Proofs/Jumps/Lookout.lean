import Replay.Proofs.Contract.Statement
import Replay.Proofs.Nesting
/-!
Looking out for jumps.

What becomes of a jump is not seen from outside: a statement ends with it, then the statement around
that one, until something takes it.  To speak of this the rules are given a lookout.  Where an event
happens that it waits for, the run is stopped with an error that no rule reports; where none does,
nothing changes.
-/

namespace Replay

open Exec

/-! ## Events -/

/-- A jump that is on its way: its keyword, and where that stands. -/
structure Jump where
  keyword : Keyword
  location : Location
deriving DecidableEq

def Jump.error (j : Jump) : Error := .runtime ⟨.invalidContext j.keyword, j.location⟩

def Signal.jump? : Signal → Option Jump
  | normal => none
  | broke location => some ⟨.kwBreak, location⟩
  | continued location => some ⟨.kwContinue, location⟩
  | returned _ location => some ⟨.kwReturn, location⟩

/-- A statement ends with a jump, or a statement in the body of a loop or procedure does, and the
jump ends there. -/
inductive Event where
  | made (jump : Jump)
  | taken (brace : Brace) (jump : Jump)
deriving DecidableEq

abbrev Lookout := Event → Bool

abbrev Lookout.none : Lookout := fun _ => false

namespace Exec

/-- What stops a run.  No rule complains about a word that is not a jump. -/
def sighted : Error := Jump.error ⟨.kwVar, ⟨0, 0⟩⟩

/-- Stops if the statement ends with a jump of the kind that is waited for. -/
def heeding (alert : Jump → Bool) (x : Exec Signal) : Exec Signal := do
  let signal ← x
  if signal.jump?.any alert then fail sighted else return signal

end Exec

def Machine.opens (m : Machine) : Brace :=
  match m.cursor.peek with
  | (.ok ahead, _) => .opening m.cursor.position ahead.token
  | (.error _, _) => .block

namespace Rules

def inside (r : Rules) (lookout : Lookout) (b : Brace) : Rules :=
  { r with
    statement := fun mode =>
      (r.statement mode).heeding fun j => b.takes j.keyword && lookout (.taken b j) }

def openedStatement (r : Rules) (lookout : Lookout) (mode : Mode) : Exec Signal := fun m =>
  (r.inside lookout m.opens).statementRule mode m

/-- The rules with `fuel` levels of recursion left, and with a lookout. -/
def noted (lookout : Lookout) : Nat → Rules
  | 0 => Rules.within 0
  | fuel + 1 =>
    { fuel := fuel + 1
      statement := fun mode => ((noted lookout fuel).openedStatement lookout mode).heeding fun j =>
        lookout (.made j)
      assignment := fun mode => (noted lookout fuel).assignmentRule mode
      conditional := fun mode => (noted lookout fuel).conditionalRule mode
      binary := fun least mode => (noted lookout fuel).binaryRule least mode
      call := fun name location mode =>
        ((noted lookout fuel).inside lookout .procedure).callRule name location mode }

end Rules

/-! ## Nothing to wait for -/

namespace Exec

variable {alert : Jump → Bool} {x : Exec Signal} {m m' : Machine} {signal : Signal}

theorem heeding_done (hx : x m = .done signal m') (h : signal.jump?.any alert = false) :
    x.heeding alert m = .done signal m' := by
  rw [heeding, bind_done hx, h]
  rfl

theorem heeding_sighted (hx : x m = .done signal m') (h : signal.jump?.any alert = true) :
    x.heeding alert m = .fault sighted m' := by
  rw [heeding, bind_done hx, h]
  rfl

theorem heeding_fault {e : Error} (hx : x m = .fault e m') : x.heeding alert m = .fault e m' :=
  bind_fault hx

theorem heeding_outOfFuel (hx : x m = .outOfFuel) : x.heeding alert m = .outOfFuel :=
  bind_outOfFuel hx

theorem heeding_nothing (h : ∀ j, alert j = false) (x : Exec Signal) : x.heeding alert = x := by
  funext m
  cases hx : x m with
  | done signal m' =>
    refine heeding_done hx ?_
    cases hj : signal.jump? with
    | none => rfl
    | some j => exact h j
  | fault e m' => exact heeding_fault hx
  | outOfFuel => exact heeding_outOfFuel hx

end Exec

namespace Rules

theorem inside_none (r : Rules) (b : Brace) : r.inside .none b = r := by
  have hstatement (mode : Mode) : (r.statement mode).heeding (fun j => b.takes j.keyword && false) =
      r.statement mode := heeding_nothing (fun j => Bool.and_false _) _
  simp only [inside, hstatement]

theorem noted_none (fuel : Nat) : noted .none fuel = within fuel := by
  induction fuel with
  | zero => rfl
  | succ fuel ih =>
    have hstatement (mode : Mode) : ((within fuel).openedStatement .none mode).heeding
      (fun _ => false) =
        (within fuel).statementRule mode := by
      rw [heeding_nothing fun _ => rfl]
      funext m
      rw [openedStatement, inside_none]
    simp only [noted, within, ih, inside_none, hstatement]

theorem noted_fuel (lookout : Lookout) (fuel : Nat) : (noted lookout fuel).fuel = fuel := by
  cases fuel <;> rfl

end Rules

/-! ## Contracts -/

theorem Link.Tied.heeding {L : Link} {k : Nat} {x y : Exec Signal} {alert : Jump → Bool}
    (h : L.Tied k (· = .normal) x y) : L.Tied k (· = .normal) (x.heeding alert) y := by
  have hback {m : Machine} {o : Outcome Signal} (hx : x.heeding alert m = o)
      (hnormal : ∀ {signal m'}, x m = .done signal m' → signal = .normal) : x m = o := by
    cases hrun : x m with
    | done signal m' =>
      obtain rfl := hnormal hrun
      exact (heeding_done hrun rfl).symm.trans hx
    | fault e m' => exact (heeding_fault hrun).symm.trans hx
    | outOfFuel => exact (heeding_outOfFuel hrun).symm.trans hx
  constructor
  · intro m n a m' hn hk hx
    exact h.done hn hk (hback hx fun hrun => (h.done hn hk hrun).1)
  · intro m n e m' hn hk hx
    exact h.fault hn hk (hback hx fun hrun => (h.done hn hk hrun).1)
  · intro m a m' hl hk hx
    exact h.lost_done hl hk (hback hx fun hrun => (h.lost_done hl hk hrun).1)
  · intro m e m' hl hk hx
    exact h.lost_fault hl hk (hback hx fun hrun => (h.lost_done hl hk hrun).1)

theorem Honours.heeding {exempt : Option ScopeId} {s : Exec Signal} {c : Cursor} {x : Exec Signal}
    {m : Machine} (h : Honours .signal exempt s c x m) (alert : Jump → Bool) :
    Honours .signal exempt s c (x.heeding alert) m := by
  cases hx : x m with
  | done signal m' =>
    have hd := h.done hx
    by_cases halert : signal.jump?.any alert = true
    · refine .of_fault (heeding_sighted hx halert) ⟨hd.sound, hd.kept, fun _ => hd.calls, ?_, ?_⟩
      · intro p he
        cases he
      · intro i he
        cases he
    · have hsame : x.heeding alert m = x m :=
        (heeding_done hx (Bool.eq_false_iff.mpr halert)).trans hx.symm
      exact ⟨fun hrun => h.done (hsame.symm.trans hrun),
        fun hrun => h.fault (hsame.symm.trans hrun)⟩
  | fault e m' => exact .of_fault (heeding_fault hx) (h.fault hx)
  | outOfFuel => exact .of_outOfFuel (heeding_outOfFuel hx)

namespace Rules

variable {r r' : Rules}

theorem InStep.inside {L : Link} (h : r.InStep L r') (lookout : Lookout) (b : Brace) :
    (r.inside lookout b).InStep L r' :=
  { h with statement := h.statement.heeding }

theorem Faithful.inside {k : Nat} (h : r.Faithful k) (lookout : Lookout) (b : Brace) :
    (r.inside lookout b).Faithful k :=
  { h with
    inStep := fun hm => (h.inStep hm).inside lookout b
    statement := fun hm => (h.statement hm).heeding _ }

theorem noted_inStep (lookout : Lookout) (L : Link) {n k : Nat} (hn : n ≤ k) :
    (noted lookout n).InStep L (Rules.within k) := by
  induction n generalizing k with
  | zero =>
    exact ⟨Nat.zero_le _, .outOfFuel, .outOfFuel, .outOfFuel, fun _ => .outOfFuel,
      fun _ _ => .outOfFuel⟩
  | succ n ih =>
    cases k with
    | zero => exact absurd hn (Nat.not_succ_le_zero n)
    | succ k =>
      have h := ih (Nat.le_of_succ_le_succ hn)
      have hstatement (b : Brace) := (h.inside lookout b).statementRule
      have hrule : L.Tied 0 (· = .normal) ((noted lookout n).openedStatement lookout .skip)
          ((Rules.within k).statementRule .skip) :=
        ⟨(hstatement _).done, (hstatement _).fault, (hstatement _).lost_done,
          (hstatement _).lost_fault⟩
      exact ⟨hn, hrule.heeding, h.assignmentRule, h.conditionalRule,
        fun least => h.binaryRule least,
        fun name location => (h.inside lookout _).callRule name location⟩

/-- The rules honour their contracts under any lookout. -/
theorem noted_faithful (lookout : Lookout) {n k : Nat} (hn : n ≤ k) :
    (noted lookout n).Faithful k := by
  induction n generalizing k with
  | zero =>
    exact ⟨fun _ => noted_inStep lookout _ hn, fun _ => .of_outOfFuel rfl,
      fun _ => .of_outOfFuel rfl, fun _ => .of_outOfFuel rfl, fun _ _ => .of_outOfFuel rfl,
      fun _ _ _ => .of_outOfFuel rfl⟩
  | succ n ih =>
    cases k with
    | zero => exact absurd hn (Nat.not_succ_le_zero n)
    | succ k =>
      have hk := Nat.le_of_succ_le_succ hn
      have h := ih hk
      refine ⟨fun _ => noted_inStep lookout _ hn, fun {m} hm => ?_, fun hm => h.assignmentRule hm,
        fun hm => h.conditionalRule hm, fun least hm => h.binaryRule least hm,
        fun name location hm =>
          callRule_honours (fun hk => (ih hk).inside lookout _) hk hm name location⟩
      have hstatement := (h.inside lookout m.opens).statementRule hm
      have hrule : Honours .signal none ((Rules.within k).statementRule .skip) m.cursor
          ((noted lookout n).openedStatement lookout .execute) m :=
          ⟨hstatement.done, hstatement.fault⟩
      exact hrule.heeding _

end Rules

end Replay
