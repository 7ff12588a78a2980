import Replay.Proofs.Follow.Scopes
/-!
Statements without loops are run as the tree says.

A statement that ends with a jump leaves the cursor somewhere in its text.  Nothing is said about
where: what deals with the jump puts the cursor where it belongs.
-/

namespace Replay

open Exec

instance : Inhabited Signal := ⟨.normal⟩

theorem Signal.eq_normal {signal : Signal} (h : signal.isInterrupt = false) : signal = .normal := by
  cases signal with
  | normal => rfl
  | broke _ | continued _ | returned _ _ => cases h

theorem Walk.inMode_normal (mode : Mode) : inMode mode (pure .normal) = pure Signal.normal := by
  cases mode <;> rfl

theorem Walk.inMode_unit (mode : Mode) : inMode mode (pure ()) = pure () := by
  cases mode <;> rfl

namespace View

variable {V : View} {i j l n : Nat} {m : Machine} {w : World}

structure Signalled (V : View) (j : Nat) (a b : Signal) (c : Cursor) : Prop where
  same : a = b
  held : ∀ v ∈ Reading.signal.values a, V.Held c v
  position : a.isInterrupt = false → c.position = j

theorem Signalled.normal {c : Cursor} (h : c.position = j) : V.Signalled j .normal .normal c :=
  ⟨rfl, fun _ hv => absurd hv List.not_mem_nil, fun _ => h⟩

theorem Agree.ended {α β : Type} {P : α → β → Cursor → Prop} {a : α} {b : β} (h : V.Agree i m w)
    (hP : P a b m.cursor) : V.Ended P a b m w :=
  ⟨⟨h.toLike, h.sound, rfl⟩, hP⟩

theorem Agree.normal (h : V.Agree j m w) : V.Ended (V.Signalled j) .normal .normal m w :=
  h.ended (.normal h.position)

theorem Ended.at {a b : Signal} (h : V.Ended (V.Signalled j) a b m w) (ha : a.isInterrupt = false) :
    V.Agree j m w := by
  have hagree := h.agree
  rwa [h.result.position ha] at hagree

/-- The rule `X`, started at token number `i`, reads up to number `j`, or to some jump before it,
and does what `y` does. -/
def Runs (V : View) (n : Nat) (X : Mode → Nat → Exec Signal) (y : Walk Signal) (i j : Nat) : Prop :=
  ∀ (mode : Mode) {m w}, V.Agree i m w →
  V.Sim n (X mode) (Walk.inMode mode y) (V.Ended (V.Signalled j)) m w

structure Same {α : Type} (V : View) (j : Nat) (a b : α) (m : Machine) (w : World) : Prop where
  same : a = b
  agree : V.Agree j m w

def Does {α : Type} [Inhabited α] (V : View) (n : Nat) (X : Mode → Nat → Exec α) (y : Walk α)
    (i j : Nat) : Prop :=
  ∀ (mode : Mode) {m w}, V.Agree i m w → V.Sim n (X mode) (Walk.inMode mode y) (V.Same j) m w

/-- The rule `X`, which has no counterpart, reads from token number `i` to number `j` and finds
`a`. -/
def Finds {α : Type} (V : View) (n : Nat) (X : Nat → Exec α) (a : α) (i j : Nat) : Prop :=
  ∀ ⦃m w⦄, V.Agree i m w → V.Sim n X (pure a) (V.Same j) m w

theorem Finds.bind {α γ δ : Type} {X : Nat → Exec α} {a : α} {F : Nat → α → Exec γ} {y : Walk δ}
    {R : γ → δ → Machine → World → Prop} (h : V.Finds n X a i j) (hagree : V.Agree i m w)
    (hf : ∀ {m₁}, m.cursor.Grown m₁.cursor → V.Agree j m₁ w → V.Sim n (fun k => F k a) y R m₁ w) :
    V.Sim n (fun k => X k >>= F k) y R m w := by
  refine Sim.scan_bind (h hagree) fun {a' m₁} hgrown hfound => ?_
  obtain ⟨rfl, hagree⟩ := hfound
  exact hf hgrown hagree

theorem Runs.skips {X : Mode → Nat → Exec Signal} {y : Walk Signal} (h : V.Runs n X y i j) :
    V.Finds n (X .skip) .normal i j := by
  intro m w hagree
  obtain ⟨a, m', hX, hgrown, hended⟩ := (h .skip hagree).done rfl
  obtain rfl : a = .normal := hended.result.same
  exact .of_ok rfl ⟨_, m', hX, hgrown, rfl, hended.at rfl⟩

theorem Does.skips {α : Type} [Inhabited α] {X : Mode → Nat → Exec α} {y : Walk α}
    (h : V.Does n X y i j) :
    V.Finds n (X .skip) default i j :=
  fun _ _ hagree => h .skip hagree

abbrev parenthesizeds (mode : Mode) (k : Nat) : Exec Bool := (Rules.within k).parenthesized mode
abbrev declarations (mode : Mode) (k : Nat) : Exec Unit := (Rules.within k).declaration mode
abbrev statements (mode : Mode) (k : Nat) : Exec Signal := (Rules.within k).statement mode
abbrev braces (mode : Mode) (k : Nat) : Exec Signal := (Rules.within k).bracedStatements mode
abbrev blocks (mode : Mode) (k : Nat) : Exec Signal := (Rules.within k).block mode

end View

/-! ## Clauses -/

def Rules.declareOne (r : Rules) (mode : Mode) : Exec Unit := do
  let (name, location) ← expectIdentifier
  let value ← r.initialValue mode
  match mode with
  | .execute => declare name value location
  | .skip => pure ()

theorem Rules.declarationTurn_eq (r : Rules) (mode : Mode) :
    r.declarationTurn mode () = r.declareOne mode >>= fun _ => do
      if ← peekIs .comma then
        let _ ← next
        return .again ()
      else return .stop () := by
  cases mode <;> simp only [declarationTurn, declareOne, bind_assoc, pure_bind]

namespace View

variable {V : View} {i j l n : Nat} {m : Machine} {w : World}

theorem Reads.parenthesizeds {y : Walk Value} {t : Token} (h : V.Reads n expressions y (i + 1) l)
    (ht : V.tape.At (i + 1) t) (hopen : V.tape.At i (.punct .leftParen))
    (hclose : V.tape.At l (.punct .rightParen)) :
    V.Does n parenthesizeds
      (y >>= fun v => Walk.ofRuntime v.condition (V.tape.marks (i + 1)).location) i (l + 1) := by
  intro mode m w hagree
  show V.Sim n (fun k => (Rules.within k).parenthesized mode) _ _ _ _
  simp only [Rules.parenthesized]
  refine Sim.expect_bind hagree hopen fun _ hagree => ?_
  refine Sim.peek_bind hagree ht fun _ hagree => ?_
  cases mode with
  | execute =>
    refine (h .execute hagree).bind fun _ hvalued => ?_
    obtain rfl := hvalued.same rfl
    refine Sim.expect_bind hvalued.agree hclose fun _ hagree => ?_
    exact .ofRuntime hagree.fails fun _ => ⟨rfl, hagree⟩
  | skip =>
    refine Sim.scan_bind (h .skip hagree) fun _ hvalued => ?_
    refine Sim.expect_bind hvalued.agree hclose fun _ hagree => ?_
    exact .pure ⟨rfl, hagree⟩

/-- A name with an initial value. -/
theorem Reads.declareOne (hV : V.Blind) {y : Walk Value} {name : String}
    (h : V.Reads n assignments y (i + 2) l)
    (hname : V.tape.At i (.identifier name)) (hequals : V.tape.At (i + 1) (.punct .equals)) :
    V.Does n (fun mode k => (Rules.within k).declareOne mode)
      (y >>= fun v => Walk.declare name (some v) (V.tape.marks i).location) i l := by
  intro mode m w hagree
  simp only [Rules.declareOne, Rules.initialValue, bind_assoc]
  refine Sim.expectIdentifier_bind hagree hname fun _ hagree => ?_
  have hsign : (Token.punct .equals).isPunct .equals = true := rfl
  refine Sim.peekIs_bind hagree hequals hsign fun _ hagree => ?_
  simp only [if_true, bind_assoc, pure_bind]
  refine Sim.next_bind hagree hequals fun _ hagree => ?_
  cases mode with
  | execute =>
    refine (h .execute hagree).bind fun _ hvalued => ?_
    obtain rfl := hvalued.same rfl
    refine (Sim.declare hV hvalued.agree fun v hv => ?_).mono fun _ hdeclared => ⟨rfl, hdeclared.1⟩
    cases hv
    exact hvalued.held
  | skip => exact Sim.scan_bind (h .skip hagree) fun _ hvalued => .pure ⟨rfl, hvalued.agree⟩

/-- A name without an initial value. -/
theorem Does.declareOne (hV : V.Blind) {name : String} {t : Token}
    (hname : V.tape.At i (.identifier name))
    (ht : V.tape.At (i + 1) t) (hequals : t.isPunct .equals = false) :
    V.Does n (fun mode k => (Rules.within k).declareOne mode)
      (Walk.declare name none (V.tape.marks i).location) i (i + 1) := by
  intro mode m w hagree
  simp only [Rules.declareOne, Rules.initialValue, bind_assoc]
  refine Sim.expectIdentifier_bind hagree hname fun _ hagree => ?_
  refine Sim.peekIs_bind hagree ht hequals fun _ hagree => ?_
  simp only [Bool.false_eq_true, if_false, pure_bind]
  cases mode with
  | execute =>
    exact (Sim.declare hV hagree fun v hv => by cases hv).mono fun _ hdeclared => ⟨rfl, hdeclared.1⟩
  | skip => exact .pure ⟨rfl, hagree⟩

def Declares (V : View) (n : Nat) (y : Walk Unit) (i j : Nat) : Prop :=
  ∀ (mode : Mode) (t : Nat) {m w}, V.Agree i m w →
    V.Sim n (fun k => loop ((Rules.within k).declarationTurn mode) (k - t) ()) (Walk.inMode mode y)
      (V.Same j) m w

theorem Declares.last {y : Walk Unit} {t : Token}
    (h : V.Does n (fun mode k => (Rules.within k).declareOne mode) y i j)
    (ht : V.tape.At j t) (hcomma : t.isPunct .comma = false) : V.Declares n y i j := by
  intro mode turns m w hagree
  refine Sim.turn ?_
  simp only [Rules.declarationTurn_eq, bind_assoc]
  rw [← bind_pure (Walk.inMode mode y)]
  refine (h mode hagree).bind fun _ hdone => ?_
  exact Sim.peekIs_bind hdone.agree ht hcomma fun _ hagree => .pure ⟨rfl, hagree⟩

theorem Declares.cons {y z : Walk Unit}
    (h : V.Does n (fun mode k => (Rules.within k).declareOne mode) y i l)
    (hcomma : V.tape.At l (.punct .comma)) (hrest : V.Declares n z (l + 1) j) :
    V.Declares n (y >>= fun _ => z) i j := by
  intro mode turns m w hagree
  refine Sim.turn ?_
  simp only [Rules.declarationTurn_eq, bind_assoc]
  rw [Walk.inMode_seq]
  refine (h mode hagree).bind fun _ hdone => ?_
  have hsign : (Token.punct .comma).isPunct .comma = true := rfl
  refine Sim.peekIs_bind hdone.agree hcomma hsign fun _ hagree => ?_
  simp only [if_true, bind_assoc, pure_bind, afterTurn]
  exact Sim.next_bind hagree hcomma fun _ hagree => hrest mode (turns + 1) hagree

theorem Declares.does {y : Walk Unit} (h : V.Declares n y i j) : V.Does n declarations y i j := by
  intro mode m w hagree
  have hsim := h mode 0 hagree
  have hloop : declarations mode = fun k =>
    loop ((Rules.within k).declarationTurn mode) (k - 0) () := by
    funext k
    rw [declarations, Rules.declaration, Rules.within_fuel, Nat.sub_zero]
  rwa [hloop]

/-! ## Statements in braces -/

def RunsAll (V : View) (n : Nat) (y : Walk Signal) (i j : Nat) : Prop :=
  ∀ (mode : Mode) (t : Nat) {m w}, V.Agree i m w →
    V.Sim n (fun k => loop ((Rules.within k).statementTurn mode) (k - t) ()) (Walk.inMode mode y)
      (V.Ended (V.Signalled j)) m w

def Opens (V : View) (i : Nat) : Prop := ∃ t, V.tape.At i t ∧ t.opens = true

theorem RunsAll.nil (ht : V.tape.At i (.punct .rightBrace)) :
    V.RunsAll n (pure .normal) i (i + 1) := by
  intro mode turns m w hagree
  refine Sim.turn ?_
  simp only [Rules.statementTurn, bind_assoc]
  refine Sim.peek_bind hagree ht fun _ hagree => ?_
  simp only [bind_assoc, pure_bind, afterTurn]
  refine Sim.next_bind hagree ht fun _ hagree => ?_
  rw [Walk.inMode_normal]
  exact .pure hagree.normal

theorem RunsAll.cons {y z : Walk Signal} (h : V.Runs n statements y i l) (hopens : V.Opens i)
    (hrest : V.RunsAll n z l j) :
    V.RunsAll n (y >>= fun signal => if signal.isInterrupt then pure signal else z) i j := by
  intro mode turns m w hagree
  obtain ⟨t, ht, hopens⟩ := hopens
  refine Sim.turn ?_
  simp only [Rules.statementTurn, bind_assoc]
  refine Sim.peek_bind hagree ht fun {d index} _ hagree => ?_
  have hgo : V.Sim n (fun k => ((Rules.within k).statement mode >>= fun signal =>
      if signal.isInterrupt then pure (.stop signal) else pure (.again ())) >>=
        afterTurn (loop ((Rules.within k).statementTurn mode) (k - (turns + 1))))
      (Walk.inMode mode (y >>= fun signal => if signal.isInterrupt then pure signal else z))
      (V.Ended (V.Signalled j)) (m.on d) w := by
    simp only [bind_assoc]
    cases mode with
    | skip =>
      refine h.skips.bind hagree fun _ hagree => ?_
      exact hrest .skip (turns + 1) hagree
    | execute =>
      refine (h .execute hagree).bind fun {a b m₁ w₁} _ hended => ?_
      obtain rfl := hended.result.same
      cases ha : a.isInterrupt with
      | true =>
        simp only [if_true, pure_bind, afterTurn]
        exact .pure ⟨hended.agree, rfl, hended.result.held, fun hno => by cases ha.symm.trans hno⟩
      | false =>
        simp only [Bool.false_eq_true, if_false, pure_bind, afterTurn]
        exact hrest .execute (turns + 1) (hended.at ha)
  cases t with
  | punct p => cases p <;> first | exact hgo | cases hopens
  | endOfInput => cases hopens
  | _ => exact hgo

theorem RunsAll.braces {y : Walk Signal} (h : V.RunsAll n y (i + 1) j)
    (ht : V.tape.At i (.punct .leftBrace)) :
    V.Runs n braces y i j := by
  intro mode m w hagree
  show V.Sim n (fun k => (Rules.within k).bracedStatements mode) _ _ _ _
  simp only [Rules.bracedStatements, Rules.within_fuel]
  exact Sim.expect_bind hagree ht fun _ hagree => h mode 0 hagree

/-- Statements in a scope of their own. -/
theorem Runs.blocks (hV : V.Blind) {y : Walk Signal} (h : V.Runs n braces y i j) :
    V.Runs n blocks (Walk.inChild y) i j := by
  intro mode m w hagree
  show V.Sim n (fun k => (Rules.within k).block mode) _ _ _ _
  simp only [Rules.block]
  cases mode with
  | skip => exact h .skip hagree
  | execute =>
    refine Sim.inChild (S := .signal) (s := braces .skip) hV hagree
      (fun {k id m₁} hm _ hcursor => ?_)
      fun hagree _ _ _ => h .execute hagree
    exact hcursor ▸ ((Rules.within_faithful (Nat.le_refl k)).bracedStatements hm).exempting _

/-! ## Branches -/

def RunsChain (V : View) (n : Nat) (y : Walk Signal) (i j : Nat) : Prop :=
  ∀ (mode : Mode) (t : Nat) {m w}, V.Agree i m w →
    V.Sim n (fun k => loop (Rules.within k).ifTurn (k - t) mode) (Walk.inMode mode y)
      (V.Ended (V.Signalled j)) m w

def RunsRest (V : View) (n : Nat) (y : Walk Signal) (i j : Nat) : Prop :=
  ∀ (mode : Mode) (t : Nat) {m w}, V.Agree i m w →
    V.Sim n (fun k => (Rules.within k).ifRest mode >>=
      afterTurn (loop (Rules.within k).ifTurn (k - t)))
      (Walk.inMode mode y) (V.Ended (V.Signalled j)) m w

theorem RunsChain.of_rest {y z : Walk Signal} {c : Walk Bool} {l' : Nat}
    (hc : V.Does n parenthesizeds c i l)
    (h : V.Runs n View.blocks y l l') (hrest : V.RunsRest n z l' j) :
    V.RunsChain n (c >>= fun taken => if taken then y else z) i j := by
  intro mode turns m w hagree
  refine Sim.turn ?_
  simp only [Rules.ifTurn, bind_assoc]
  have hskip {m : Machine} {w : World} {mode : Mode} (hagree : V.Agree l m w) :
      V.Sim n (fun k => (Rules.within k).block .skip >>= fun signal =>
        (if signal.isInterrupt then pure (.stop signal) else (Rules.within k).ifRest mode) >>=
          afterTurn (loop (Rules.within k).ifTurn (k - (turns + 1)))) (Walk.inMode mode z)
        (V.Ended (V.Signalled j)) m w :=
    h.skips.bind hagree fun _ hagree => hrest mode (turns + 1) hagree
  cases mode with
  | skip =>
    refine Sim.scan_bind (hc .skip hagree) fun {taken m₁} _ htaken => ?_
    obtain ⟨rfl, hagree⟩ := htaken
    exact hskip hagree
  | execute =>
    refine (hc .execute hagree).bind fun {taken b m₁ w₁} _ htaken => ?_
    obtain ⟨rfl, hagree⟩ := htaken
    cases taken with
    | false => exact hskip hagree
    | true =>
      simp only [if_true]
      rw [← bind_pure y]
      refine (h .execute hagree).bind fun {a b m₂ w₂} _ hended => ?_
      obtain rfl := hended.result.same
      cases ha : a.isInterrupt with
      | true =>
        simp only [if_true, pure_bind, afterTurn]
        exact .pure ⟨hended.agree, rfl, hended.result.held, fun hno => by cases ha.symm.trans hno⟩
      | false =>
        rw [Signal.eq_normal ha]
        exact hrest .skip (turns + 1) (hended.at ha)

theorem RunsRest.done {t : Token} (ht : V.tape.At i t) (hbranches : t.branches = false) :
    V.RunsRest n (pure .normal) i i := by
  intro mode turns m w hagree
  simp only [Rules.ifRest, bind_assoc]
  refine Sim.next_bind hagree ht fun {d index} _ hagree => ?_
  rw [Walk.inMode_normal]
  have hgo : V.Sim n (fun k => (rollback >>= fun _ => pure (.stop .normal)) >>=
      afterTurn (loop (Rules.within k).ifTurn (k - turns))) (pure .normal) (V.Ended (V.Signalled i))
          (m.on d) w := by
    simp only [bind_assoc, pure_bind, afterTurn]
    exact Sim.rollback_bind hagree fun _ hagree => .pure hagree.normal
  cases t with
  | keyword q => cases q <;> first | exact hgo | cases hbranches
  | _ => exact hgo

theorem RunsRest.elif {y : Walk Signal} (ht : V.tape.At i (.keyword .kwElif))
    (h : V.RunsChain n y (i + 1) j) :
    V.RunsRest n y i j := by
  intro mode turns m w hagree
  simp only [Rules.ifRest, bind_assoc]
  exact Sim.next_bind hagree ht fun _ hagree => h mode turns hagree

theorem RunsRest.otherwise {y : Walk Signal} (ht : V.tape.At i (.keyword .kwElse))
    (h : V.Runs n View.blocks y (i + 1) j) : V.RunsRest n y i j := by
  intro mode turns m w hagree
  simp only [Rules.ifRest, bind_assoc]
  refine Sim.next_bind hagree ht fun _ hagree => ?_
  simp only [bind_assoc, pure_bind, afterTurn, bind_pure]
  exact h mode hagree

end View

/-! ## Procedures -/

def Rules.define (mode : Mode) (name : String) (entry : Nat) (location : Location) :
    Exec Signal := do
  match mode with
  | .execute =>
    declare name (some (.procedure ⟨entry, ← currentScope⟩)) location
    return .normal
  | .skip => return .normal

theorem Rules.procedureDefinition_eq (r : Rules) (mode : Mode) :
    r.procedureDefinition mode = (do
      let (name, location) ← expectIdentifier
      let entry ← position
      let _ ← r.procedureText
      define mode name entry location) := by
  cases mode <;> simp only [procedureDefinition, procedureText, define, bind_assoc]

def Parameter.sign (x : Parameter Place) : String × Location := (x.name, x.place.location)

namespace View

variable {V : View} {i j l n : Nat} {m : Machine} {w : World}

def FindsNames (V : View) (n : Nat) (names : List (String × Location)) (i j : Nat) : Prop :=
  ∀ (t : Nat) (seen : List (String × Location)),
    V.Finds n (fun k => loop (listTurn expectIdentifier) (k - t) seen) (seen ++ names) i j

theorem FindsNames.last {name : String} (hname : V.tape.At i (.identifier name))
    (ht : V.tape.At (i + 1) (.punct .rightParen)) :
    V.FindsNames n [(name, (V.tape.marks i).location)] i (i + 2) := by
  intro turns seen m w hagree
  refine Sim.turn ?_
  simp only [listTurn, bind_assoc]
  refine Sim.expectIdentifier_bind hagree hname fun _ hagree => ?_
  exact Sim.next_bind hagree ht fun _ hagree => .pure ⟨rfl, hagree⟩

theorem FindsNames.cons {name : String} {names : List (String × Location)}
    (hname : V.tape.At i (.identifier name))
    (ht : V.tape.At (i + 1) (.punct .comma)) (hrest : V.FindsNames n names (i + 2) j) :
    V.FindsNames n ((name, (V.tape.marks i).location) :: names) i j := by
  intro turns seen m w hagree
  refine Sim.turn ?_
  simp only [listTurn, bind_assoc]
  refine Sim.expectIdentifier_bind hagree hname fun _ hagree => ?_
  refine Sim.next_bind hagree ht fun _ hagree => ?_
  have hsim := hrest (turns + 1) (seen ++ [(name, (V.tape.marks i).location)]) hagree
  rw [List.append_assoc] at hsim
  exact hsim

theorem FindsNames.of_spells (x : Parameter Unit) (xs : List (Parameter Unit)) {i : Nat}
    (hs : V.tape.Spells i (Parameter.listTokens (x :: xs))) :
    V.FindsNames n ((Parameter.markedList V.tape.marks (x :: xs) i).map Parameter.sign) i
      (i + (Parameter.listTokens (x :: xs)).length) := by
  induction xs generalizing x i with
  | nil =>
    obtain ⟨hname, hclose, _⟩ := hs
    exact .last hname hclose
  | cons x' xs ih =>
    obtain ⟨hname, hcomma, hs⟩ := hs
    have hlength : (Parameter.listTokens (x :: x' :: xs)).length =
      (Parameter.listTokens (x' :: xs)).length + 2 := rfl
    have hrest := ih x' hs
    rw [hlength, show i + ((Parameter.listTokens (x' :: xs)).length + 2) =
      i + 2 + (Parameter.listTokens (x' :: xs)).length by omega]
    exact .cons hname hcomma hrest

/-- The names of the parameters, up to the closing parenthesis. -/
theorem Finds.names (xs : List (Parameter Unit)) (hs : V.tape.Spells i (Parameter.listTokens xs)) :
    V.Finds n (fun k => closedList k expectIdentifier)
      ((Parameter.markedList V.tape.marks xs i).map Parameter.sign) i
      (i + (Parameter.listTokens xs).length) := by
  intro m w hagree
  simp only [closedList]
  cases xs with
  | nil =>
    have hclose : (Token.punct .rightParen).isPunct .rightParen = true := rfl
    refine Sim.peekIs_bind hagree hs.1 hclose fun _ hagree => ?_
    exact Sim.next_bind hagree hs.1 fun _ hagree => .pure ⟨rfl, hagree⟩
  | cons x xs =>
    refine Sim.peekIs_bind hagree hs.1 rfl fun _ hagree => ?_
    exact FindsNames.of_spells x xs hs 0 [] hagree

theorem Finds.parameterList (xs : List (Parameter Unit)) (hopen : V.tape.At i (.punct .leftParen))
    (hs : V.tape.Spells (i + 1) (Parameter.listTokens xs)) :
    V.Finds n (fun k => (Rules.within k).parameterList)
      ((Parameter.markedList V.tape.marks xs (i + 1)).map Parameter.sign) i
      (i + 1 + (Parameter.listTokens xs).length) := by
  intro m w hagree
  simp only [Rules.parameterList, Rules.within_fuel]
  exact Sim.expect_bind hagree hopen fun _ hagree => Finds.names xs hs hagree

/-- A procedure whose text has just been skipped can be called. -/
theorem Finds.callable {y : Walk Signal} {names : List (String × Location)}
    (hnames : V.Finds n (fun k => (Rules.within k).parameterList) names i l)
    (hbody : V.Runs n braces y l j) (hagree : V.Agree i m w) :
    V.Sim n (fun k => (Rules.within k).procedureText) (pure Signal.normal)
      (fun _ _ m' w' => V.Agree j m' w' ∧ Callable m'.cursor.cache i) m w := by
  have hfinds : V.Finds n (fun k => (Rules.within k).procedureText) .normal i j := fun _ _ hagree =>
    hnames.bind hagree fun _ hagree => hbody.skips hagree
  refine ((hfinds hagree).and fun {k a m'} hdone => ?_).mono fun _ hread => ⟨hread.1.agree, hread.2⟩
  obtain ⟨d, rfl, hgrown, hin, rfl, hs⟩ :=
    (Rules.within_inStep (.frame m (.bare m.cursor)) (Nat.le_refl k)).procedureText.skim_done
      hagree.sound.inside hdone
  have hcached (c : Cursor) (hc : d.cache.toList <+: c.cache.toList) :=
    Reader.scans_cached (fun L => (Rules.within_reads k L).procedureText) hagree.sound.inside hc hs
  rw [hagree.position] at hcached
  refine ⟨?_, k, d.position, hcached⟩
  rw [← hagree.position]
  exact Nat.le_trans hagree.sound.inside hgrown.size_le

/-! ## Statements by their first token -/

theorem Runs.le {X : Mode → Nat → Exec Signal} {y : Walk Signal} {n' : Nat} (h : V.Runs n X y i j)
    (hn : n' ≤ n) :
    V.Runs n' X y i j :=
  fun mode _ _ hagree => (h mode hagree).le hn

theorem Does.upTo {α : Type} [Inhabited α] {X : Mode → Nat → Exec α} {y : Walk α} {j' : Nat}
    (h : V.Does n X y i j) (hj : j = j') : V.Does n X y i j' :=
  hj ▸ h

theorem Runs.upTo {X : Mode → Nat → Exec Signal} {y : Walk Signal} {j' : Nat} (h : V.Runs n X y i j)
    (hj : j = j') :
    V.Runs n X y i j' :=
  hj ▸ h

theorem Runs.empty (ht : V.tape.At i (.punct .semicolon)) :
    V.Runs (n + 1) statements (pure .normal) i (i + 1) := by
  intro mode m w hagree
  rw [Walk.inMode_normal]
  exact Sim.succ rfl (Sim.next_bind hagree ht fun _ hagree => .pure hagree.normal)

theorem Runs.block {y : Walk Signal} (ht : V.tape.At i (.punct .leftBrace))
    (h : V.Runs n View.blocks y i j) :
    V.Runs (n + 1) statements y i j := by
  intro mode m w hagree
  refine Sim.succ rfl (Sim.next_bind hagree ht fun _ hagree => ?_)
  exact Sim.rollback_bind hagree fun _ hagree => h mode hagree

theorem Runs.branch {y : Walk Signal} (ht : V.tape.At i (.keyword .kwIf))
    (h : V.RunsChain n y (i + 1) j) :
    V.Runs (n + 1) statements y i j := by
  intro mode m w hagree
  refine Sim.succ rfl (Sim.next_bind hagree ht fun _ hagree => ?_)
  simp only [Rules.ifChain, Rules.within_fuel]
  exact h mode 0 hagree

theorem Runs.procedure (hV : V.Blind) {y : Walk Signal} {name : String}
    {names : List (String × Location)}
    (ht : V.tape.At i (.keyword .kwProcedure)) (hname : V.tape.At (i + 1) (.identifier name))
    (hnames : V.Finds n (fun k => (Rules.within k).parameterList) names (i + 2) l)
    (hbody : V.Runs n braces y l j) (hknown : ∀ scope, V.known (.procedure ⟨i + 2, scope⟩)) :
    V.Runs (n + 1) statements (do
      Walk.declare name (some (.procedure ⟨i + 2, ← Walk.currentScope⟩))
        (V.tape.marks (i + 1)).location
      return .normal) i j := by
  intro mode m w hagree
  refine Sim.succ rfl (Sim.next_bind hagree ht fun {d index} _ hagree => ?_)
  show V.Sim n (fun k => (Rules.within k).procedureDefinition mode) _ _ _ _
  simp only [Rules.procedureDefinition_eq]
  refine Sim.expectIdentifier_bind hagree hname fun _ hagree => ?_
  refine Sim.position_bind hagree ?_
  refine Sim.scan_bind (hnames.callable hbody hagree) fun {_ m₁} _ hread => ?_
  obtain ⟨hagree, hcallable⟩ := hread
  cases mode with
  | skip => exact .pure hagree.normal
  | execute =>
    have hy : Walk.currentScope w = some (.ok m₁.current, w) := by rw [hagree.current]; rfl
    refine Sim.done_bind (x := Exec.currentScope) rfl hy (.refl _) ?_
    refine (Sim.declare hV hagree fun v hv => ?_).bind fun _ hdeclared => .pure hdeclared.1.normal
    cases hv
    exact ⟨hcallable, hknown _⟩

theorem Runs.declare {y : Walk Unit} (ht : V.tape.At i (.keyword .kwVar))
    (h : V.Declares n y (i + 1) l) (hend : V.tape.At l (.punct .semicolon)) :
    V.Runs (n + 1) statements (y >>= fun _ => pure .normal) i (l + 1) := by
  intro mode m w hagree
  refine Sim.succ rfl (Sim.next_bind hagree ht fun _ hagree => ?_)
  rw [Walk.inMode_seq, Walk.inMode_normal]
  refine (h.does mode hagree).bind fun _ hdone => ?_
  exact Sim.expect_bind hdone.agree hend fun _ hagree => .pure hagree.normal

theorem Runs.eval {y : Walk Value} (ht : V.tape.At i (.keyword .kwEval))
    (h : V.Reads n expressions y (i + 1) l) (hend : V.tape.At l (.punct .semicolon)) :
    V.Runs (n + 1) statements (do
      let value ← y
      Walk.write (value.text ++ "\n")
      return .normal) i (l + 1) := by
  intro mode m w hagree
  refine Sim.succ rfl (Sim.next_bind hagree ht fun _ hagree => ?_)
  cases mode with
  | skip =>
    refine Sim.scan_bind (h .skip hagree) fun _ hvalued => ?_
    exact Sim.expect_bind hvalued.agree hend fun _ hagree => .pure hagree.normal
  | execute =>
    refine (h .execute hagree).bind fun _ hvalued => ?_
    obtain rfl := hvalued.same rfl
    refine Sim.expect_bind hvalued.agree hend fun _ hagree => ?_
    exact (Sim.write hagree).bind fun _ hwritten => .pure hwritten.1.normal

/-- What does not start with any of the signs and keywords of the other statements. -/
theorem Runs.expression {y : Walk Value} {t : Token} (ht : V.tape.At i t)
    (hstarts : t.starts = true)
    (h : V.Reads n expressions y i l) (hend : V.tape.At l (.punct .semicolon)) :
    V.Runs (n + 1) statements (y >>= fun _ => pure .normal) i (l + 1) := by
  intro mode m w hagree
  refine Sim.succ rfl (Sim.next_bind hagree ht fun {d index} _ hagree => ?_)
  have hgo : V.Sim n (fun k => rollback >>= fun _ => (Rules.within k).expressionStatement mode)
      (Walk.inMode mode (y >>= fun _ => pure .normal)) (V.Ended (V.Signalled (l + 1)))
        (m.on d) w := by
    rw [Walk.inMode_seq, Walk.inMode_normal]
    refine Sim.rollback_bind hagree fun _ hagree => ?_
    refine (h mode hagree).bind fun _ hvalued => ?_
    exact Sim.expect_bind hvalued.agree hend fun _ hagree => .pure hagree.normal
  cases t with
  | punct p => cases p <;> first | exact hgo | cases hstarts
  | keyword q => cases q <;> first | exact hgo | cases hstarts
  | endOfInput => cases hstarts
  | _ => exact hgo

/-! ## Jumps -/

theorem Sim.jump (mode : Mode) {signal : Signal} (h : V.Agree j m w)
    (hheld : ∀ v ∈ Reading.signal.values signal, V.Held m.cursor v) :
    V.Sim n (fun _ => Pure.pure (Rules.jump mode signal)) (Walk.inMode mode (Pure.pure signal))
      (V.Ended (V.Signalled j)) m w := by
  cases mode with
  | skip => exact .pure h.normal
  | execute => exact .pure (h.ended ⟨rfl, hheld, fun _ => h.position⟩)

theorem Runs.breakLoop (ht : V.tape.At i (.keyword .kwBreak))
    (hend : V.tape.At (i + 1) (.punct .semicolon)) :
    V.Runs (n + 1) statements (pure (.broke (V.tape.marks i).location)) i (i + 2) := by
  intro mode m w hagree
  refine Sim.succ rfl (Sim.next_bind hagree ht fun _ hagree => ?_)
  exact Sim.expect_bind hagree hend fun _ hagree => .jump mode hagree fun _ hv =>
    absurd hv List.not_mem_nil

theorem Runs.continueLoop (ht : V.tape.At i (.keyword .kwContinue))
    (hend : V.tape.At (i + 1) (.punct .semicolon)) :
    V.Runs (n + 1) statements (pure (.continued (V.tape.marks i).location)) i (i + 2) := by
  intro mode m w hagree
  refine Sim.succ rfl (Sim.next_bind hagree ht fun _ hagree => ?_)
  exact Sim.expect_bind hagree hend fun _ hagree => .jump mode hagree fun _ hv =>
    absurd hv List.not_mem_nil

theorem Runs.returnNothing (ht : V.tape.At i (.keyword .kwReturn))
    (hend : V.tape.At (i + 1) (.punct .semicolon)) :
    V.Runs (n + 1) statements (pure (.returned none (V.tape.marks i).location)) i (i + 2) := by
  intro mode m w hagree
  refine Sim.succ rfl (Sim.next_bind hagree ht fun _ hagree => ?_)
  have hsign : (Token.punct .semicolon).isPunct .semicolon = true := rfl
  refine Sim.peekIs_bind hagree hend hsign fun _ hagree => ?_
  exact Sim.next_bind hagree hend fun _ hagree => .jump mode hagree fun _ hv =>
    absurd hv List.not_mem_nil

theorem Runs.returnValue {y : Walk Value} {t : Token} (ht : V.tape.At i (.keyword .kwReturn))
    (hhead : V.tape.At (i + 1) t) (hstarts : t.starts = true)
    (h : V.Reads n expressions y (i + 1) l) (hend : V.tape.At l (.punct .semicolon)) :
    V.Runs (n + 1) statements (do
      let value ← y
      return .returned (some value) (V.tape.marks i).location) i (l + 1) := by
  intro mode m w hagree
  refine Sim.succ rfl (Sim.next_bind hagree ht fun _ hagree => ?_)
  refine Sim.peekIs_bind hagree hhead (Token.not_punct_of_starts hstarts rfl) fun _ hagree => ?_
  cases mode with
  | skip =>
    refine Sim.scan_bind (h .skip hagree) fun _ hvalued => ?_
    exact Sim.expect_bind hvalued.agree hend fun _ hagree => .pure hagree.normal
  | execute =>
    refine (h .execute hagree).bind fun _ hvalued => ?_
    obtain rfl := hvalued.same rfl
    refine Sim.expect_bind hvalued.agree hend fun hgrown hagree => ?_
    refine .jump .execute hagree fun v hv => ?_
    rw [List.mem_singleton.mp hv]
    exact hvalued.held.mono hgrown

end View
end Replay
