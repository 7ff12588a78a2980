import Replay.Proofs.Follow
/-!
Expressions are evaluated as the tree says.

The rules for expressions look for what binds most loosely first and call each other down to a
literal, a name or a parenthesis, and the rules for sequences, for binary operators and for prefix
operators turn in loops.  So what a rule makes of an operand is said together with what it goes on
with: a chain is an operand with the turns that the loop has left after it.
-/

namespace Replay

open Exec

/-! ## Names -/

def Machine.updated (m : Machine) (error : Error) :
    Except InternalError (Option ScopeTree) → Outcome Unit
  | .ok (some scopes) => .done () { m with scopes }
  | .ok none => .fault error m
  | .error e => .fault (.internal e) m

def World.updated (w : World) (error : Error) :
    Except InternalError (Option ScopeTree) → Option (Except Error Unit × World)
  | .ok (some scopes) => some (.ok (), { w with scopes })
  | .ok none => some (.error error, w)
  | .error e => some (.error (.internal e), w)

namespace View

variable {V : View} {i j n : Nat} {m : Machine} {w : World} {γ δ : Type}
  {R : γ → δ → Machine → World → Prop}

def Held (V : View) (c : Cursor) (v : Value) : Prop := v.Good c.cache ∧ V.known v

theorem Held.of_kind {c : Cursor} {v : Value} (h : v.kind ≠ .procedure) :
    V.Held c v := ⟨Value.good_of_kind h _, V.plain h⟩

theorem Held.noValue {c : Cursor} : V.Held c .noValue := .of_kind (by decide)

theorem Held.mono {c d : Cursor} {v : Value} (h : V.Held c v) (hgrown : c.Grown d) : V.Held d v :=
  ⟨h.1.mono hgrown.cache_le, h.2⟩

namespace Sim

theorem lookup_bind {F : Nat → Option Binding → Exec γ} {g : Option Binding → Walk δ}
    {name : String} (h : V.Agree i m w)
    (hf : ∀ {found}, (∀ {b v}, found = some b → b.value = some v → V.Held m.cursor v) →
      V.Sim n (fun k => F k found) (g found) R m w) :
    V.Sim n (fun k => lookup name >>= F k) (Walk.lookup name >>= g) R m w := by
  obtain ⟨found, hok, hfound⟩ := ScopeTree.lookup_ok h.sound.connected h.sound.current name
  have hx : lookup name m = .done found m := by simp only [lookup, hok]
  have hy : Walk.lookup name w = some (.ok found, w) := by
    simp only [Walk.lookup, ← V.lookup_eq h.scopes, ← h.current, hok]
  refine done_bind hx hy (.refl _) (hf fun {b v} hb hv => ?_)
  obtain ⟨owner, scope, hs, hb⟩ := hfound b hb
  exact ⟨(h.sound.bindings hs).find? hb hv, (h.known.find? hs).find? hb hv⟩

/-- A request for a change of the tree that may be refused with `error`. -/
theorem update {x : Exec Unit} {y : Walk Unit} {error : Error}
    {r r' : Except InternalError (Option ScopeTree)}
    (h : V.Agree i m w) (hx : x m = m.updated error r) (hy : y w = w.updated error r')
    (halike : UpdatesAlike V.alike r r') (hsound : ∀ {m'}, x m = .done () m' → m'.Sound)
    (hknown : ∀ {t}, r = .ok (some t) → t.Holds V.known) :
    V.Sim n (fun _ => x) y (fun _ _ m' w' => V.Agree i m' w' ∧ m'.cursor = m.cursor) m w := by
  rcases r with e | _ | t <;> rcases r' with e' | _ | u
  · cases (show e = e' from halike)
    exact of_fault hx hy h.fails
  · exact (show False from halike).elim
  · exact (show False from halike).elim
  · exact (show False from halike).elim
  · exact of_fault hx hy h.fails
  · exact (show False from halike).elim
  · exact (show False from halike).elim
  · exact (show False from halike).elim
  · exact of_done hx hy (.refl _)
      ⟨⟨⟨h.grown, halike, h.current, h.depth, h.maxDepth, h.out, hknown rfl⟩, hsound hx,
        h.position⟩, rfl⟩

/-- Storing a value in a variable. -/
theorem store {name : String} {value : Value} {location : Location} (h : V.Agree i m w)
    (hv : V.Held m.cursor value) :
    V.Sim n (fun _ => store name value location) (Walk.store name value location)
      (fun _ _ m' w' => V.Agree i m' w' ∧ m'.cursor = m.cursor) m w := by
  have hrun : Honours .any none (Pure.pure ()) m.cursor (Exec.store name value location) m :=
    .store h.sound name location hv.1
  have hx : Exec.store name value location m =
    m.updated (.runtime ⟨.undefinedIdentifier name, location⟩)
      (m.scopes.assign? m.current name (some value)) := rfl
  have hy : Walk.store name value location w =
    w.updated (.runtime ⟨.undefinedIdentifier name, location⟩)
      (w.scopes.assign? w.current name (some value)) := rfl
  refine update h hx (h.current ▸ hy) (V.assign_alike h.scopes m.current name (some value))
    (fun hdone => (hrun.done hdone).sound) fun hok => ?_
  exact h.known.assign? (fun v hv' => by cases hv'; exact hv.2) hok

end Sim

/-! ## Values -/

/-- The interpreter has the value `a` behind the token before number `j`, where the walk has `b`.  A
value that was skipped is of no account. -/
structure Valued (V : View) (mode : Mode) (j : Nat) (a b : Value) (m : Machine) (w : World) :
    Prop where
  agree : V.Agree j m w
  held : V.Held m.cursor a
  same : mode = .execute → a = b

namespace Valued

variable {mode : Mode} {a b : Value}

theorem of_held (h : V.Agree j m w) (ha : V.Held m.cursor a) : V.Valued mode j a a m w :=
  ⟨h, ha, fun _ => rfl⟩

theorem skipped (h : V.Agree j m w) (ha : V.Held m.cursor a) : V.Valued .skip j a b m w :=
  ⟨h, ha, fun hm => by cases hm⟩

theorem on (h : V.Valued mode j a b m w) {d : Cursor} (hd : m.cursor.Grown d)
    (hagree : V.Agree i (m.on d) w) :
    V.Valued mode i a b (m.on d) w :=
  ⟨hagree, h.held.mono hd, h.same⟩

end Valued
end View

instance : Inhabited Value := ⟨.noValue⟩

def Walk.inMode {α : Type} [Inhabited α] (mode : Mode) (y : Walk α) : Walk α :=
  match mode with
  | .execute => y
  | .skip => pure default

theorem Walk.inMode_seq {α β : Type} [Inhabited α] [Inhabited β] (mode : Mode) (y : Walk α)
    (z : Walk β) :
    inMode mode (y >>= fun _ => z) = inMode mode y >>= fun _ => inMode mode z := by
  cases mode with
  | execute => rfl
  | skip => exact (pure_bind _ _).symm

namespace View

variable {V : View} {i j n : Nat} {m : Machine} {w : World} {γ δ : Type}
  {R : γ → δ → Machine → World → Prop}

theorem Sim.readVariable {name : String} {location : Location} (h : V.Agree i m w) :
    V.Sim n (fun _ => readVariable name location) (Walk.readVariable name location)
      (V.Valued .execute i) m w := by
  refine lookup_bind h fun {found} hfound => ?_
  match found with
  | some ⟨_, some value⟩ => exact .pure (.of_held h (hfound rfl rfl))
  | some ⟨_, none⟩ => exact .raise h.fails _ _
  | none => exact .raise h.fails _ _

theorem Sim.assign {name : String} {assignment : Assignment} {value : Value}
    {target operator : Location} (h : V.Agree i m w) (hv : V.Held m.cursor value) :
    V.Sim n (fun _ => Rules.assign name assignment value target operator)
      (Walk.assign name assignment value target operator) (V.Valued .execute i) m w := by
  have hassigned : V.Sim n (fun _ => Rules.assignedValue name assignment value target operator)
      (Walk.assignedValue name assignment value target operator)
      (fun a b m' w' => a = b ∧ V.Held m.cursor a ∧ m' = m ∧ w' = w) m w := by
    refine lookup_bind h fun {found} _ => ?_
    match found, assignment with
    | none, _ => exact .raise h.fails _ _
    | some _, .plain => exact .pure ⟨rfl, hv, rfl, rfl⟩
    | some ⟨_, none⟩, .compound _ => exact .raise h.fails _ _
    | some ⟨_, some old⟩, .compound op =>
      exact .ofRuntime h.fails fun happly =>
        ⟨rfl, .of_kind (BinaryOperator.apply_kind happly), rfl, rfl⟩
  refine hassigned.bind ?_
  rintro stored _ _ _ - ⟨rfl, hstored, rfl, rfl⟩
  refine (store h hstored).bind ?_
  rintro _ _ m' w' - ⟨hagree, hcursor⟩
  exact .pure (.of_held hagree ⟨hcursor ▸ hstored.1, hstored.2⟩)

end View

/-! ## Rules -/

theorem Rules.within_fuel (k : Nat) : (Rules.within k).fuel = k := by
  cases k <;> rfl

/-- An atom, and what the prefix operators read before it make of it. -/
def Rules.operand (r : Rules) (mode : Mode) (ops : List (UnaryOperator × Location)) :
    Exec Value := do
  let operand ← r.atom mode
  match mode, ops with
  | .skip, _ :: _ => return .noValue
  | _, ops => applyPrefixes ops operand

theorem Rules.unary_eq (r : Rules) (mode : Mode) :
    r.unary mode = loop prefixTurn r.fuel [] >>= r.operand mode := rfl

def Walk.applyPrefixes : List (UnaryOperator × Location) → Value → Walk Value
  | [], value => return value
  | (op, location) :: ops, value => do
    let value ← ofRuntime (op.apply value) location
    applyPrefixes ops value

namespace View

variable {V : View} {i j n : Nat} {m : Machine} {w : World} {y : Walk Value}

/-- The rule `X`, started at token number `i`, reads up to number `j` and does what `y` does. -/
def Reads (V : View) (n : Nat) (X : Mode → Nat → Exec Value) (y : Walk Value) (i j : Nat) : Prop :=
  ∀ (mode : Mode) {m w}, V.Agree i m w → V.Sim n (X mode) (Walk.inMode mode y) (V.Valued mode j) m w

def Prefixed (V : View) (n : Nat) (y : Walk Value) (i j : Nat) : Prop :=
  ∀ (mode : Mode) (t : Nat) (ops : List (UnaryOperator × Location)) {m w}, V.Agree i m w →
    V.Sim n (fun k => loop Rules.prefixTurn (k - t) ops >>= (Rules.within k).operand mode)
      (Walk.inMode mode (y >>= Walk.applyPrefixes ops)) (V.Valued mode j) m w

/-- A part of a chain of operands.  The loop has turned `t` times before it and `s` times behind it,
and then `rest` is what the rest of the chain does. -/
def Chains (V : View) (n : Nat) (least : Precedence) (y : Walk Value) (i j : Nat) : Prop :=
  ∃ s, ∀ (mode : Mode) (t : Nat) {rest : Value → Walk Value}
    {R : Value → Value → Machine → World → Prop} {m w}, V.Agree i m w →
    (∀ {a b m' w'}, V.Valued mode j a b m' w' →
      V.Sim n (fun k => loop ((Rules.within k).binaryTurn least mode) (k - (t + s)) a)
        (rest b) R m' w') →
    V.Sim n (fun k => (Rules.within k).unary mode >>=
      loop ((Rules.within k).binaryTurn least mode) (k - t))
      (Walk.inMode mode y >>= rest) R m w

def Sequences (V : View) (n : Nat) (y : Walk Value) (i j : Nat) : Prop :=
  ∃ s, ∀ (mode : Mode) (t : Nat) {rest : Value → Walk Value}
    {R : Value → Value → Machine → World → Prop} {m w}, V.Agree i m w →
    (∀ {a b m' w'}, V.Valued mode j a b m' w' →
      V.Sim n (fun k => loop ((Rules.within k).commaTurn mode) (k - (t + s)) a) (rest b) R m' w') →
    V.Sim n (fun k => (Rules.within k).assignment mode >>=
      loop ((Rules.within k).commaTurn mode) (k - t))
      (Walk.inMode mode y >>= rest) R m w

/-- The token with the number `i` is no name that something is assigned to. -/
def Leads (V : View) (i : Nat) : Prop :=
  ∀ name, V.tape.At i (.identifier name) → ∃ t, V.tape.At (i + 1) t ∧ Assignment.ofToken? t = none

abbrev atoms (mode : Mode) (k : Nat) : Exec Value := (Rules.within k).atom mode
abbrev unaries (mode : Mode) (k : Nat) : Exec Value := (Rules.within k).unary mode
abbrev binaries (least : Precedence) (mode : Mode) (k : Nat) :
    Exec Value := (Rules.within k).binary least mode
abbrev conditionals (mode : Mode) (k : Nat) : Exec Value := (Rules.within k).conditional mode
abbrev assignments (mode : Mode) (k : Nat) : Exec Value := (Rules.within k).assignment mode
abbrev expressions (mode : Mode) (k : Nat) : Exec Value := (Rules.within k).expression mode

/-! ## From atoms to sequences -/

theorem Sim.applyPrefixes (h : V.Agree j m w) (ops : List (UnaryOperator × Location)) {a : Value}
    (ha : V.Held m.cursor a) :
    V.Sim n (fun _ => Rules.applyPrefixes ops a) (Walk.applyPrefixes ops a)
      (V.Valued .execute j) m w := by
  induction ops generalizing a with
  | nil => exact .pure (.of_held h ha)
  | cons op ops ih =>
    obtain ⟨op, location⟩ := op
    exact ofRuntime_bind h.fails fun happly => ih (.of_kind (UnaryOperator.apply_kind happly))

/-- Prefix operators are read up to the atom. -/
theorem Reads.prefixed {t : Token} (h : V.Reads n atoms y i j) (ht : V.tape.At i t)
    (hop : UnaryOperator.ofToken? t = none) : V.Prefixed n y i j := by
  intro mode turns ops m w hagree
  refine Sim.turn_bind ?_
  simp only [Rules.prefixTurn, bind_assoc]
  refine Sim.peek_bind hagree ht fun _ hagree => ?_
  simp only [hop, pure_bind, afterTurn]
  cases mode with
  | execute =>
    exact (h .execute hagree).bind fun _ hvalued => by
      obtain rfl := hvalued.same rfl
      exact .applyPrefixes hvalued.agree ops hvalued.held
  | skip =>
    refine Sim.scan_bind (h .skip hagree) fun _ hvalued => ?_
    cases ops with
    | nil => exact .pure (.skipped hvalued.agree hvalued.held)
    | cons op ops => exact .pure (.skipped hvalued.agree .noValue)

theorem Prefixed.unary (h : V.Prefixed n y i j) : V.Reads n unaries y i j := by
  intro mode m w hagree
  have hsim := h mode 0 [] hagree
  have hunary : unaries mode = fun k =>
    loop Rules.prefixTurn (k - 0) [] >>= (Rules.within k).operand mode := by
    funext k
    rw [unaries, Rules.unary_eq, Rules.within_fuel, Nat.sub_zero]
  rw [hunary]
  rwa [show y >>= Walk.applyPrefixes [] = y from bind_pure y] at hsim

theorem Reads.chains (h : V.Reads n unaries y i j) (least : Precedence) :
    V.Chains n least y i j := by
  refine ⟨0, fun mode t rest R m w hagree hrest => ?_⟩
  exact (h mode hagree).bind fun _ hvalued => hrest hvalued

/-- A chain is over where a token that binds less tightly comes. -/
theorem Chains.binary {least : Precedence} (h : V.Chains n least y i j)
    (hstop : V.tape.Stops (3 + least.rank) j) :
    V.Reads n (binaries least) y i j := by
  intro mode m w hagree
  obtain ⟨s, h⟩ := h
  obtain ⟨t, ht, hstop⟩ := hstop
  refine Sim.level rfl ?_
  simp only [binaries, Rules.within, Rules.binaryRule, Rules.within_fuel]
  rw [← bind_pure (Walk.inMode mode y)]
  refine h mode 0 hagree fun {a b m' w'} hvalued => Sim.turn ?_
  simp only [Rules.binaryTurn, bind_assoc]
  refine Sim.peek_bind hvalued.agree ht fun hd hagree' => ?_
  cases hop : BinaryOperator.ofToken? t with
  | none => exact .pure (hvalued.on hd hagree')
  | some op =>
    have hrank := Token.rank_lt hstop hop
    have hlt : op.precedence.rank < least.rank := by
      rw [op.level_eq] at hrank
      omega
    simp only [hlt, if_true]
    exact .pure (hvalued.on hd hagree')

/-- A chain without a question mark behind it. -/
theorem Reads.conditional {t : Token} (h : V.Reads n (binaries .loosest) y i j) (ht : V.tape.At i t)
    (hstop : V.tape.Stops 2 j) : V.Reads n conditionals y i j := by
  intro mode m w hagree
  obtain ⟨after, hafter, hstop⟩ := hstop
  refine Sim.level rfl ?_
  simp only [conditionals, Rules.within, Rules.conditionalRule]
  refine Sim.peek_bind hagree ht fun _ hagree => ?_
  rw [← bind_pure (Walk.inMode mode y)]
  refine (h mode hagree).bind fun _ hvalued => ?_
  refine Sim.peekIs_bind hvalued.agree hafter (Token.not_question hstop (Nat.le_refl 2)) fun hd
    hagree' => ?_
  exact .pure (hvalued.on hd hagree')

/-- What does not start with a name and an assignment sign is read as a conditional. -/
theorem Reads.assignment {t : Token} (h : V.Reads n conditionals y i j) (ht : V.tape.At i t)
    (hlead : V.Leads i) :
    V.Reads n assignments y i j := by
  intro mode m w hagree
  refine Sim.level rfl ?_
  simp only [assignments, Rules.within, Rules.assignmentRule]
  refine Sim.next_bind hagree ht fun _ hagree => ?_
  cases t with
  | identifier name =>
    obtain ⟨second, hsecond, hsign⟩ := hlead name ht
    refine Sim.next_bind hagree hsecond fun _ hagree => ?_
    simp only [hsign]
    refine Sim.rollback_bind hagree fun _ hagree => ?_
    refine Sim.rollback_bind hagree fun _ hagree => ?_
    exact h mode hagree
  | _ => exact Sim.rollback_bind hagree fun _ hagree => h mode hagree

theorem Reads.sequences (h : V.Reads n assignments y i j) : V.Sequences n y i j := by
  refine ⟨0, fun mode t rest R m w hagree hrest => ?_⟩
  exact (h mode hagree).bind fun _ hvalued => hrest hvalued

/-- A sequence is over where no comma comes. -/
theorem Sequences.expression (h : V.Sequences n y i j) (hstop : V.tape.Stops 0 j) :
    V.Reads n expressions y i j := by
  intro mode m w hagree
  obtain ⟨s, h⟩ := h
  obtain ⟨t, ht, hstop⟩ := hstop
  have hexpression : expressions mode = fun k =>
      (Rules.within k).assignment mode >>= loop ((Rules.within k).commaTurn mode) (k - 0) := by
    funext k
    rw [expressions, Rules.expression, Rules.within_fuel, Nat.sub_zero]
  rw [hexpression, ← bind_pure (Walk.inMode mode y)]
  refine h mode 0 hagree fun {a b m' w'} hvalued => Sim.turn ?_
  simp only [Rules.commaTurn, bind_assoc]
  refine Sim.peekIs_bind hvalued.agree ht (Token.not_comma hstop) fun hd hagree' => ?_
  exact .pure (hvalued.on hd hagree')

/-! ## What the signs make of their operands -/

/-- A prefix operator and its operand. -/
theorem Prefixed.cons {op : UnaryOperator} (h : V.Prefixed n y (i + 1) j)
    (ht : V.tape.At i (.punct op.punct)) :
    V.Prefixed n (y >>= fun v => Walk.ofRuntime (op.apply v) (V.tape.marks i).location) i j := by
  intro mode t ops m w hagree
  have hop : UnaryOperator.ofToken? (.punct op.punct) = some op := op.ofPunct?_punct
  refine Sim.turn_bind ?_
  simp only [Rules.prefixTurn, bind_assoc]
  refine Sim.peek_bind hagree ht fun _ hagree => ?_
  simp only [hop, bind_assoc, pure_bind, afterTurn]
  refine Sim.next_bind hagree ht fun _ hagree => ?_
  exact h mode (t + 1) ((op, (V.tape.marks i).location) :: ops) hagree

/-- The right operand is read by the rule for the next level up. -/
theorem Chains.rightOperand {op : BinaryOperator}
    (hchain : ∀ least : Precedence, least.rank = op.precedence.rank + 1 →
      V.Reads n (binaries least) y i j)
    (hunary : op.precedence.rank = 9 → V.Reads n unaries y i j) :
    V.Reads n (fun mode k => (Rules.within k).rightOperand op mode) y i j := by
  cases hprec : op.precedence with
  | multiplicative =>
    simp only [Rules.rightOperand, hprec]
    exact hunary (by rw [hprec]; rfl)
  | _ =>
    simp only [Rules.rightOperand, hprec]
    exact hchain _ (by rw [hprec]; rfl)

/-- One more operator in a chain, and its right operand. -/
theorem Chains.snoc {least : Precedence} {op : BinaryOperator} {l : Nat} {z : Walk Value}
    (h : V.Chains n least y i l) (hrank : least.rank ≤ op.precedence.rank)
    (ht : V.tape.At l (.punct op.punct))
    (hright : V.Reads n (fun mode k => (Rules.within k).rightOperand op mode) z (l + 1) j) :
    V.Chains n least
      (y >>= fun left => Walk.operate op left z (V.tape.marks l).location) i j := by
  obtain ⟨s, h⟩ := h
  refine ⟨s + 1, fun mode t rest R m w hagree hrest => ?_⟩
  have hop : BinaryOperator.ofToken? (.punct op.punct) = some op := op.ofPunct?_punct
  have hnot : ¬op.precedence.rank < least.rank := Nat.not_lt.mpr hrank
  cases mode with
  | skip =>
    refine h .skip t hagree fun {a b m' w'} hvalued => Sim.turn ?_
    simp only [Rules.binaryTurn, bind_assoc]
    refine Sim.peek_bind hvalued.agree ht fun hd hagree' => ?_
    simp only [hop, hnot, if_false, bind_assoc, pure_bind, afterTurn]
    refine Sim.next_bind hagree' ht fun hd' hagree' => ?_
    refine Sim.scan_bind (hright .skip hagree') fun hgrown hright => ?_
    exact hrest (.skipped hright.agree (hvalued.held.mono ((hd.trans hd').trans hgrown)))
  | execute =>
    simp only [Walk.inMode, Walk.operate_eq, bind_assoc]
    refine h .execute t hagree fun {a b m' w'} hvalued => Sim.turn ?_
    obtain rfl := hvalued.same rfl
    simp only [Rules.binaryTurn, bind_assoc]
    refine Sim.peek_bind hvalued.agree ht fun hd hagree' => ?_
    simp only [hop, hnot, if_false, bind_assoc]
    refine Sim.next_bind hagree' ht fun hd' hagree' => ?_
    by_cases hsettled : op.settledBy a = true
    · simp only [hsettled, if_true, bind_assoc, pure_bind, afterTurn]
      refine Sim.scan_bind (hright .skip hagree') fun hgrown hright => ?_
      exact hrest (.of_held hright.agree (hvalued.held.mono ((hd.trans hd').trans hgrown)))
    · simp only [hsettled, Bool.false_eq_true, if_false, bind_assoc]
      refine (hright .execute hagree').bind fun _ hright => ?_
      obtain rfl := hright.same rfl
      refine Sim.ofRuntime_bind hright.agree.fails fun happly => ?_
      exact hrest (.of_held hright.agree (.of_kind (BinaryOperator.apply_kind happly)))

/-- A conditional expression. -/
theorem Reads.choice {l p : Nat} {t : Token} {yes no : Walk Value}
    (h : V.Reads n (binaries .loosest) y i l) (ht : V.tape.At i t)
    (hquestion : V.tape.At l (.punct .question)) (hyes : V.Reads n assignments yes (l + 1) p)
    (hcolon : V.tape.At p (.punct .colon)) (hno : V.Reads n conditionals no (p + 1) j) :
    V.Reads n conditionals
      (do
        let condition ← y
        if ← Walk.ofRuntime condition.condition (V.tape.marks i).location then yes else no) i
      j := by
  intro mode m w hagree
  refine Sim.level rfl ?_
  simp only [conditionals, Rules.within, Rules.conditionalRule]
  refine Sim.peek_bind hagree ht fun _ hagree => ?_
  have hsome : (Token.punct .question).isPunct .question = true := rfl
  cases mode with
  | skip =>
    refine Sim.scan_bind (h .skip hagree) fun _ hvalued => ?_
    refine Sim.peekIs_bind hvalued.agree hquestion hsome fun _ hagree => ?_
    refine Sim.next_bind hagree hquestion fun _ hagree => ?_
    simp only [pure_bind]
    refine Sim.scan_bind (hyes .skip hagree) fun _ hyes => ?_
    refine Sim.expect_bind hyes.agree hcolon fun _ hagree => ?_
    refine Sim.scan_bind (hno .skip hagree) fun _ hno => ?_
    exact .pure (.skipped hno.agree .noValue)
  | execute =>
    refine (h .execute hagree).bind fun _ hvalued => ?_
    obtain rfl := hvalued.same rfl
    refine Sim.peekIs_bind hvalued.agree hquestion hsome fun _ hagree => ?_
    refine Sim.next_bind hagree hquestion fun _ hagree => ?_
    simp only [map_eq_pure_bind, bind_assoc, pure_bind]
    refine Sim.ofRuntime_bind hagree.fails fun {taken} _ => ?_
    cases taken with
    | true =>
      rw [show (if true = true then yes else no) = yes >>= pure from (bind_pure yes).symm]
      refine (hyes .execute hagree).bind fun _ hyes => ?_
      refine Sim.expect_bind hyes.agree hcolon fun hd hagree => ?_
      refine Sim.scan_bind (hno .skip hagree) fun hd' hno => ?_
      exact .pure ⟨hno.agree, hyes.held.mono (hd.trans hd'), hyes.same⟩
    | false =>
      refine Sim.scan_bind (hyes .skip hagree) fun _ hyes => ?_
      refine Sim.expect_bind hyes.agree hcolon fun _ hagree => ?_
      rw [show (if false = true then yes else no) = no >>= pure from (bind_pure no).symm]
      exact (hno .execute hagree).bind fun _ hno => .pure hno

/-- An assignment to a name. -/
theorem Reads.assigned {name : String} {sign : AssignmentSign}
    (h : V.Reads n assignments y (i + 2) j)
    (hname : V.tape.At i (.identifier name)) (hsign : V.tape.At (i + 1) (.punct sign.punct)) :
    V.Reads n assignments
      (y >>= fun v => Walk.assign name sign.meaning v (V.tape.marks i).location
        (V.tape.marks (i + 1)).location) i j := by
  intro mode m w hagree
  have hreads : Assignment.ofToken? (.punct sign.punct) = some sign.meaning := sign.reads
  refine Sim.level rfl ?_
  simp only [assignments, Rules.within, Rules.assignmentRule]
  refine Sim.next_bind hagree hname fun _ hagree => ?_
  refine Sim.next_bind hagree hsign fun _ hagree => ?_
  simp only [hreads]
  cases mode with
  | skip =>
    exact Sim.scan_bind (h .skip hagree) fun _ hvalued => .pure (.skipped hvalued.agree .noValue)
  | execute =>
    refine (h .execute hagree).bind fun _ hvalued => ?_
    obtain rfl := hvalued.same rfl
    exact .assign hvalued.agree hvalued.held

/-- Two sequences with a comma between them. -/
theorem Sequences.append {l : Nat} {z : Walk Value} (h : V.Sequences n y i l)
    (ht : V.tape.At l (.punct .comma)) (hsecond : V.Sequences n z (l + 1) j) :
    V.Sequences n (y >>= fun _ => z) i j := by
  obtain ⟨s, h⟩ := h
  obtain ⟨s', hsecond⟩ := hsecond
  refine ⟨s + 1 + s', fun mode t rest R m w hagree hrest => ?_⟩
  have hsome : (Token.punct .comma).isPunct .comma = true := rfl
  have hturns : t + (s + 1 + s') = t + s + 1 + s' := by omega
  rw [Walk.inMode_seq, bind_assoc]
  refine h mode t hagree fun {a b m' w'} hvalued => Sim.turn ?_
  simp only [Rules.commaTurn, bind_assoc]
  refine Sim.peekIs_bind hvalued.agree ht hsome fun _ hagree' => ?_
  simp only [if_true, bind_assoc, pure_bind, afterTurn]
  refine Sim.next_bind hagree' ht fun _ hagree' => ?_
  rw [hturns] at hrest
  exact hsecond mode (t + s + 1) hagree' hrest

/-- A sequence in parentheses is an atom. -/
theorem Reads.parenthesized (h : V.Reads n expressions y (i + 1) j)
    (hopen : V.tape.At i (.punct .leftParen))
    (hclose : V.tape.At j (.punct .rightParen)) : V.Reads n atoms y i (j + 1) := by
  intro mode m w hagree
  show V.Sim n (fun k => (Rules.within k).atom mode) _ _ _ _
  simp only [Rules.atom]
  refine Sim.next_bind hagree hopen fun _ hagree => ?_
  rw [← bind_pure (Walk.inMode mode y)]
  refine (h mode hagree).bind fun _ hvalued => ?_
  exact Sim.expect_bind hvalued.agree hclose fun hd hagree => .pure (hvalued.on hd hagree)

end View
end Replay
