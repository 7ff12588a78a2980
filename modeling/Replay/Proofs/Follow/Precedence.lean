import Replay.Proofs.Follow.Expression
/-!
The tree that the rules find is the one that was written down.

The rules are never told where an expression ends.  They stop at the first token that does not
belong to what they read, so an expression of some level is read as a whole by the rule of that
level if the token behind it does not continue it.  Parentheses where the levels ask for them are
enough for this to hold of every operand.
-/

namespace Replay

open Exec

/-! ## Calls -/

def Rules.invoke (r : Rules) (name : String) (procedure : Procedure) (arguments : List Value)
    (location : Location) :
    Exec Value := do
  let alive ← readScopes fun t => .ok (t.contains procedure.scope)
  if alive then
    pushCall ⟨← position, arguments⟩ location
    seek procedure.entry
    callValue (← r.callBody procedure location)
  else raise (.procedureOutOfScope name) location

theorem Rules.callRule_execute (r : Rules) (name : String) (location : Location) :
    r.callRule name location .execute = (do
      expect .leftParen
      let procedure ← resolveProcedure name location
      let arguments ← r.arguments .execute
      r.invoke name procedure arguments location) := by
  simp only [callRule, enterCall, prepareCall, invoke, bind_assoc]
  congr 1
  funext _
  congr 1
  funext procedure
  congr 1
  funext arguments
  congr 1
  funext alive
  cases alive with
  | true => simp only [if_true, pure_bind]
  | false => rfl

namespace View

variable {V : View} {i j l n : Nat} {m : Machine} {w : World} {y : Walk Value}
  {z : Walk (List Value)}

def Invokes (V : View) (n : Nat) (invoke : Invocation) : Prop :=
  ∀ {i m w} (name : String) (procedure : Procedure) (arguments : List Value) (location : Location),
  V.Agree i m w →
    V.Held m.cursor (.procedure procedure) → (∀ a ∈ arguments, V.Held m.cursor a) →
    V.Sim n (fun k => (Rules.within k).invoke name procedure arguments location)
      (invoke name procedure arguments location) (V.Valued .execute i) m w

structure ListValued (V : View) (mode : Mode) (j : Nat) (as bs : List Value) (m : Machine)
    (w : World) : Prop where
  agree : V.Agree j m w
  held : ∀ a ∈ as, V.Held m.cursor a
  same : mode = .execute → as = bs

def Lists (V : View) (n : Nat) (z : Walk (List Value)) (i j : Nat) : Prop :=
  ∀ (mode : Mode) (t : Nat) (seen : List Value) {m w}, V.Agree i m w →
  (∀ a ∈ seen, V.Held m.cursor a) →
    V.Sim n (fun k => loop (listTurn ((Rules.within k).assignment mode)) (k - t) seen)
      (Walk.inMode mode (z >>= fun values => pure (seen ++ values))) (V.ListValued mode j) m w

def ReadsArguments (V : View) (n : Nat) (z : Walk (List Value)) (i j : Nat) : Prop :=
  ∀ (mode : Mode) {m w}, V.Agree i m w →
    V.Sim n (fun k => (Rules.within k).arguments mode) (Walk.inMode mode z)
      (V.ListValued mode j) m w

theorem held_snoc {seen : List Value} {a : Value} {m' : Machine}
    (hseen : ∀ a ∈ seen, V.Held m.cursor a) (hgrown : m.cursor.Grown m'.cursor)
    (ha : V.Held m'.cursor a) : ∀ b ∈ seen ++ [a], V.Held m'.cursor b := by
  intro b hb
  rcases List.mem_append.mp hb with hb | hb
  · exact (hseen b hb).mono hgrown
  · rw [List.mem_singleton.mp hb]
    exact ha

/-- The last element of a list. -/
theorem Lists.last (h : V.Reads n assignments y i l) (ht : V.tape.At l (.punct .rightParen)) :
    V.Lists n (y >>= fun value => pure [value]) i (l + 1) := by
  intro mode t seen m w hagree hseen
  refine Sim.turn ?_
  simp only [listTurn, bind_assoc]
  cases mode with
  | skip =>
    refine Sim.scan_bind (h .skip hagree) fun hgrown hvalued => ?_
    refine Sim.next_bind hvalued.agree ht fun hd hagree => ?_
    exact .pure ⟨hagree, held_snoc hseen (hgrown.trans hd) (hvalued.held.mono hd),
      fun hm => by cases hm⟩
  | execute =>
    simp only [Walk.inMode, pure_bind]
    refine (h .execute hagree).bind fun hgrown hvalued => ?_
    obtain rfl := hvalued.same rfl
    refine Sim.next_bind hvalued.agree ht fun hd hagree => ?_
    exact .pure ⟨hagree, held_snoc hseen (hgrown.trans hd) (hvalued.held.mono hd), fun _ => rfl⟩

/-- One more element before the rest of a list. -/
theorem Lists.cons (h : V.Reads n assignments y i l) (ht : V.tape.At l (.punct .comma))
    (hrest : V.Lists n z (l + 1) j) :
    V.Lists n (do
      let value ← y
      let values ← z
      return value :: values) i j := by
  intro mode t seen m w hagree hseen
  refine Sim.turn ?_
  simp only [listTurn, bind_assoc]
  cases mode with
  | skip =>
    refine Sim.scan_bind (h .skip hagree) fun hgrown hvalued => ?_
    refine Sim.next_bind hvalued.agree ht fun hd hagree => ?_
    exact hrest .skip (t + 1) _ hagree (held_snoc hseen (hgrown.trans hd) (hvalued.held.mono hd))
  | execute =>
    simp only [Walk.inMode, pure_bind]
    refine (h .execute hagree).bind fun {a b m₁ w₁} hgrown hvalued => ?_
    obtain rfl := hvalued.same rfl
    refine Sim.next_bind hvalued.agree ht fun hd hagree => ?_
    have hsim := hrest .execute (t + 1) (seen ++ [a]) hagree
      (held_snoc hseen (hgrown.trans hd) (hvalued.held.mono hd))
    simp only [List.append_assoc, List.singleton_append] at hsim
    exact hsim

theorem ReadsArguments.nil (ht : V.tape.At i (.punct .rightParen)) :
    V.ReadsArguments n (pure []) i (i + 1) := by
  intro mode m w hagree
  simp only [Rules.arguments, closedList]
  refine Sim.peekIs_bind hagree ht rfl fun _ hagree => ?_
  refine Sim.next_bind hagree ht fun _ hagree => ?_
  rw [show Walk.inMode mode (pure []) = pure ([] : List Value) by cases mode <;> rfl]
  exact .pure ⟨hagree, fun a ha => absurd ha List.not_mem_nil, fun _ => rfl⟩

theorem Lists.arguments {t : Token} (h : V.Lists n z i j) (ht : V.tape.At i t)
    (hclose : t.isPunct .rightParen = false) : V.ReadsArguments n z i j := by
  intro mode m w hagree
  simp only [Rules.arguments, closedList, Rules.within_fuel]
  refine Sim.peekIs_bind hagree ht hclose fun _ hagree => ?_
  have hsim := h mode 0 [] hagree fun a ha => absurd ha List.not_mem_nil
  simp only [List.nil_append, bind_pure, Nat.sub_zero] at hsim
  exact hsim

theorem Sim.resolveProcedure {name : String} {location : Location} (h : V.Agree i m w) :
    V.Sim n (fun _ => Rules.resolveProcedure name location) (Walk.resolveProcedure name location)
      (fun a b m' w' => a = b ∧ V.Held m'.cursor (.procedure a) ∧ V.Agree i m' w') m w := by
  refine lookup_bind h fun {found} hfound => ?_
  match found with
  | some ⟨_, some (.procedure p)⟩ => exact .pure ⟨rfl, hfound rfl rfl, h⟩
  | some ⟨_, some (.integer _)⟩ | some ⟨_, some (.real _)⟩ | some ⟨_, some (.boolean _)⟩
  | some ⟨_, some .noValue⟩ | some ⟨_, none⟩ => exact .raise h.fails _ _
  | none => exact .raise h.fails _ _

/-- A call with its arguments. -/
theorem Reads.call {name : String} {invoke : Invocation} (hinvoke : V.Invokes n invoke)
    (hname : V.tape.At i (.identifier name)) (hopen : V.tape.At (i + 1) (.punct .leftParen))
    (h : V.ReadsArguments n z (i + 2) j) :
    V.Reads n atoms (do
      let procedure ← Walk.resolveProcedure name (V.tape.marks i).location
      let values ← z
      invoke name procedure values (V.tape.marks i).location) i j := by
  intro mode m w hagree
  show V.Sim n (fun k => (Rules.within k).atom mode) _ _ _ _
  simp only [Rules.atom]
  refine Sim.next_bind hagree hname fun _ hagree => ?_
  refine Sim.peekIs_bind hagree hopen rfl fun _ hagree => ?_
  refine Sim.level rfl ?_
  simp only [Rules.within]
  cases mode with
  | skip =>
    simp only [Rules.callRule]
    refine Sim.expect_bind hagree hopen fun _ hagree => ?_
    exact Sim.scan_bind (h .skip hagree) fun _ hvalues => .pure (.skipped hvalues.agree .noValue)
  | execute =>
    simp only [Rules.callRule_execute]
    refine Sim.expect_bind hagree hopen fun _ hagree => ?_
    refine (Sim.resolveProcedure hagree).bind ?_
    rintro procedure _ m₁ w₁ - ⟨rfl, hprocedure, hagree⟩
    refine (h .execute hagree).bind fun hgrown hvalues => ?_
    obtain rfl := hvalues.same rfl
    exact hinvoke name procedure _ _ hvalues.agree (hprocedure.mono hgrown) hvalues.held

/-! ## Levels -/

theorem Leads.of_ne {t : Token} (ht : V.tape.At i t) (hne : ∀ name, t ≠ .identifier name) :
    V.Leads i :=
  fun name hname => absurd (ht.unique hname) (hne name)

theorem Leads.of_next {t : Token} (ht : V.tape.At (i + 1) t)
    (hsign : Assignment.ofToken? t = none) : V.Leads i :=
  fun _ _ => ⟨t, ht, hsign⟩

def Heads (V : View) (i : Nat) : Prop := ∃ t, V.tape.At i t ∧ t.starts = true

/-- An expression of the given level from token number `i` up to number `j`, as far as each rule is
concerned.  How loosely a rule may look for the end of the expression depends on the token with the
number `j`. -/
structure Parses (V : View) (n : Nat) (y : Walk Value) (i j level : Nat) : Prop where
  head : V.Heads i
  leads : 2 ≤ level → V.tape.Stops 15 j → V.Leads i
  prefixed : 13 ≤ level → V.tape.Stops 15 j → V.Prefixed n y i j
  chains : ∀ {least : Precedence}, 3 + least.rank ≤ level → V.tape.Stops (level + 1) j →
    V.Chains n least y i j
  conditional : 2 ≤ level → V.tape.Stops 2 j → V.Reads n conditionals y i j
  assignment : 1 ≤ level → V.tape.Stops 1 j → V.Reads n assignments y i j
  sequences : V.tape.Stops 1 j → V.Sequences n y i j

namespace Parses

variable {level : Nat}

theorem of_sequences (head : V.Heads i) (h : V.tape.Stops 1 j → V.Sequences n y i j) :
    V.Parses n y i j 0 where
  head := head
  leads hle := absurd hle (by omega)
  prefixed hle := absurd hle (by omega)
  chains hle := absurd hle (by omega)
  conditional hle := absurd hle (by omega)
  assignment hle := absurd hle (by omega)
  sequences := h

theorem of_assignment (head : V.Heads i) (h : V.tape.Stops 1 j → V.Reads n assignments y i j) :
    V.Parses n y i j 1 where
  head := head
  leads hle := absurd hle (by omega)
  prefixed hle := absurd hle (by omega)
  chains hle := absurd hle (by omega)
  conditional hle := absurd hle (by omega)
  assignment _ := h
  sequences hstop := (h hstop).sequences

theorem of_conditional (head : V.Heads i) (leads : V.tape.Stops 15 j → V.Leads i)
    (h : V.tape.Stops 2 j → V.Reads n conditionals y i j) : V.Parses n y i j 2 := by
  have hassignment (hstop : V.tape.Stops 1 j) : V.Reads n assignments y i j := by
    obtain ⟨t, ht, _⟩ := head
    exact (h (hstop.mono (by omega))).assignment ht (leads (hstop.mono (by omega)))
  exact { of_assignment head hassignment with
    leads := fun _ => leads
    prefixed := fun hle => absurd hle (by omega)
    chains := fun hle => absurd hle (by omega)
    conditional := fun _ => h
    assignment := fun _ => hassignment }

theorem of_chains (head : V.Heads i) (leads : V.tape.Stops 15 j → V.Leads i) (hlevel : 3 ≤ level)
    (hprefixed : 13 ≤ level → V.tape.Stops 15 j → V.Prefixed n y i j)
    (h : ∀ {least : Precedence}, 3 + least.rank ≤ level → V.tape.Stops (level + 1) j →
      V.Chains n least y i j) :
    V.Parses n y i j level := by
  have hconditional (hstop : V.tape.Stops 2 j) : V.Reads n conditionals y i j := by
    obtain ⟨t, ht, _⟩ := head
    have hchains : V.Chains n .loosest y i j := h hlevel (hstop.mono (by omega))
    exact (hchains.binary (hstop.mono (by decide))).conditional ht hstop
  have hbelow := of_conditional head leads hconditional
  exact { hbelow with
    leads := fun _ => leads
    prefixed := hprefixed
    chains := h
    conditional := fun _ => hconditional
    assignment := fun _ => hbelow.assignment (by decide) }

theorem of_prefixed (head : V.Heads i) (leads : V.tape.Stops 15 j → V.Leads i) (hlevel : 13 ≤ level)
    (hle : level ≤ 14) (h : V.tape.Stops 15 j → V.Prefixed n y i j) : V.Parses n y i j level :=
  of_chains head leads (by omega) (fun _ => h) fun _ hstop =>
  (h (hstop.mono (by omega))).unary.chains _

theorem of_atom {t : Token} (ht : V.tape.At i t) (hstarts : t.starts = true)
    (leads : V.tape.Stops 15 j → V.Leads i)
    (hop : UnaryOperator.ofToken? t = none) (h : V.tape.Stops 15 j → V.Reads n atoms y i j) :
    V.Parses n y i j 14 :=
  of_prefixed ⟨t, ht, hstarts⟩ leads (by omega) (by omega) fun hstop => (h hstop).prefixed ht hop

theorem binary (h : V.Parses n y i j level) {least : Precedence} (hlevel : 3 + least.rank ≤ level)
    (hstop : V.tape.Stops (3 + least.rank) j) : V.Reads n (binaries least) y i j :=
  (h.chains hlevel (hstop.mono (by omega))).binary hstop

theorem rightOperand (h : V.Parses n y i j level) {op : BinaryOperator}
    (hlevel : 4 + op.precedence.rank ≤ level) (hstop : V.tape.Stops (4 + op.precedence.rank) j) :
    V.Reads n (fun mode k => (Rules.within k).rightOperand op mode) y i j := by
  refine Chains.rightOperand (fun least hrank => ?_) (fun hrank => ?_)
  · exact h.binary (by omega) (hstop.mono (by omega))
  · exact (h.prefixed (by omega) (hstop.mono (by omega))).unary

theorem expression (h : V.Parses n y i j level) (hstop : V.tape.Stops 0 j) :
    V.Reads n expressions y i j :=
  (h.sequences (hstop.mono (by omega))).expression hstop

/-- An expression in parentheses. -/
theorem wrapped (h : V.Parses n y (i + 1) j level) (hopen : V.tape.At i (.punct .leftParen))
    (hclose : V.tape.At j (.punct .rightParen)) : V.Parses n y i (j + 1) 14 :=
  of_atom hopen rfl (fun _ => .of_ne hopen fun _ => Token.noConfusion) rfl fun _ =>
    (h.expression (hclose.stops rfl)).parenthesized hopen hclose

end Parses

end View

/-! ## Trees -/

section

variable {V : View} {n : Nat} {p : Parens} {invoke : Invocation}

/-- What holds of an expression holds of it where it stands, with or without parentheses. -/
theorem Expr.parsesAt (hp : p.Suffices) (position : Position) {e : Expr Unit} {i : Nat}
    (h : ∀ {i}, V.tape.Spells i (e.tokens p) →
      V.Parses n ((e.marked p V.tape.marks i).eval invoke) i (i + (e.tokens p).length) e.level)
    (hs : V.tape.Spells i (e.tokensAt p position)) :
    ∃ level, position.least ≤ level ∧
      V.Parses n ((e.markedAt p V.tape.marks position i).eval invoke) i
        (i + (e.tokensAt p position).length) level := by
  unfold Expr.tokensAt wrapped at hs ⊢
  unfold Expr.markedAt inside
  by_cases hparens : p position e = true
  · simp only [hparens, if_true, Cursor.Spells, Cursor.spells_append, List.length_cons,
      List.length_append, List.length_nil] at hs ⊢
    obtain ⟨hopen, he, hclose, _⟩ := hs
    refine ⟨14, Nat.le_succ_of_le position.least_le, ?_⟩
    rw [show i + ((e.tokens p).length + (0 + 1) + 1) = i + 1 + (e.tokens p).length + 1 by omega]
    exact (h he).wrapped hopen hclose
  · simp only [hparens, Bool.false_eq_true, if_false] at hs ⊢
    exact ⟨e.level, Nat.le_of_not_lt fun hlt => hparens (hp hlt), h hs⟩

theorem View.Reads.literal (l : Literal) {i : Nat} (ht : V.tape.At i l.token) :
    V.Reads n atoms ((Expr.literal (V.tape.marks i) l).eval invoke) i (i + 1) := by
  intro mode m w hagree
  show V.Sim n (fun k => (Rules.within k).atom mode) _ _ _ _
  simp only [Rules.atom]
  refine Sim.next_bind hagree ht fun _ hagree => ?_
  have hvalue (v : Value) (hv : v.kind ≠ .procedure) {m : Machine} (hagree : V.Agree (i + 1) m w) :
      V.Sim n (fun _ => pure v) (Walk.inMode mode (pure v)) (V.Valued mode (i + 1)) m w := by
    cases mode with
    | execute => exact .pure (.of_held hagree (.of_kind hv))
    | skip => exact .pure (.skipped hagree (.of_kind hv))
  simp only [Expr.eval]
  cases l with
  | integer k => exact hvalue (.integer k) Kind.noConfusion hagree
  | real x => exact hvalue (.real x) Kind.noConfusion hagree
  | character c => exact hvalue (.integer (Int64.ofNat c.toNat)) Kind.noConfusion hagree
  | boolean b => cases b <;> exact hvalue (.boolean _) Kind.noConfusion hagree
  | string s =>
    cases mode with
    | execute => exact .raise hagree.fails _ _
    | skip => exact .pure (.skipped hagree .noValue)

theorem View.Reads.name {name : String} {i : Nat} (ht : V.tape.At i (.identifier name))
    (hstop : V.tape.Stops 15 (i + 1)) :
    V.Reads n atoms (Walk.readVariable name (V.tape.marks i).location) i (i + 1) := by
  intro mode m w hagree
  obtain ⟨after, hafter, hstop⟩ := hstop
  show V.Sim n (fun k => (Rules.within k).atom mode) _ _ _ _
  simp only [Rules.atom]
  refine Sim.next_bind hagree ht fun _ hagree => ?_
  refine Sim.peekIs_bind hagree hafter (Token.not_leftParen hstop) fun _ hagree => ?_
  cases mode with
  | execute => exact .readVariable hagree
  | skip => exact .pure (.skipped hagree .noValue)

theorem length_between (xs ys : List Token) (t : Token) (i : Nat) :
    i + (xs ++ t :: ys).length = i + xs.length + 1 + ys.length := by
  rw [List.length_append, List.length_cons]
  omega

/-- Behind an element of a list comes a comma or the closing parenthesis. -/
theorem Expr.moreTokens_stops {es : List (Expr Unit)} {i : Nat}
    (hs : V.tape.Spells i (Expr.moreTokens p es)) :
    V.tape.Stops 1 i := by
  cases es with
  | nil => exact hs.1.stops rfl
  | cons e es => exact hs.1.stops rfl

mutual

/-- The rules read an expression as its tree. -/
theorem Expr.parses (hp : p.Suffices) :
    (e : Expr Unit) → (e.callFree = false → V.Invokes n invoke) →
    ∀ {i}, V.tape.Spells i (e.tokens p) →
      V.Parses n ((e.marked p V.tape.marks i).eval invoke) i (i + (e.tokens p).length) e.level
  | .literal _ l, _, i, hs => by
    have ht : V.tape.At i l.token := hs.1
    exact .of_atom ht (Token.literal_starts l) (fun _ => .of_ne ht l.token_ne) l.token_unary
      fun _ => .literal l ht
  | .read _ name, _, i, hs => by
    have ht : V.tape.At i (.identifier name) := hs.1
    refine .of_atom ht rfl (fun hstop => ?_) rfl (.name ht)
    obtain ⟨after, hafter, hstop⟩ := hstop
    exact .of_next hafter (Token.not_assignment hstop)
  | .unary _ op e, hcalls, i, hs => by
    have ht : V.tape.At i (.punct op.punct) := hs.1
    obtain ⟨level, hlevel, he⟩ := e.parsesAt hp .operand (e.parses hp hcalls) hs.2
    have hend : i + ((Expr.unary () op e).tokens p).length =
        i + 1 + (e.tokensAt p .operand).length :=
      length_between [] (e.tokensAt p .operand) (.punct op.punct) i
    rw [hend]
    exact .of_prefixed ⟨_, ht, Token.unary_starts op⟩
      (fun _ => .of_ne ht fun _ => Token.noConfusion)
      (Nat.le_refl 13) (Nat.le_succ 13) fun hstop => (he.prefixed hlevel hstop).cons ht
  | .binary op _ a b, hcalls, i, hs => by
    simp only [Expr.callFree, Bool.and_eq_false_iff] at hcalls
    obtain ⟨hs, ht, hs'⟩ := Cursor.spells_append.mp hs
    obtain ⟨level, hlevel, ha⟩ := a.parsesAt hp (.left op) (a.parses hp fun h => hcalls (.inl h)) hs
    obtain ⟨level', hlevel', hb⟩ :=
      b.parsesAt hp (.right op) (b.parses hp fun h => hcalls (.inr h)) hs'
    have hend : i + ((Expr.binary op () a b).tokens p).length =
        i + (a.tokensAt p (.left op)).length + 1 + (b.tokensAt p (.right op)).length :=
      length_between (a.tokensAt p (.left op)) (b.tokensAt p (.right op)) (.punct op.punct) i
    have hrank := (Position.right op).least_le
    simp only [Position.least, op.level_eq] at hlevel hlevel' hrank
    rw [hend]
    refine .of_chains ha.head
      (fun _ =>
        ha.leads (by omega) (ht.stops (Token.binary_continues (by rw [op.level_eq]; omega))))
      (by simp only [Expr.level, op.level_eq]; omega) (fun hle => ?_) (fun {least} hle hstop => ?_)
    · simp only [Expr.level, op.level_eq] at hle
      omega
    · simp only [Expr.level, op.level_eq] at hle hstop
      have hchain : V.Chains n least _ i (i + (a.tokensAt p (.left op)).length) :=
        ha.chains (by omega) (ht.stops (Token.binary_continues (by rw [op.level_eq]; omega)))
      exact hchain.snoc (by omega) ht (hb.rightOperand (by omega) (hstop.mono (by omega)))
  | .conditional _ c a b, hcalls, i, hs => by
    simp only [Expr.callFree, Bool.and_eq_false_iff] at hcalls
    obtain ⟨hs, hquestion, hs'⟩ := Cursor.spells_append.mp hs
    obtain ⟨hs', hcolon, hs''⟩ := Cursor.spells_append.mp hs'
    obtain ⟨level, hlevel, hc⟩ :=
      c.parsesAt hp .condition (c.parses hp fun h => hcalls (.inl (.inl h))) hs
    obtain ⟨level', hlevel', ha⟩ :=
      a.parsesAt hp .whenTrue (a.parses hp fun h => hcalls (.inl (.inr h))) hs'
    obtain ⟨level'', hlevel'', hb⟩ :=
      b.parsesAt hp .whenFalse (b.parses hp fun h => hcalls (.inr h)) hs''
    have hend : i + ((Expr.conditional () c a b).tokens p).length =
        i + (c.tokensAt p .condition).length + 1 + (a.tokensAt p .whenTrue).length + 1 +
          (b.tokensAt p .whenFalse).length :=
      (length_between _ _ _ i).trans (length_between _ _ _ _)
    obtain ⟨t, ht, _⟩ := hc.head
    rw [hend]
    refine .of_conditional hc.head
      (fun _ => hc.leads (Nat.le_of_succ_le hlevel) (hquestion.stops rfl)) fun hstop => ?_
    have hcondition : V.Reads n (View.binaries .loosest) _ i _ :=
      hc.binary hlevel (hquestion.stops rfl)
    exact hcondition.choice ht hquestion (ha.assignment hlevel' (hcolon.stops rfl)) hcolon
      (hb.conditional hlevel'' hstop)
  | .assign _ name _ sign e, hcalls, i, hs => by
    obtain ⟨hname, hsign, hs⟩ := hs
    obtain ⟨level, hlevel, he⟩ := e.parsesAt hp .assigned (e.parses hp hcalls) hs
    have hend : i + ((Expr.assign () name () sign e).tokens p).length =
        i + 2 + (e.tokensAt p .assigned).length :=
      length_between [.identifier name] (e.tokensAt p .assigned) (.punct sign.punct) i
    rw [hend]
    exact .of_assignment ⟨_, hname, rfl⟩ fun hstop =>
      (he.assignment hlevel hstop).assigned hname hsign
  | .comma a b, hcalls, i, hs => by
    simp only [Expr.callFree, Bool.and_eq_false_iff] at hcalls
    obtain ⟨hs, ht, hs'⟩ := Cursor.spells_append.mp hs
    obtain ⟨_, _, ha⟩ := a.parsesAt hp .first (a.parses hp fun h => hcalls (.inl h)) hs
    obtain ⟨_, _, hb⟩ := b.parsesAt hp .second (b.parses hp fun h => hcalls (.inr h)) hs'
    have hend : i + ((Expr.comma a b).tokens p).length =
        i + (a.tokensAt p .first).length + 1 + (b.tokensAt p .second).length :=
      length_between (a.tokensAt p .first) (b.tokensAt p .second) (.punct .comma) i
    rw [hend]
    exact .of_sequences ha.head fun hstop =>
      (ha.sequences (ht.stops rfl)).append ht (hb.sequences hstop)
  | .call _ name es, hcalls, i, hs => by
    obtain ⟨hname, hopen, hs⟩ := hs
    have hinvoke : V.Invokes n invoke := hcalls rfl
    have hend : i + ((Expr.call () name es).tokens p).length =
        i + 2 + (Expr.listTokens p es).length :=
      length_between [.identifier name] (Expr.listTokens p es) (.punct .leftParen) i
    rw [hend]
    exact .of_atom hname rfl (fun _ => .of_next hopen rfl) rfl fun _ =>
      .call hinvoke hname hopen (Expr.readsArguments hp hinvoke es hs)

theorem Expr.readsArguments (hp : p.Suffices) (hinvoke : V.Invokes n invoke) :
    (es : List (Expr Unit)) →
    ∀ {i}, V.tape.Spells i (Expr.listTokens p es) →
      V.ReadsArguments n (Expr.evalList invoke (Expr.markedList p V.tape.marks es i)) i
        (i + (Expr.listTokens p es).length)
  | [], _, hs => .nil hs.1
  | e :: es, i, hs => by
    obtain ⟨hs, hs'⟩ := Cursor.spells_append.mp hs
    obtain ⟨level, hlevel, he⟩ := e.parsesAt hp .argument (e.parses hp fun _ => hinvoke) hs
    obtain ⟨t, ht, hstarts⟩ := he.head
    have hlist := Expr.lists hp hinvoke es (he.assignment hlevel (Expr.moreTokens_stops hs')) hs'
    have hend : i + (Expr.listTokens p (e :: es)).length =
        i + (e.tokensAt p .argument).length + (Expr.moreTokens p es).length := by
      show i + (e.tokensAt p .argument ++ Expr.moreTokens p es).length = _
      rw [List.length_append, Nat.add_assoc]
    rw [hend]
    exact hlist.arguments ht (Token.not_punct_of_starts hstarts rfl)

/-- The rest of a list behind one of its elements. -/
theorem Expr.lists (hp : p.Suffices) (hinvoke : V.Invokes n invoke) : (es : List (Expr Unit)) →
    ∀ {y : Walk Value} {i l}, V.Reads n View.assignments y i l →
      V.tape.Spells l (Expr.moreTokens p es) →
      V.Lists n (do
        let value ← y
        let values ← Expr.evalList invoke (Expr.markedList p V.tape.marks es (l + 1))
        return value :: values) i (l + (Expr.moreTokens p es).length)
  | [], _, _, _, h, hs => by
    simp only [Expr.markedList, Expr.evalList, pure_bind]
    exact .last h hs.1
  | e :: es, _, i, l, h, hs => by
    obtain ⟨hcomma, hs⟩ := hs
    obtain ⟨hs, hs'⟩ := Cursor.spells_append.mp hs
    obtain ⟨level, hlevel, he⟩ := e.parsesAt hp .argument (e.parses hp fun _ => hinvoke) hs
    have hlist := Expr.lists hp hinvoke es (he.assignment hlevel (Expr.moreTokens_stops hs')) hs'
    have hend : l + (Expr.moreTokens p (e :: es)).length =
        l + 1 + (e.tokensAt p .argument).length + (Expr.moreTokens p es).length := by
      show l + (e.tokensAt p .argument ++ Expr.moreTokens p es).length.succ = _
      rw [List.length_append]
      omega
    rw [hend]
    exact .cons h hcomma hlist

end

end
end Replay
