import Replay.Proofs.Halting
import Replay.Proofs.Scan
/-!
Every rule that skips comes to an end.

With at most `B` tokens left, `4 * B` levels of rules are enough, and a few more to get from the
rule that is asked for down to the first token.
-/

namespace Replay

open Halts

/-- The rules that skip come to an end and use up a token at least, if `k` levels are enough for the
text. -/
structure Rules.Halting (k : Nat) (r : Rules) : Prop where
  fuel : r.fuel = k
  reads : ∀ L, r.InStep L r
  statement : ∀ {B}, 4 * B + 5 ≤ k → Halts [] B (fun _ => 1) (r.statement .skip)
  assignment : ∀ {B}, 4 * B + 4 ≤ k → Halts [] B (fun _ => 1) (r.assignment .skip)
  conditional : ∀ {B}, 4 * B + 3 ≤ k → Halts [] B (fun _ => 1) (r.conditional .skip)
  binary : ∀ {B} least, 4 * B + 2 ≤ k → Halts [] B (fun _ => 1) (r.binary least .skip)
  call : ∀ {B} name location, 4 * B + 2 ≤ k → Halts [] B (fun _ => 1) (r.call name location .skip)

/-- What the grammar has a meaning for is not the end of the text. -/
theorem counts_of_some {α : Type} {meaning : Token → Option α} {a : α} {l : Lexeme}
    (h : meaning l.token = some a) (hend : meaning .endOfInput = none) :
    Cursor.counts l = true :=
  Cursor.counts_of_test (fun t => (meaning t).isSome) (by rw [h]; rfl) (by rw [hend]; rfl)

namespace Rules.Halting

variable {k B : Nat} {r : Rules}

/-! ## Expressions -/

theorem commaTurn (h : r.Halting k) (hk : 4 * B + 4 ≤ k) (value : Value) :
    Halts [] B (Turn.toll fun _ => 0) (r.commaTurn .skip value) := by
  refine peekIs_next (.pure rfl) rfl fun _ hB => ?_
  exact (h.assignment (by omega)).bind_free fun _ => .pure rfl

theorem expression (h : r.Halting k) (hk : 4 * B + 4 ≤ k) :
    Halts [] B (fun _ => 1) (r.expression .skip) := by
  have hfuel := h.fuel
  refine (h.assignment hk).bind_used fun first hB => ?_
  exact loop (fun value hb => h.commaTurn (by omega) value) (by omega) first

theorem assignmentRule (h : r.Halting k) (hk : 4 * B + 3 ≤ k) :
    Halts [] B (fun _ => 1) (r.assignmentRule .skip) := by
  refine next_bind fun target => ?_
  split
  · next name hname =>
    have htarget := Cursor.counts_of_eq hname rfl
    refine next_seen (List.forall_mem_singleton.mpr htarget) fun operator => ?_
    split
    · next assignment hassign =>
      refine forget_two htarget (counts_of_some hassign rfl) fun hB => ?_
      exact (h.assignment (by omega)).bind_free fun _ => .pure rfl
    · exact rollback_bind (rollback_bind (h.conditional hk))
  · exact rollback_bind (h.conditional hk)

theorem conditionalRule (h : r.Halting k) (hk : 4 * B + 2 ≤ k) :
    Halts [] B (fun _ => 1) (r.conditionalRule .skip) := by
  refine peek_bind fun start => (h.binary _ hk).bind_used fun condition hB => ?_
  refine peekIs_next (.pure rfl) rfl fun _ _ => (h.assignment (by omega)).bind_free fun first => ?_
  refine (expect _).bind_free fun _ => ?_
  exact (h.conditional (by omega)).bind_free fun second => .pure rfl

theorem arguments (h : r.Halting k) (hk : 4 * B + 4 ≤ k) :
    Halts [] B (fun _ => 0) (r.arguments .skip) := by
  have hfuel := h.fuel
  exact (h.assignment hk).closedList (by omega)

theorem callRule (h : r.Halting k) (hk : 4 * B + 1 ≤ k) (name : String) (location : Location) :
    Halts [] B (fun _ => 1) (r.callRule name location .skip) := by
  refine (expect _).bind_used fun _ hB => ?_
  exact (h.arguments (by omega)).bind_free fun _ => .pure rfl

theorem atom (h : r.Halting k) (hk : 4 * B ≤ k) : Halts [] B (fun _ => 1) (r.atom .skip) := by
  refine next_bind fun l => ?_
  have hread : ∀ {x : Exec Value} {t}, l.token = t → t.isEnd = false →
      (1 ≤ B → Halts [] (B - 1) (fun _ => 0) x) → Halts [l] B (fun _ => 1) x :=
    fun hl ht hx => forget_one (Cursor.counts_of_eq hl ht) hx
  split
  · next hl => exact hread hl rfl fun _ => .pure rfl
  · next hl => exact hread hl rfl fun _ => .pure rfl
  · next hl => exact hread hl rfl fun _ => .pure rfl
  · next hl => exact hread hl rfl fun _ => .pure rfl
  · next hl => exact hread hl rfl fun _ => .pure rfl
  · next hl => exact hread hl rfl fun _ => .pure rfl
  · next hl =>
    refine hread hl rfl fun hB => peekIs_bind fun paren => ?_
    cases paren with
    | true => exact (h.call _ _ (by omega)).free
    | false => exact .pure rfl
  · next hl =>
    refine hread hl rfl fun hB => (h.expression (by omega)).bind_free fun _ => ?_
    exact (expect _).bind_free fun _ => .pure rfl
  · exact .failParse _ _
  · exact .failParse _ _

/-- An operator that was looked at is read, so it is used up. -/
theorem prefixTurn (ops : List (UnaryOperator × Location)) :
    Halts [] B (Turn.toll fun _ => 0) (prefixTurn ops) := by
  refine peek_next fun ahead => ?_
  split
  · next op hop => exact .inr ⟨_, rfl, forget_one (counts_of_some hop rfl) fun _ => .pure rfl⟩
  · exact .inl (.pure rfl)

theorem prefixes (h : r.Halting k) (hk : B < k) :
    Halts [] B (fun _ => 0) (Exec.loop Rules.prefixTurn r.fuel []) := by
  have hfuel := h.fuel
  exact loop (fun ops _ => prefixTurn ops) (by omega) []

theorem unary (h : r.Halting k) (hk : 4 * B + 1 ≤ k) : Halts [] B (fun _ => 1) (r.unary .skip) := by
  refine (h.prefixes (by omega)).bind_free fun ops =>
    (h.atom (by omega)).bind_used fun operand _ => ?_
  cases ops with
  | nil => exact .pure rfl
  | cons op ops => exact .pure rfl

theorem rightOperand (h : r.Halting k) (hk : 4 * B + 2 ≤ k) (op : BinaryOperator) :
    Halts [] B (fun _ => 1) (r.rightOperand op .skip) := by
  unfold Rules.rightOperand
  cases op.precedence.tighter with
  | some level => exact h.binary level hk
  | none => exact h.unary (by omega)

theorem binaryTurn (h : r.Halting k) (hk : 4 * B + 2 ≤ k) (least : Precedence) (left : Value) :
    Halts [] B (Turn.toll fun _ => 0) (r.binaryTurn least .skip left) := by
  refine peek_next fun ahead => ?_
  split
  · exact .inl (.pure rfl)
  · next op hop =>
    split
    · exact .inl (.pure rfl)
    · refine .inr ⟨_, rfl, forget_one (counts_of_some hop rfl) fun hB => ?_⟩
      exact (h.rightOperand (by omega) op).bind_free fun _ => .pure rfl

theorem binaryRule (h : r.Halting k) (hk : 4 * B + 1 ≤ k) (least : Precedence) :
    Halts [] B (fun _ => 1) (r.binaryRule least .skip) := by
  have hfuel := h.fuel
  refine (h.unary hk).bind_used fun left hB => ?_
  exact loop (fun left hb => h.binaryTurn (by omega) least left) (by omega) left

/-! ## Parts of statements -/

theorem parenthesized (h : r.Halting k) (hk : 4 * B ≤ k) :
    Halts [] B (fun _ => 1) (r.parenthesized .skip) := by
  refine (expect _).bind_used fun _ hB => peek_bind fun start => ?_
  exact (h.expression (by omega)).bind_free fun value => (expect _).bind_free fun _ => .pure rfl

theorem initialValue (h : r.Halting k) (hk : 4 * B + 4 ≤ k) :
    Halts [] B (fun _ => 0) (r.initialValue .skip) := by
  refine peekIs_next (.pure rfl) rfl fun _ _ => ?_
  exact (h.assignment (by omega)).bind_free fun _ => .pure rfl

theorem declarationTurn (h : r.Halting k) (hk : 4 * B ≤ k) :
    Halts [] B (Turn.toll fun _ => 0) (r.declarationTurn .skip ()) := by
  refine expectIdentifier.bind fun (name, location) hB => ?_
  refine (h.initialValue (by omega)).bind_free fun value => ?_
  exact peekIs_next (.pure rfl) rfl fun _ _ => .pure rfl

theorem declaration (h : r.Halting k) (hk : 4 * B + 1 ≤ k) :
    Halts [] B (fun _ => 0) (r.declaration .skip) := by
  have hfuel := h.fuel
  exact loop (fun _ hb => h.declarationTurn (by omega)) (by omega) ()

theorem parameterList (h : r.Halting k) (hk : B < k) : Halts [] B (fun _ => 1) r.parameterList := by
  have hfuel := h.fuel
  exact (expect _).bind_used fun _ hB => expectIdentifier.closedList (by omega)

theorem statementTurn (h : r.Halting k) (hk : 4 * B + 5 ≤ k) :
    Halts [] B (Turn.toll fun _ => 0) (r.statementTurn .skip ()) := by
  refine peek_next fun ahead => ?_
  split
  · next hl =>
    exact .inr ⟨_, rfl, forget_one (Cursor.counts_of_eq hl rfl) fun _ => .pure rfl⟩
  · exact .inl (.expectedToken _ _)
  · refine .inl ((h.statement hk).bind fun signal _ => ?_)
    split
    · exact .pure rfl
    · exact .pure rfl

theorem bracedStatements (h : r.Halting k) (hk : 4 * B + 1 ≤ k) :
    Halts [] B (fun _ => 1) (r.bracedStatements .skip) := by
  have hfuel := h.fuel
  refine (expect _).bind_used fun _ hB => ?_
  exact loop (fun _ hb => h.statementTurn (by omega)) (by omega) ()

/-! ## Loops -/

theorem skipWhile (h : r.Halting k) (hk : 4 * B + 1 ≤ k) : Halts [] B (fun _ => 0) r.skipWhile := by
  refine (h.parenthesized (by omega)).bind_free fun _ => ?_
  exact (h.bracedStatements hk).bind_free fun _ => .pure rfl

theorem doCondition (h : r.Halting k) (hk : 4 * B ≤ k) :
    Halts [] B (fun _ => 0) (r.doCondition .skip) := by
  refine (expectKeyword _).bind_free fun _ => ?_
  exact (h.parenthesized hk).bind_free fun _ => (expect _).bind_free fun _ => .pure rfl

theorem skipDo (h : r.Halting k) (hk : 4 * B + 1 ≤ k) : Halts [] B (fun _ => 0) r.skipDo := by
  refine (h.bracedStatements hk).bind_free fun _ => ?_
  exact (h.doCondition (by omega)).bind_free fun _ => .pure rfl

theorem forInitializer (h : r.Halting k) (hk : 4 * B + 4 ≤ k) :
    Halts [] B (fun _ => 0) (r.forInitializer .skip) := by
  refine peek_next fun ahead => ?_
  split
  · next hl =>
    refine .inr ⟨_, rfl, forget_one (Cursor.counts_of_eq hl rfl) fun _ => ?_⟩
    exact (h.declaration (by omega)).bind_free fun _ => (expect _).free
  · exact .inl (expect _).free
  · exact .inl ((h.expression hk).bind_free fun _ => (expect _).free)

theorem forCondition (h : r.Halting k) (hk : 4 * B + 4 ≤ k) :
    Halts [] B (fun _ => 0) (r.forCondition .skip) := by
  refine peek_bind fun start => ?_
  split
  · exact (expect _).bind_free fun _ => .pure rfl
  · exact (h.expression hk).bind_free fun _ => (expect _).bind_free fun _ => .pure rfl

theorem forIncrement (h : r.Halting k) (hk : 4 * B + 4 ≤ k) :
    Halts [] B (fun _ => 0) (r.forIncrement .skip) := by
  refine peekIs_bind fun closed => ?_
  cases closed with
  | true => exact (expect _).free
  | false => exact (h.expression hk).bind_free fun _ => (expect _).free

theorem skipForRest (h : r.Halting k) (hk : 4 * B + 4 ≤ k) :
    Halts [] B (fun _ => 0) r.skipForRest := by
  refine (h.forCondition hk).bind_free fun _ => (h.forIncrement hk).bind_free fun _ => ?_
  exact (h.bracedStatements (by omega)).bind_free fun _ => .pure rfl

theorem forLoop (h : r.Halting k) (hk : 4 * B + 4 ≤ k) :
    Halts [] B (fun _ => 0) (r.forLoop .skip) := by
  refine (expect _).bind_free fun _ => (h.forInitializer hk).bind_free fun _ => ?_
  exact (h.skipForRest hk).bind_free fun _ => .pure rfl

/-! ## Statements -/

theorem ifRest (h : r.Halting k) (hk : 4 * B + 1 ≤ k) :
    Halts [] B (fun _ => 0) (r.ifRest .skip) := by
  refine next_bind fun l => ?_
  split
  · next hl => exact forget_one (Cursor.counts_of_eq hl rfl) fun _ => .pure rfl
  · next hl =>
    refine forget_one (Cursor.counts_of_eq hl rfl) fun _ => ?_
    exact (h.bracedStatements (by omega)).bind_free fun _ => .pure rfl
  · exact rollback_bind (.pure rfl)

theorem ifTurn (h : r.Halting k) (hk : 4 * B ≤ k) :
    Halts [] B (Turn.toll fun _ => 0) (r.ifTurn .skip) := by
  refine (h.parenthesized hk).bind_of (fun hin hx => ?_) fun taken (htaken : taken = false) hB => ?_
  · obtain ⟨_, _, _, _, hQ, _⟩ := ((h.reads _).parenthesized).skim_done hin hx
    exact hQ
  · subst htaken
    refine ((h.bracedStatements (by omega)).bind_free fun signal => ?_)
    split
    · exact .pure rfl
    · exact (h.ifRest (by omega)).mono (Nat.le_refl _) fun t => by cases t <;> exact Nat.le_refl 0

theorem ifChain (h : r.Halting k) (hk : 4 * B + 1 ≤ k) :
    Halts [] B (fun _ => 0) (r.ifChain .skip) := by
  have hfuel := h.fuel
  refine loop_of (I := (· = .skip)) (fun s hs hb => ?_) (fun {s m t m'} hs hin hx => ?_)
    (by omega) rfl
  · subst hs
    exact h.ifTurn (by omega)
  · subst hs
    obtain ⟨_, _, _, _, hQ, _⟩ := ((h.reads _).ifTurn).skim_done hin hx
    cases t with
    | again s' => exact hQ
    | stop b => trivial

theorem procedureDefinition (h : r.Halting k) (hk : 4 * B + 1 ≤ k) :
    Halts [] B (fun _ => 0) (r.procedureDefinition .skip) := by
  refine expectIdentifier.bind_free fun (name, location) => position_bind fun _ => ?_
  refine (h.parameterList (by omega)).bind_free fun _ => ?_
  exact (h.bracedStatements hk).bind_free fun _ => .pure rfl

theorem returnStatement (h : r.Halting k) (hk : 4 * B + 4 ≤ k) (location : Location) :
    Halts [] B (fun _ => 0) (r.returnStatement .skip location) := by
  refine peekIs_next ?_ rfl fun _ _ => .pure rfl
  exact (h.expression hk).bind_free fun _ => (expect _).bind_free fun _ => .pure rfl

theorem statementRule (h : r.Halting k) (hk : 4 * B + 4 ≤ k) :
    Halts [] B (fun _ => 1) (r.statementRule .skip) := by
  refine next_bind fun l => ?_
  have hread : ∀ {x : Exec Signal} {t}, l.token = t → t.isEnd = false →
      Halts [] B (fun _ => 0) x → Halts [l] B (fun _ => 1) x :=
    fun hl ht hx => forget_one (Cursor.counts_of_eq hl ht) fun _ =>
      hx.mono (Nat.sub_le _ _) fun _ => Nat.le_refl 0
  split
  · exact rollback_bind (h.bracedStatements (by omega))
  · next hl => exact hread hl rfl (h.ifChain (by omega))
  · next hl =>
    refine hread hl rfl (position_bind fun _ => ?_)
    exact (h.skipWhile (by omega)).bind_free fun _ => .pure rfl
  · next hl =>
    refine hread hl rfl (position_bind fun _ => ?_)
    exact (h.skipDo (by omega)).bind_free fun _ => .pure rfl
  · next hl => exact hread hl rfl (h.forLoop hk)
  · next hl => exact hread hl rfl (h.procedureDefinition (by omega))
  · next hl =>
    refine hread hl rfl ?_
    exact (h.declaration (by omega)).bind_free fun _ => (expect _).bind_free fun _ => .pure rfl
  · next hl =>
    refine hread hl rfl ?_
    exact (h.expression hk).bind_free fun _ => (expect _).bind_free fun _ => .pure rfl
  · next hl => exact hread hl rfl ((expect _).bind_free fun _ => .pure rfl)
  · next hl => exact hread hl rfl ((expect _).bind_free fun _ => .pure rfl)
  · next hl => exact hread hl rfl (h.returnStatement hk _)
  · next hl => exact hread hl rfl (.pure rfl)
  · exact .failParse _ _
  · refine rollback_bind ?_
    exact (h.expression hk).bind_used fun _ _ => (expect _).bind_free fun _ => .pure rfl

end Rules.Halting

theorem Rules.within_halting (k : Nat) : (Rules.within k).Halting k := by
  induction k with
  | zero =>
    exact ⟨rfl, fun L => within_inStep L (Nat.le_refl 0), fun h => by omega, fun h => by omega,
      fun h => by omega, fun _ h => by omega, fun _ _ h => by omega⟩
  | succ k ih =>
    exact ⟨rfl, fun L => within_inStep L (Nat.le_refl _), fun h => ih.statementRule (by omega),
      fun h => ih.assignmentRule (by omega), fun h => ih.conditionalRule (by omega),
      fun least h => ih.binaryRule (by omega) least,
      fun name location h => ih.callRule (by omega) name location⟩

end Replay
