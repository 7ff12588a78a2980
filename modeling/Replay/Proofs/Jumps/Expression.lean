import Replay.Proofs.Jumps.Steps
/-!
Courses of expressions.

An expression leaves the braces around it as they are, and what it opens it closes.  The only way
for it to meet a jump is a call.
-/

namespace Replay

open Exec

/-! ## Operators -/

theorem checked_error {a : Int} {cause : RuntimeCause} (h : checked a = .error cause) :
    cause = .overflow := by
  unfold checked at h
  split at h <;> cases h
  rfl

namespace BinaryOperator

theorem onIntegers_error {op : BinaryOperator} {a b : Int64} {cause : RuntimeCause}
    (h : op.onIntegers a b = some (.error cause)) :
    cause = .overflow ∨ cause = .divisionByZero := by
  cases op with
  | add | sub | mul => exact .inl (checked_error (Option.some.inj h))
  | div =>
    rw [onIntegers, Option.some.injEq] at h
    split at h
    · cases h
      exact .inr rfl
    · exact .inl (checked_error h)
  | mod =>
    rw [onIntegers, Option.some.injEq] at h
    split at h
    · cases h
      exact .inr rfl
    · cases hq : checked (a.toInt.tdiv b.toInt) with
      | error e =>
        simp only [hq, bind, Except.bind] at h
        cases h
        exact .inl (checked_error hq)
      | ok q => exact .inl (checked_error (by simpa only [hq, bind, Except.bind] using h))
  | _ => cases h

/-- No operator complains about a jump. -/
theorem apply_error {op : BinaryOperator} {left right : Value} {cause : RuntimeCause}
    (h : op.apply left right = .error cause) (keyword : Keyword) :
    cause ≠ .invalidContext keyword := by
  rintro rfl
  unfold apply at h
  dsimp only at h
  split at h
  · rename_i a b
    cases hop : op.onIntegers a b with
    | none =>
      rw [hop] at h
      cases h
    | some result =>
      rw [hop] at h
      cases (show result = _ from h)
      rcases onIntegers_error hop with heq | heq <;> cases heq
  all_goals
    first
    | cases h
    | split at h <;> cases h

end BinaryOperator

theorem UnaryOperator.apply_error {op : UnaryOperator} {operand : Value} {cause : RuntimeCause}
    (h : op.apply operand = .error cause) (keyword : Keyword) :
    cause ≠ .invalidContext keyword := by
  rintro rfl
  unfold UnaryOperator.apply at h
  split at h
  · cases checked_error h
  all_goals cases h

theorem Value.condition_error {v : Value} {cause : RuntimeCause} (h : v.condition = .error cause)
    (keyword : Keyword) :
    cause ≠ .invalidContext keyword := by
  rintro rfl
  cases v <;> cases h

/-! ## Rules -/

def Signal.Fine (source : String) (c : Cursor) : Signal → Prop
  | returned (some v) _ => v.Fine source c
  | _ => True

/-- How a statement ends that stands inside of these braces: at a place with `n` around it, or with
a jump that leads out of the braces as far as they say. -/
structure Signal.Ends (source : String) (mode : Mode) (braces : List Brace) (n : Nesting)
    (s : Signal) (c : Cursor) : Prop where
  skipped : mode = .skip → s = .normal
  place : s = .normal → c.nesting source = n
  aims : ∀ j, s.jump? = some j → j.Aims source (target? j.keyword braces)
  fine : s.Fine source c

/-- Rules, one set for every lookout, inside of braces of the kind `b`.  They keep to the text. -/
structure Rules.Lexical (source : String) (k : Nat) (b : Brace) (r : Lookout → Rules) : Prop where
  fuel : ∀ w, (r w).fuel = k
  faithful : ∀ w {l}, k ≤ l → (r w).Faithful l
  statement : ∀ {m braces} mode, m.Stands source ⟨braces, .block, 0⟩ →
    (mode = .execute → braces.head? = some b) →
    Follows source none b.leaves (Signal.Ends source mode braces ⟨braces, .block, 0⟩)
      (fun w => (r w).statement mode) m
  assignment : ∀ {m n} mode, m.Stands source n →
    Arrives source n (fun v c => v.Fine source c) (fun w => (r w).assignment mode) m
  conditional : ∀ {m n} mode, m.Stands source n →
    Arrives source n (fun v c => v.Fine source c) (fun w => (r w).conditional mode) m
  binary : ∀ {m n} least mode, m.Stands source n →
    Arrives source n (fun v c => v.Fine source c) (fun w => (r w).binary least mode) m
  call : ∀ {m n} name location mode, m.Stands source n →
    Arrives source n (fun v c => v.Fine source c) (fun w => (r w).call name location mode) m

variable {α : Type} {source : String} {k : Nat} {b : Brace} {r : Lookout → Rules} {n : Nesting}
  {m : Machine}

/-- A list that is closed by the parenthesis that was opened before it. -/
theorem Arrives.closedList {x : Lookout → Exec α} {A : α → Cursor → Prop} {fuel : Lookout → Nat}
    (hmono : ∀ {a c d}, A a c → c.cache.toList <+: d.cache.toList → A a d) {braces : List Brace}
    {ahead : Brace} {depth : Nat}
    (hx : ∀ {m}, m.Stands source ⟨braces, ahead, depth + 1⟩ →
      Arrives source ⟨braces, ahead, depth + 1⟩ A x m)
    (hfuel : ∀ w, fuel w = k) (hm : m.Stands source ⟨braces, ahead, depth + 1⟩) :
    Arrives source ⟨braces, ahead, depth⟩ (fun as c => ∀ a ∈ as, A a c)
      (fun w => closedList (fuel w) (x w)) m := by
  refine Follows.peekIs_bind hm (fun hm₁ _ hp => ?_) fun {m₁} hm₁ _ => ?_
  · exact Follows.sign_bind hm₁ hp fun hm₂ _ => Arrives.pure hm₂ fun a ha =>
      absurd ha List.not_mem_nil
  · refine Follows.loop (J := fun seen c => (∀ a ∈ seen, A a c) ∧
      c.nesting source = ⟨braces, ahead, depth + 1⟩) ?_
      hfuel hm₁.toLexed ⟨fun a ha => absurd ha List.not_mem_nil, hm₁.place⟩
    rintro seen m₂ hm₂ - ⟨hseen, hplace⟩
    refine (hx ⟨hm₂, hplace⟩).bind fun {a m₃} hm₃ hgrown ha => ?_
    refine Follows.next_bind hm₃ fun {m₄} hm₄ hgrown' _ _ => ?_
    have hall : ∀ a' ∈ seen ++ [a], A a' m₄.cursor := by
      intro a' ha'
      rcases List.mem_append.mp ha' with hmem | hmem
      · exact hmono (hmono (hseen a' hmem) hgrown) hgrown'
      · cases List.mem_singleton.mp hmem
        exact hmono ha hgrown'
    split
    · next htoken =>
      rw [Stream.token, htoken] at hm₄
      exact Follows.pure hm₄.toLexed ⟨hall, hm₄.place⟩
    · next htoken =>
      rw [Stream.token, htoken] at hm₄
      exact Follows.pure hm₄.toLexed ⟨hall, hm₄.place⟩
    · exact Follows.failParse _ _

namespace Rules.Lexical

theorem expression (h : Rules.Lexical source k b r) (mode : Mode) (hm : m.Stands source n) :
    Arrives source n (fun v c => v.Fine source c) (fun w => (r w).expression mode) m := by
  refine (h.assignment mode hm).bind fun hm₁ _ hfirst => ?_
  refine Arrives.loop (I := fun v c => v.Fine source c) (fun hm₂ hvalue => ?_) h.fuel hm₁ hfirst
  refine Follows.peekIs_bind hm₂ (fun hm₃ _ hcomma => ?_) fun hm₃ hgrown => ?_
  · refine Follows.sign_bind hm₃ hcomma fun hm₄ _ => ?_
    exact (h.assignment mode hm₄).bind fun hm₅ _ hv => Arrives.pure hm₅ hv
  · exact Arrives.pure hm₃ (hvalue.mono hgrown)

theorem arguments (h : Rules.Lexical source k b r) (mode : Mode) {braces : List Brace}
    {ahead : Brace} {depth : Nat} (hm : m.Stands source ⟨braces, ahead, depth + 1⟩) :
    Arrives source ⟨braces, ahead, depth⟩ (fun values c => ∀ v ∈ values, v.Fine source c)
      (fun w => (r w).arguments mode) m :=
  .closedList (fun hv hgrown => hv.mono hgrown) (h.assignment mode) h.fuel hm

theorem assign (hm : m.Stands source n) (name : String) (assignment : Assignment) {value : Value}
    (target operator : Location) (hv : value.Fine source m.cursor) :
    Arrives source n (fun v c => v.Fine source c)
      (fun _ => Rules.assign name assignment value target operator) m := by
  have hassigned : Arrives source n (fun v c => v.Fine source c)
      (fun _ => Rules.assignedValue name assignment value target operator) m := by
    refine (Arrives.lookup name hm).bind fun {found m₁} hm₁ hgrown _ => ?_
    split
    · exact Follows.raise (fun _ => RuntimeCause.noConfusion) _
    · exact Arrives.pure hm₁ (hv.mono hgrown)
    · exact Follows.raise (fun _ => RuntimeCause.noConfusion) _
    · exact Arrives.ofRuntime _ hm₁ (fun happly => .of_kind (BinaryOperator.apply_kind happly))
        BinaryOperator.apply_error
  refine hassigned.bind fun hm₁ _ hstored =>
    (Arrives.store name target hm₁ hstored).bind fun hm₂ hgrown _ => ?_
  exact Arrives.pure hm₂ (hstored.mono hgrown)

theorem assignmentRule (h : Rules.Lexical source k b r) (mode : Mode) (hm : m.Stands source n) :
    Arrives source n (fun v c => v.Fine source c) (fun w => (r w).assignmentRule mode) m := by
  refine Follows.next_bind hm fun {m₁} hm₁ _ hpos _ => ?_
  split
  · next name htoken =>
    rw [Stream.token, htoken] at hm₁
    refine Follows.next_bind hm₁ fun {m₂} hm₂ _ hpos₂ _ => ?_
    split
    · next assignment hsign =>
      rw [Stream.token, Nesting.step_assignment hsign] at hm₂
      refine (h.assignment mode hm₂).bind fun hm₃ _ hvalue => ?_
      cases mode with
      | skip => exact Arrives.pure hm₃ (.of_kind Kind.noConfusion)
      | execute => exact assign hm₃ _ _ _ _ hvalue
    · refine Follows.rollback_bind hm₂.toLexed hpos₂ hm₁.place fun hm₃ hpos₃ => ?_
      exact Follows.rollback_bind hm₃.toLexed (hpos₃.trans hpos) hm.place fun hm₄ _ =>
        h.conditional mode hm₄
  · exact Follows.rollback_bind hm₁.toLexed hpos hm.place fun hm₂ _ => h.conditional mode hm₂

theorem conditionalRule (h : Rules.Lexical source k b r) (mode : Mode) (hm : m.Stands source n) :
    Arrives source n (fun v c => v.Fine source c) (fun w => (r w).conditionalRule mode) m := by
  have hbranches {m : Machine} (hm : m.Stands source n) (mode mode' : Mode)
    (choice : Value → Value → Value)
      (hchoice : ∀ {first second c}, first.Fine source c → second.Fine source c →
        (choice first second).Fine source c) :
      Arrives source n (fun v c => v.Fine source c) (fun w => (do
        let first ← (r w).assignment mode
        expect .colon
        let second ← (r w).conditional mode'
        return choice first second : Exec Value)) m := by
    refine (h.assignment mode hm).bind fun hm₁ _ hfirst =>
      Follows.expect_bind hm₁ fun hm₂ hgrown => ?_
    refine (h.conditional mode' hm₂).bind fun hm₃ hgrown' hsecond => ?_
    exact Arrives.pure hm₃ (hchoice ((hfirst.mono hgrown).mono hgrown') hsecond)
  refine Follows.peek_bind hm fun hm₁ _ _ =>
    (h.binary _ mode hm₁).bind fun {condition m₂} hm₂ _ hcondition => ?_
  refine Follows.peekIs_bind hm₂ (fun hm₃ _ hquestion => ?_) fun hm₃ hgrown => ?_
  · refine Follows.sign_bind hm₃ hquestion fun hm₄ _ => ?_
    cases mode with
    | skip => exact hbranches hm₄ _ _ (fun _ _ => .noValue) fun _ _ => .of_kind Kind.noConfusion
    | execute =>
      simp only [map_eq_pure_bind, bind_assoc, pure_bind]
      refine Arrives.bind
        (Arrives.ofRuntime (A := anything) _ hm₄ (fun _ => trivial) Value.condition_error) ?_
      intro holds m₅ hm₅ _ _
      cases holds with
      | true => exact hbranches hm₅ _ _ (fun first _ => first) fun hfirst _ => hfirst
      | false => exact hbranches hm₅ _ _ (fun _ second => second) fun _ hsecond => hsecond
  · exact Arrives.pure hm₃ (hcondition.mono hgrown)

theorem applyPrefixes (hm : m.Stands source n) (ops : List (UnaryOperator × Location))
    {value : Value} (hvalue : value.Fine source m.cursor) :
    Arrives source n (fun v c => v.Fine source c) (fun _ => Rules.applyPrefixes ops value) m := by
  induction ops generalizing m value with
  | nil => exact Arrives.pure hm hvalue
  | cons op ops ih =>
    refine (Arrives.ofRuntime (A := fun v c => v.Fine source c) _ hm
      (fun happly => .of_kind (UnaryOperator.apply_kind happly)) UnaryOperator.apply_error).bind
        fun hm₁ _ hv => ?_
    exact ih hm₁ hv

theorem atom (h : Rules.Lexical source k b r) (mode : Mode) (hm : m.Stands source n) :
    Arrives source n (fun v c => v.Fine source c) (fun w => (r w).atom mode) m := by
  refine Follows.next_bind hm fun {m₁} hm₁ _ _ _ => ?_
  rw [Stream.token] at hm₁
  have hliteral {t : Token} {v : Value}
    (htoken : (Stream.lexeme source m.cursor.position).token = t)
      (hstep : n.step m.cursor.position t = n) (hkind : v.kind ≠ .procedure) :
      Arrives source n (fun v c => v.Fine source c) (fun _ => pure v) m₁ := by
    rw [htoken, hstep] at hm₁
    exact Arrives.pure hm₁ (.of_kind hkind)
  split
  · next htoken => exact hliteral htoken rfl Kind.noConfusion
  · next htoken => exact hliteral htoken rfl Kind.noConfusion
  · next htoken => exact hliteral htoken rfl Kind.noConfusion
  · next htoken => exact hliteral htoken rfl Kind.noConfusion
  · next htoken => exact hliteral htoken rfl Kind.noConfusion
  · next htoken =>
    cases mode with
    | execute => exact Follows.raise (fun _ => RuntimeCause.noConfusion) _
    | skip => exact hliteral htoken rfl Kind.noConfusion
  · next name htoken =>
    rw [htoken] at hm₁
    refine Follows.peekIs_bind hm₁ (fun hm₂ _ _ => h.call _ _ mode hm₂) fun hm₂ _ => ?_
    cases mode with
    | skip => exact Arrives.pure hm₂ (.of_kind Kind.noConfusion)
    | execute =>
      refine (Arrives.lookup name hm₂).bind fun hm₃ _ hfound => ?_
      split
      · exact Arrives.pure hm₃ (hfound _ _ rfl rfl)
      · exact Follows.raise (fun _ => RuntimeCause.noConfusion) _
      · exact Follows.raise (fun _ => RuntimeCause.noConfusion) _
  · next htoken =>
    rw [htoken] at hm₁
    refine (h.expression mode hm₁).bind fun hm₂ _ hv => Follows.expect_bind hm₂ fun hm₃ hgrown => ?_
    exact Arrives.pure hm₃ (hv.mono hgrown)
  · exact Follows.failParse _ _
  · exact Follows.failParse _ _

theorem unary (h : Rules.Lexical source k b r) (mode : Mode) (hm : m.Stands source n) :
    Arrives source n (fun v c => v.Fine source c) (fun w => (r w).unary mode) m := by
  have hprefixes : Arrives source n anything (fun w => loop prefixTurn (r w).fuel []) m := by
    refine Arrives.loop (I := anything)
      (fun hm₁ _ => Follows.peek_bind hm₁ fun {m₂} hm₂ _ hpos => ?_) h.fuel hm trivial
    split
    · next op hsign =>
      rw [← hpos] at hsign
      refine Follows.next_bind hm₂ fun {m₃} hm₃ _ _ _ => ?_
      rw [Stream.token, Nesting.step_unary hsign] at hm₃
      exact Arrives.pure hm₃ trivial
    · exact Arrives.pure hm₂ trivial
  refine hprefixes.bind fun hm₁ _ _ => (h.atom mode hm₁).bind fun hm₂ _ hoperand => ?_
  split
  · exact Arrives.pure hm₂ (.of_kind Kind.noConfusion)
  · exact applyPrefixes hm₂ _ hoperand

theorem rightOperand (h : Rules.Lexical source k b r) (op : BinaryOperator) (mode : Mode)
    (hm : m.Stands source n) :
    Arrives source n (fun v c => v.Fine source c) (fun w => (r w).rightOperand op mode) m := by
  unfold Rules.rightOperand
  cases op.precedence.tighter with
  | some level => exact h.binary level mode hm
  | none => exact h.unary mode hm

theorem binaryRule (h : Rules.Lexical source k b r) (least : Precedence) (mode : Mode)
    (hm : m.Stands source n) :
    Arrives source n (fun v c => v.Fine source c) (fun w => (r w).binaryRule least mode) m := by
  refine (h.unary mode hm).bind fun hm₁ _ hleft => ?_
  refine Arrives.loop (I := fun v c => v.Fine source c) (fun {left m₂} hm₂ hleft => ?_)
    h.fuel hm₁ hleft
  refine Follows.peek_bind hm₂ fun {m₃} hm₃ hgrown hpos => ?_
  split
  · exact Arrives.pure hm₃ (hleft.mono hgrown)
  · next op hsign =>
    split
    · exact Arrives.pure hm₃ (hleft.mono hgrown)
    · rw [← hpos] at hsign
      refine Follows.next_bind hm₃ fun {m₄} hm₄ hgrown₄ _ _ => ?_
      rw [Stream.token, Nesting.step_binary hsign] at hm₄
      have hleft₄ := (hleft.mono hgrown).mono hgrown₄
      have hskipped : Arrives source n
        (fun turn c => turn.All (fun v => v.Fine source c) (fun v => v.Fine source c))
          (fun w => (do
            let _ ← (r w).rightOperand op .skip
            return .again left : Exec (Turn Value Value))) m₄ :=
        (h.rightOperand op .skip hm₄).bind fun hm₅ hgrown₅ _ =>
        Arrives.pure hm₅ (hleft₄.mono hgrown₅)
      cases mode with
      | skip => exact hskipped
      | execute =>
        dsimp only
        split
        · exact hskipped
        · refine (h.rightOperand op .execute hm₄).bind fun hm₅ _ _ => ?_
          refine (Arrives.ofRuntime (A := fun v c => v.Fine source c) _ hm₅
            (fun happly => .of_kind (BinaryOperator.apply_kind happly))
            BinaryOperator.apply_error).bind fun hm₆ _ hv => ?_
          exact Arrives.pure hm₆ hv

end Rules.Lexical

end Replay
