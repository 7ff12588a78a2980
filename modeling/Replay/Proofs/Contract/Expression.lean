import Replay.Proofs.Contract.Scopes
/-!
Contracts of the rules for expressions.
-/

namespace Replay

open Exec

/-! ## Operators -/

theorem Value.good_of_kind {v : Value} (h : v.kind ≠ .procedure) (cache : Array Lexeme) :
    v.Good cache := by
  cases v with
  | procedure p => exact absurd rfl h
  | _ => trivial

theorem checked_kind {n : Int} {v : Value} (h : checked n = .ok v) : v.kind = .integer := by
  rw [checked] at h
  split at h <;> cases h
  rfl

namespace BinaryOperator

theorem onIntegers_kind {op : BinaryOperator} {a b : Int64} {v : Value}
    (h : op.onIntegers a b = some (.ok v)) :
    v.kind ≠ .procedure := by
  have hchecked {n : Int} (hn : checked n = .ok v) : v.kind ≠ .procedure := by
    rw [checked_kind hn]
    decide
  cases op with
  | add | sub | mul => exact hchecked (Option.some.inj h)
  | div =>
    rw [onIntegers, Option.some.injEq] at h
    split at h
    · cases h
    · exact hchecked h
  | mod =>
    rw [onIntegers, Option.some.injEq] at h
    split at h
    · cases h
    · cases hq : checked (a.toInt.tdiv b.toInt) with
      | error e => simp only [hq, bind, Except.bind] at h; cases h
      | ok q => exact hchecked (by simpa only [hq, bind, Except.bind] using h)
  | and | or => cases h
  | _ =>
    cases h
    exact Kind.noConfusion

theorem onReals_kind {op : BinaryOperator} {x y : Float} {v : Value} (h : op.onReals x y = some v) :
    v.kind ≠ .procedure := by
  cases op <;> cases h <;> exact Kind.noConfusion

theorem onBooleans_kind {op : BinaryOperator} {a b : Bool} {v : Value}
    (h : op.onBooleans a b = some v) :
    v.kind ≠ .procedure := by
  cases op <;> cases h <;> exact Kind.noConfusion

theorem kind_of_found {found : Option Value} {op : BinaryOperator} {left right v : Value}
    (h : (match found with | some v => Except.ok v | none => op.incompatible left right) = .ok v)
    (hfound : ∀ v, found = some v → v.kind ≠ .procedure) : v.kind ≠ .procedure := by
  cases found with
  | some v' =>
    cases h
    exact hfound v rfl
  | none => cases h

/-- No operator makes a procedure. -/
theorem apply_kind {op : BinaryOperator} {left right v : Value} (h : op.apply left right = .ok v) :
    v.kind ≠ .procedure := by
  unfold apply at h
  split at h
  · rename_i a b
    cases hop : op.onIntegers a b with
    | none => rw [hop] at h; cases h
    | some result =>
      rw [hop] at h
      cases (show result = .ok v from h)
      exact onIntegers_kind hop
  · exact kind_of_found h fun _ => onReals_kind
  · exact kind_of_found h fun _ => onReals_kind
  · exact kind_of_found h fun _ => onReals_kind
  · exact kind_of_found h fun _ => onBooleans_kind
  · cases h

end BinaryOperator

theorem UnaryOperator.apply_kind {op : UnaryOperator} {operand v : Value}
    (h : op.apply operand = .ok v) :
    v.kind ≠ .procedure := by
  unfold UnaryOperator.apply at h
  split at h
  · rw [checked_kind h]
    decide
  all_goals
    cases h
  all_goals exact Kind.noConfusion

/-! ## Rules -/

/-- The rules of `r` honour their contracts with the rules that have `k` levels of recursion
left. -/
structure Rules.Faithful (r : Rules) (k : Nat) : Prop where
  inStep : ∀ {m : Machine}, m.Sound → r.InStep (.frame m (.bare m.cursor)) (Rules.within k)
  statement : ∀ {m : Machine}, m.Sound →
    Honours .signal none ((Rules.within k).statement .skip) m.cursor (r.statement .execute) m
  assignment : ∀ {m : Machine}, m.Sound →
    Honours .value none ((Rules.within k).assignment .skip) m.cursor (r.assignment .execute) m
  conditional : ∀ {m : Machine}, m.Sound →
    Honours .value none ((Rules.within k).conditional .skip) m.cursor (r.conditional .execute) m
  binary : ∀ {m : Machine} (least : Precedence), m.Sound →
    Honours .value none ((Rules.within k).binary least .skip) m.cursor (r.binary least .execute) m
  call : ∀ {m : Machine} (name : String) (location : Location), m.Sound →
    Honours .value none ((Rules.within k).call name location .skip) m.cursor
      (r.call name location .execute) m

theorem Rules.within_reads (k : Nat) (L : Link) : (Rules.within k).InStep L (Rules.within k) :=
  Rules.within_inStep L (Nat.le_refl k)

namespace Rules.Faithful

variable {r : Rules} {k : Nat} {m : Machine}

/-! ## Sequences and assignments -/

theorem commaTurn (h : r.Faithful k) (hm : m.Sound) {value value' : Value}
    (hv : ∀ v ∈ [value], v.Good m.cursor.cache) :
    Honours (.turn .value .value) none ((Rules.within k).commaTurn .skip value') m.cursor
      (r.commaTurn .execute value) m := by
  refine .peekIs_bind hm fun {comma d} hd hg => ?_
  cases comma with
  | true =>
    refine .next_bind hd fun hd' _ _ => ?_
    exact (h.assignment hd').bind (fun _ => trivial) fun hdone _ =>
      .pure hdone.sound trivial hdone.good trivial
  | false => exact .pure hd trivial (fun v hmem => (hv v hmem).mono hg.cache_le) trivial

theorem expression (h : r.Faithful k) (hm : m.Sound) :
    Honours .value none ((Rules.within k).expression .skip) m.cursor (r.expression .execute) m := by
  refine (h.assignment hm).bind (fun _ => trivial) fun {first b m₁} hd _ => ?_
  exact .loop (S := .value) (fun value _ L => (Rules.within_reads k L).commaTurn value)
    (fun _ => trivial)
    (fun hm _ hgood => h.commaTurn hm hgood) (h.inStep hm).fuel hd.sound trivial hd.good

/-- What is stored is the value of the right-hand side or the result of an operator. -/
theorem assignedValue (hm : m.Sound) (name : String) (assignment : Assignment) {value : Value}
    (target operator : Location) (hv : value.Good m.cursor.cache) {b : Value} :
    Honours .value none (pure b) m.cursor
      (assignedValue name assignment value target operator) m := by
  refine (Honours.lookup hm name).idle_bind (fun _ => trivial) fun {found m₁} hd hcursor => ?_
  match found, assignment with
  | none, _ => exact .raise hd.sound _ _
  | some _, .plain =>
    refine .pure hd.sound trivial (fun v hmem => ?_) trivial
    cases List.mem_singleton.mp hmem
    exact hcursor ▸ hv
  | some ⟨_, none⟩, .compound _ => exact .raise hd.sound _ _
  | some ⟨_, some old⟩, .compound op =>
    refine .ofRuntime hd.sound fun v happly => ⟨trivial, trivial, fun w hmem => ?_⟩
    cases List.mem_singleton.mp hmem
    exact Value.good_of_kind (BinaryOperator.apply_kind happly) _

theorem assign (hm : m.Sound) (name : String) (assignment : Assignment) {value : Value}
    (target operator : Location) (hv : value.Good m.cursor.cache) {b : Value} :
    Honours .value none (pure b) m.cursor (assign name assignment value target operator) m := by
  refine (assignedValue hm name assignment target operator hv (b := b)).bind (g := fun _ => pure b)
    (fun _ => trivial) fun {stored b' m₁} hd _ => ?_
  have hstored : stored.Good m₁.cursor.cache := hd.good stored (List.mem_singleton.mpr rfl)
  refine (Honours.store hd.sound name target hstored).idle_bind (fun _ => trivial) fun hd'
    hcursor => ?_
  exact .pure hd'.sound trivial (hcursor ▸ hd.good) trivial

theorem assignmentRule (h : r.Faithful k) (hm : m.Sound) :
    Honours .value none ((Rules.within k).assignmentRule .skip) m.cursor
      (r.assignmentRule .execute) m := by
  refine .next_bind hm fun {target d} hd hg hpos => ?_
  have hpos' : 0 < (m.on d).cursor.position := hpos ▸ Nat.succ_pos _
  split
  · refine .next_bind hd fun {operator d'} hd' hg' hpos'' => ?_
    split
    · refine (h.assignment hd').bind (fun _ => trivial) fun {value b m₁} hdone _ => ?_
      exact assign hdone.sound _ _ _ _ (hdone.good value (List.mem_singleton.mpr rfl))
    · refine .rollback_bind hd' (hpos'' ▸ Nat.succ_pos _) fun {d₁} hd₁ heq => ?_
      refine .rollback_bind hd₁ ?_ fun hd₂ _ => h.conditional hd₂
      rw [Machine.on_cursor, heq, Machine.on_cursor, Cursor.place_position, hpos'',
        Nat.add_sub_cancel]
      exact hpos'
  · exact .rollback_bind hd hpos' fun hd₁ _ => h.conditional hd₁

/-! ## Conditional expressions -/

/-- The branch that is not taken is skipped, the other one is executed. -/
theorem conditionalRule (h : r.Faithful k) (hm : m.Sound) :
    Honours .value none ((Rules.within k).conditionalRule .skip) m.cursor
      (r.conditionalRule .execute) m := by
  refine .scan_bind .peek hm fun {start d} _ hd _ _ => ?_
  refine (h.binary _ hd).bind (fun _ => trivial) fun {condition b m₁} hdone _ => ?_
  refine .peekIs_bind hdone.sound fun {question d} hd hg => ?_
  cases question with
  | false => exact .pure hd trivial (fun v hv => (hdone.good v hv).mono hg.cache_le) trivial
  | true =>
    refine .next_bind hd fun {l d} hd _ _ => ?_
    cases hcondition : condition.condition with
    | error cause => exact .raise hd _ _
    | ok taken =>
      cases taken with
      | true =>
        refine (h.assignment hd).bind (fun _ => trivial) fun {first b m₂} hfirst _ => ?_
        refine .expect_bind hfirst.sound fun {d} hd hg => ?_
        refine .scan_bind (h.inStep hd).conditional hd fun {second d'} _ hd' _ hg' => ?_
        refine .pure hd' trivial (fun v hv => ?_) trivial
        exact (hfirst.good v hv).mono (hg.trans hg').cache_le
      | false =>
        refine .scan_bind (h.inStep hd).assignment hd fun {first d} _ hd _ _ => ?_
        refine .expect_bind hd fun {d} hd _ => ?_
        exact (h.conditional hd).bind (fun _ => trivial) fun hsecond _ =>
          .pure hsecond.sound trivial hsecond.good trivial

/-! ## Operands -/

theorem applyPrefixes (hm : m.Sound) (ops : List (UnaryOperator × Location)) {value b : Value}
    (hv : value.Good m.cursor.cache) :
    Honours .value none (pure b) m.cursor (applyPrefixes ops value) m := by
  induction ops generalizing m value with
  | nil =>
    refine .pure hm trivial (fun v hmem => ?_) trivial
    cases List.mem_singleton.mp hmem
    exact hv
  | cons op ops ih =>
    obtain ⟨op, location⟩ := op
    refine (Honours.ofRuntime (R := .value) (b := ()) hm fun v happly =>
      ⟨trivial, trivial, fun w hmem => ?_⟩).idle_bind (fun _ => trivial) fun {v m₁} hd _ => ?_
    · cases List.mem_singleton.mp hmem
      exact Value.good_of_kind (UnaryOperator.apply_kind happly) _
    · exact ih hd.sound (hd.good v (List.mem_singleton.mpr rfl))

theorem atom (h : r.Faithful k) (hm : m.Sound) :
    Honours .value none ((Rules.within k).atom .skip) m.cursor (r.atom .execute) m := by
  have hplain {v : Value} {c : Array Lexeme} (hv : v.kind ≠ .procedure) : ∀ w ∈ [v], w.Good c := by
    intro w hw
    cases List.mem_singleton.mp hw
    exact Value.good_of_kind hv c
  refine .next_bind hm fun {l d} hd _ _ => ?_
  split
  · exact .pure hd trivial (hplain Kind.noConfusion) trivial
  · exact .pure hd trivial (hplain Kind.noConfusion) trivial
  · exact .pure hd trivial (hplain Kind.noConfusion) trivial
  · exact .pure hd trivial (hplain Kind.noConfusion) trivial
  · exact .pure hd trivial (hplain Kind.noConfusion) trivial
  · exact .raise hd _ _
  · refine .peekIs_bind hd fun {paren d} hd _ => ?_
    cases paren with
    | true => exact h.call _ _ hd
    | false => exact .readVariable hd _ _
  · refine (h.expression hd).bind (fun _ => trivial) fun {v b m₁} hdone _ => ?_
    refine .expect_bind hdone.sound fun {d} hd hg => ?_
    exact .pure hd trivial (fun w hw => (hdone.good w hw).mono hg.cache_le) trivial
  · exact .failParse hd _ _
  · exact .failParse hd _ _

theorem unary (h : r.Faithful k) (hm : m.Sound) :
    Honours .value none ((Rules.within k).unary .skip) m.cursor (r.unary .execute) m := by
  refine .scan_bind (h.inStep hm).prefixes hm fun {ops d} _ hd _ _ => ?_
  refine (h.atom hd).bind (fun _ => trivial) fun {operand b m₁} hdone _ => ?_
  have hgood := hdone.good operand (List.mem_singleton.mpr rfl)
  cases ops with
  | nil => exact applyPrefixes hdone.sound [] hgood
  | cons op ops => exact applyPrefixes hdone.sound (op :: ops) hgood

theorem rightOperand (h : r.Faithful k) (op : BinaryOperator) (hm : m.Sound) :
    Honours .value none ((Rules.within k).rightOperand op .skip) m.cursor
      (r.rightOperand op .execute) m := by
  unfold Rules.rightOperand
  cases op.precedence.tighter with
  | some level => exact h.binary level hm
  | none => exact h.unary hm

theorem binaryTurn (h : r.Faithful k) (least : Precedence) (hm : m.Sound) {left left' : Value}
    (hv : ∀ v ∈ [left], v.Good m.cursor.cache) :
    Honours (.turn .value .value) none ((Rules.within k).binaryTurn least .skip left') m.cursor
      (r.binaryTurn least .execute left) m := by
  refine .scan_bind .peek hm fun {ahead d} _ hd _ hg => ?_
  have hleft : ∀ v ∈ [left], v.Good d.cache := fun v hmem => (hv v hmem).mono hg.cache_le
  split
  · exact .pure hd trivial hleft trivial
  · split
    · exact .pure hd trivial hleft trivial
    · refine .next_bind hd fun {l d'} hd' hg' _ => ?_
      simp only []
      split
      · refine .scan_bind ((h.inStep hd').rightOperand _) hd' fun {right d''} _ hd'' _ hg'' => ?_
        refine .pure hd'' trivial (fun v hmem => ?_) trivial
        exact (hleft v hmem).mono (hg'.trans hg'').cache_le
      · refine (h.rightOperand _ hd').bind (fun _ => trivial) fun {right b m₁} hdone _ => ?_
        refine (Honours.ofRuntime (R := .value) (b := ()) hdone.sound fun v happly =>
          ⟨trivial, trivial, fun w hmem => ?_⟩).idle_bind (fun _ => trivial) fun {v m₂} hd₂ _ => ?_
        · cases List.mem_singleton.mp hmem
          exact Value.good_of_kind (BinaryOperator.apply_kind happly) _
        · exact .pure hd₂.sound trivial hd₂.good trivial

theorem binaryRule (h : r.Faithful k) (least : Precedence) (hm : m.Sound) :
    Honours .value none ((Rules.within k).binaryRule least .skip) m.cursor
      (r.binaryRule least .execute) m := by
  refine (h.unary hm).bind (fun _ => trivial) fun {left b m₁} hd _ => ?_
  exact .loop (S := .value) (fun left _ L => (Rules.within_reads k L).binaryTurn least left)
    (fun _ => trivial)
    (fun hm _ hgood => h.binaryTurn least hm hgood) (h.inStep hm).fuel hd.sound trivial hd.good

theorem arguments (h : r.Faithful k) (hm : m.Sound) :
    Honours (.plain fun vs => vs.flatMap fun v => [v]) none
      ((Rules.within k).arguments .skip) m.cursor
      (r.arguments .execute) m :=
  .closedList (fun L => (Rules.within_reads k L).assignment) h.assignment (h.inStep hm).fuel hm

end Rules.Faithful
end Replay
