import Replay.Proofs.Follow.Call
import Replay.Proofs.Follow.Loop
/-!
Trees are run as they are written.

Wherever the tokens of a statement are on the tape, the interpreter does with them what the walk
does with the statement.  This goes by induction on the statement; what each kind of statement adds
has been said before.
-/

namespace Replay

open Exec

/-- What the walk needs for the interpreter to follow it: calls are followed, and no loop of the
walk turns less often than loops of the interpreter can. -/
structure View.Follows (V : View) (p : Parens) (n : Nat) (invoke : Invocation) (turns : Nat) :
    Prop where
  blind : V.Blind
  parens : p.Suffices
  invokes : V.Invokes n invoke
  turns : n ≤ turns

def View.Knows (V : View) (definitions : List Definition) : Prop :=
  ∀ d ∈ definitions, ∀ scope, V.known (.procedure ⟨d.entry, scope⟩)

/-- No branch of an `if` starts at token number `i`. -/
def View.Apart (V : View) (i : Nat) : Prop := ∃ t, V.tape.At i t ∧ t.branches = false

section

variable {V : View} {n : Nat} {p : Parens} {invoke : Invocation} {turns i : Nat}

/-! ## Clauses -/

/-- A whole expression, with a token behind it that cannot go on with it. -/
theorem Expr.reads (h : V.Follows p n invoke turns) (e : Expr Unit)
    (hs : V.tape.Spells i (e.tokensAt p .whole)) {t : Token}
    (ht : V.tape.At (i + (e.tokensAt p .whole).length) t) (hstop : t.continues 0 = false) :
    V.Heads i ∧ V.Reads n View.expressions ((e.markedAt p V.tape.marks .whole i).eval invoke) i
      (i + (e.tokensAt p .whole).length) := by
  obtain ⟨level, _, hparses⟩ := e.parsesAt h.parens .whole (e.parses h.parens fun _ => h.invokes) hs
  exact ⟨hparses.head, hparses.expression (ht.stops hstop)⟩

theorem Condition.does (h : V.Follows p n invoke turns) (c : Condition Unit)
    (hs : V.tape.Spells i (c.tokens p)) :
    V.Does n View.parenthesizeds ((c.marked p V.tape.marks (i + 1)).holds invoke) i
      (i + (c.tokens p).length) := by
  obtain ⟨hopen, hs⟩ := hs
  obtain ⟨hs, hclose, _⟩ := Cursor.spells_append.mp hs
  obtain ⟨⟨t, ht, _⟩, hreads⟩ := c.test.reads h hs hclose rfl
  have hend : i + (c.tokens p).length = i + 1 + (c.test.tokensAt p .whole).length + 1 := by
    simp only [Condition.tokens, List.length_cons, List.length_append, List.length_nil]
    omega
  rw [hend]
  exact hreads.parenthesizeds ht hopen hclose

theorem Declarator.does (h : V.Follows p n invoke turns) (d : Declarator Unit)
    (hs : V.tape.Spells i (d.tokens p))
    {t : Token} (ht : V.tape.At (i + (d.tokens p).length) t) (hstop : t.continues 1 = false) :
    V.Does n (fun mode k => (Rules.within k).declareOne mode)
      ((d.marked p V.tape.marks i).run invoke) i
      (i + (d.tokens p).length) := by
  obtain ⟨_, name, value⟩ := d
  cases value with
  | none => exact .declareOne h.blind hs.1 ht (Token.not_equals hstop)
  | some e =>
    obtain ⟨hname, hequals, hs⟩ := hs
    have hend : i + ((Declarator.mk () name (some e)).tokens p).length =
        i + 2 + (e.tokensAt p .initializer).length := by
      simp only [Declarator.tokens, List.length_cons]
      omega
    rw [hend] at ht ⊢
    obtain ⟨level, hlevel, hparses⟩ :=
      e.parsesAt h.parens .initializer (e.parses h.parens fun _ => h.invokes) hs
    have hrun : ((Declarator.mk () name (some e)).marked p V.tape.marks i).run invoke =
        (e.markedAt p V.tape.marks .initializer (i + 2)).eval invoke >>= fun v =>
          Walk.declare name (some v) (V.tape.marks i).location := by
      simp only [Declarator.run, Declarator.marked, Option.map_some, map_eq_pure_bind,
        bind_assoc, pure_bind]
    rw [hrun]
    exact (hparses.assignment hlevel (ht.stops hstop)).declareOne h.blind hname hequals

/-- Declarations up to a semicolon. -/
theorem Declarator.declares (h : V.Follows p n invoke turns) (first : Declarator Unit)
    (rest : List (Declarator Unit))
    {i : Nat} (hs : V.tape.Spells i (Declarator.listTokens p first rest))
    (hend : V.tape.At (i + (Declarator.listTokens p first rest).length) (.punct .semicolon)) :
    V.Declares n (Declarator.runAll invoke (first.marked p V.tape.marks i ::
      Declarator.markedList p V.tape.marks rest (i + (first.tokens p).length + 1))) i
      (i + (Declarator.listTokens p first rest).length) := by
  induction rest generalizing first i with
  | nil =>
    simp only [listTokens, List.flatMap_nil, List.append_nil] at hs hend ⊢
    have hrun : Declarator.runAll invoke [first.marked p V.tape.marks i] =
        (first.marked p V.tape.marks i).run invoke :=
      bind_pure_unit
    rw [Declarator.markedList, hrun]
    exact .last (first.does h hs hend rfl) hend rfl
  | cons d rest ih =>
    obtain ⟨hs, hcomma, hs'⟩ := Cursor.spells_append.mp hs
    have hlength : (listTokens p first (d :: rest)).length =
        (first.tokens p).length + 1 + (listTokens p d rest).length := by
      simp only [listTokens, List.flatMap_cons, List.length_append, List.length_cons]
      omega
    rw [hlength, ← Nat.add_assoc, ← Nat.add_assoc] at hend ⊢
    exact .cons (first.does h hs hcomma rfl) hcomma (ih d hs' hend)

theorem Initializer.does (h : V.Follows p n invoke turns) (init : Initializer Unit)
    (hs : V.tape.Spells i (init.tokens p))
    (hend : V.tape.At (i + (init.tokens p).length) (.punct .semicolon)) :
    V.Does n View.forInitializers ((init.marked p V.tape.marks i).run invoke) i
      (i + (init.tokens p).length + 1) := by
  cases init with
  | nothing => exact .noInitializer hend
  | declare first rest =>
    obtain ⟨ht, hs⟩ := hs
    have hlength : i + ((Initializer.declare first rest).tokens p).length =
        i + 1 + (Declarator.listTokens p first rest).length := by
      simp only [tokens, List.length_cons]
      omega
    rw [hlength] at hend ⊢
    exact (Declarator.declares h first rest hs hend).initializer ht hend
  | expression e =>
    obtain ⟨⟨t, ht, hstarts⟩, hreads⟩ := e.reads h hs hend rfl
    exact hreads.initializer ht hstarts hend

/-- The condition of a `for` loop. -/
theorem Condition.checks (h : V.Follows p n invoke turns) (c : Option (Condition Unit))
    (hs : V.tape.Spells i ((c.map fun c => c.test.tokensAt p .whole).getD []))
    (hend : V.tape.At (i + ((c.map fun c => c.test.tokensAt p .whole).getD []).length)
      (.punct .semicolon)) :
    V.Checks n (Walk.forHolds invoke (c.map fun c => c.marked p V.tape.marks i)) i
      (i + ((c.map fun c => c.test.tokensAt p .whole).getD []).length + 1) := by
  cases c with
  | none => exact .nothing hend
  | some c =>
    obtain ⟨⟨t, ht, hstarts⟩, hreads⟩ := c.test.reads h hs hend rfl
    exact hreads.checks ht hstarts hend

/-- The increment of a `for` loop. -/
theorem Expr.steps (h : V.Follows p n invoke turns) (e : Option (Expr Unit))
    (hs : V.tape.Spells i ((e.map fun e => e.tokensAt p .whole).getD []))
    (hend : V.tape.At (i + ((e.map fun e => e.tokensAt p .whole).getD []).length)
      (.punct .rightParen)) :
    V.Does n View.forIncrements
      (Walk.forStep invoke (e.map fun e => e.markedAt p V.tape.marks .whole i)) i
      (i + ((e.map fun e => e.tokensAt p .whole).getD []).length + 1) := by
  cases e with
  | none => exact .noIncrement hend
  | some e =>
    obtain ⟨⟨t, ht, hstarts⟩, hreads⟩ := e.reads h hs hend rfl
    exact hreads.increment ht hstarts hend

/-! ## First tokens -/

/-- Another statement comes with the first token of a statement. -/
theorem Stmt.opens (h : V.Follows p n invoke turns) (s : Stmt Unit)
    (hs : V.tape.Spells i (s.tokens p)) :
    V.Opens i := by
  cases s with
  | expression e =>
    obtain ⟨hs, ht, _⟩ := Cursor.spells_append.mp hs
    obtain ⟨⟨t, ht, hstarts⟩, _⟩ := e.reads h hs ht rfl
    exact ⟨t, ht, Token.opens_of_starts hstarts⟩
  | returnValue _ value => cases value <;> exact ⟨_, hs.1, rfl⟩
  | _ => exact ⟨_, hs.1, rfl⟩

theorem Stmt.listTokens_apart (h : V.Follows p n invoke turns) (body : List (Stmt Unit))
    (hs : V.tape.Spells i (Stmt.listTokens p body)) : V.Apart i := by
  cases body with
  | nil => exact ⟨_, hs.1, rfl⟩
  | cons s rest =>
    obtain ⟨hs, _⟩ := Cursor.spells_append.mp hs
    obtain ⟨t, ht, hopens⟩ := s.opens h hs
    exact ⟨t, ht, Token.not_branches_of_opens hopens⟩

/-! ## Statements -/

theorem View.Knows.left {ds ds' : List Definition} (h : V.Knows (ds ++ ds')) : V.Knows ds :=
  fun d hd => h d (List.mem_append_left _ hd)

theorem View.Knows.right {ds ds' : List Definition} (h : V.Knows (ds ++ ds')) : V.Knows ds' :=
  fun d hd => h d (List.mem_append_right _ hd)

mutual

theorem Stmt.runs (h : V.Follows p n invoke turns) : (s : Stmt Unit) →
    ∀ {i}, V.Knows (s.marked p V.tape.marks i).definitions → V.tape.Spells i (s.tokens p) →
      V.Apart (i + (s.tokens p).length) →
      V.Runs (n + 1) View.statements ((s.marked p V.tape.marks i).run invoke turns) i
        (i + (s.tokens p).length)
  | .empty, _, _, hs, _ => .empty hs.1
  | .expression e, i, _, hs, _ => by
    obtain ⟨hs, hend, _⟩ := Cursor.spells_append.mp hs
    obtain ⟨⟨t, ht, hstarts⟩, hreads⟩ := e.reads h hs hend rfl
    refine (View.Runs.expression ht hstarts hreads hend).upTo ?_
    simp only [Stmt.tokens, List.length_append, List.length_cons, List.length_nil]
    omega
  | .eval e, i, _, hs, _ => by
    obtain ⟨ht, hs⟩ := hs
    obtain ⟨hs, hend, _⟩ := Cursor.spells_append.mp hs
    obtain ⟨_, hreads⟩ := e.reads h hs hend rfl
    refine (View.Runs.eval ht hreads hend).upTo ?_
    simp only [Stmt.tokens, List.length_append, List.length_cons, List.length_nil]
    omega
  | .declare first rest, i, _, hs, _ => by
    obtain ⟨ht, hs⟩ := hs
    obtain ⟨hs, hend, _⟩ := Cursor.spells_append.mp hs
    refine (View.Runs.declare ht (Declarator.declares h first rest hs hend) hend).upTo ?_
    simp only [Stmt.tokens, List.length_append, List.length_cons, List.length_nil]
    omega
  | .block body, i, hknows, hs, _ => by
    obtain ⟨ht, hs⟩ := hs
    have hbody := ((Stmt.runsAll h body hknows hs).braces ht).blocks h.blind
    refine (View.Runs.block ht (hbody.le (Nat.le_succ n))).upTo ?_
    simp only [Stmt.tokens, List.length_cons]
    omega
  | .branch c body rest, i, hknows, hs, hapart => by
    obtain ⟨ht, hs⟩ := hs
    obtain ⟨hc, hopen, hs⟩ := Cursor.spells_append.mp hs
    obtain ⟨hbody, hrest⟩ := Cursor.spells_append.mp hs
    have hlength : i + ((Stmt.branch c body rest).tokens p).length =
        i + 1 + (c.tokens p).length + 1 + (Stmt.listTokens p body).length +
            (rest.tokens p).length := by
      simp only [Stmt.tokens, List.length_append, List.length_cons]
      omega
    rw [hlength] at hapart ⊢
    have hblock := ((Stmt.runsAll h body hknows.left hbody).braces hopen).blocks h.blind
    have hchain := View.RunsChain.of_rest (c.does h hc) (hblock.le (Nat.le_succ n))
      (rest.runs h hknows.right hrest hapart)
    exact .branch ht hchain
  | .whileLoop c body, i, hknows, hs, _ => by
    obtain ⟨ht, hs⟩ := hs
    obtain ⟨hc, hopen, hs⟩ := Cursor.spells_append.mp hs
    have hbody := ((Stmt.runsAll h body hknows hs).braces hopen).le (Nat.le_succ n)
    refine (View.Runs.whileLoop h.blind ht (c.does h hc) hbody h.turns).upTo ?_
    simp only [Stmt.tokens, List.length_append, List.length_cons]
    omega
  | .doLoop body c, i, hknows, hs, _ => by
    obtain ⟨ht, hopen, hs⟩ := hs
    obtain ⟨hs, hwhile, hs'⟩ := Cursor.spells_append.mp hs
    obtain ⟨hc, hend, _⟩ := Cursor.spells_append.mp hs'
    have hbody := ((Stmt.runsAll h body hknows hs).braces hopen).le (Nat.le_succ n)
    have hcondition := View.Does.doCondition hwhile (c.does h hc) hend
    refine (View.Runs.doLoop h.blind ht hbody hcondition h.turns).upTo ?_
    simp only [Stmt.tokens, List.length_append, List.length_cons, List.length_nil]
    omega
  | .forLoop init condition increment body, i, hknows, hs, _ => by
    obtain ⟨ht, hopen, hs⟩ := hs
    obtain ⟨hs, hbrace, hbody⟩ := Cursor.spells_append.mp hs
    obtain ⟨hinit, hfirst, hs⟩ := Cursor.spells_append.mp hs
    obtain ⟨hcondition, hsecond, hs⟩ := Cursor.spells_append.mp hs
    obtain ⟨hincrement, hclose, _⟩ := Cursor.spells_append.mp hs
    have hbraces := ((Stmt.runsAll h body hknows hbody).braces hbrace).le (Nat.le_succ n)
    have hhead : i + 2 + (init.tokens p).length + 1 +
        ((condition.map fun c => c.test.tokensAt p .whole).getD []).length + 1 +
        ((increment.map fun e => e.tokensAt p .whole).getD []).length + 1 =
          i + 2 + (forTokens p init condition increment).length := by
      simp only [forTokens, List.length_append, List.length_cons, List.length_nil]
      omega
    refine (View.Runs.forLoop h.blind ht hopen (init.does h hinit hfirst)
      (Condition.checks h condition hcondition hsecond)
      ((Expr.steps h increment hincrement hclose).upTo hhead) hbraces h.turns).upTo ?_
    simp only [Stmt.tokens, List.length_append, List.length_cons]
    omega
  | .procedure _ name _ parameters body, i, hknows, hs, _ => by
    obtain ⟨ht, hname, hopen, hs⟩ := hs
    obtain ⟨hparameters, hbrace, hbody⟩ := Cursor.spells_append.mp hs
    have hbraces :=
      ((Stmt.runsAll h body (fun d hd => hknows d (List.mem_cons_of_mem _ hd)) hbody).braces
        hbrace).le
      (Nat.le_succ n)
    refine (View.Runs.procedure h.blind ht hname
      (.parameterList parameters hopen hparameters) hbraces
      fun scope => hknows _ List.mem_cons_self scope).upTo ?_
    simp only [Stmt.tokens, List.length_append, List.length_cons]
    omega
  | .breakLoop _, _, _, hs, _ => .breakLoop hs.1 hs.2.1
  | .continueLoop _, _, _, hs, _ => .continueLoop hs.1 hs.2.1
  | .returnValue _ none, _, _, hs, _ => .returnNothing hs.1 hs.2.1
  | .returnValue _ (some e), i, _, hs, _ => by
    obtain ⟨ht, hs⟩ := hs
    obtain ⟨hs, hend, _⟩ := Cursor.spells_append.mp hs
    obtain ⟨⟨t, hhead, hstarts⟩, hreads⟩ := e.reads h hs hend rfl
    refine (View.Runs.returnValue ht hhead hstarts hreads hend).upTo ?_
    simp only [Stmt.tokens, List.length_append, List.length_cons, List.length_nil]
    omega

/-- Statements up to the closing brace. -/
theorem Stmt.runsAll (h : V.Follows p n invoke turns) : (body : List (Stmt Unit)) →
    ∀ {i}, V.Knows (Stmt.listDefinitions (Stmt.markedList p V.tape.marks body i)) →
      V.tape.Spells i (Stmt.listTokens p body) →
      V.RunsAll (n + 1) (Stmt.runAll invoke turns (Stmt.markedList p V.tape.marks body i)) i
        (i + (Stmt.listTokens p body).length)
  | [], _, _, hs => .nil hs.1
  | s :: rest, i, hknows, hs => by
    obtain ⟨hs, hs'⟩ := Cursor.spells_append.mp hs
    have hlength : i + (Stmt.listTokens p (s :: rest)).length =
        i + (s.tokens p).length + (Stmt.listTokens p rest).length := by
      simp only [Stmt.listTokens, List.length_append]
      omega
    rw [hlength]
    have hfirst := s.runs h hknows.left hs (Stmt.listTokens_apart h rest hs')
    exact .cons hfirst (s.opens h hs) (Stmt.runsAll h rest hknows.right hs')

theorem Branches.runs (h : V.Follows p n invoke turns) : (b : Branches Unit) →
    ∀ {i}, V.Knows (b.marked p V.tape.marks i).definitions → V.tape.Spells i (b.tokens p) →
      V.Apart (i + (b.tokens p).length) →
      V.RunsRest n ((b.marked p V.tape.marks i).run invoke turns) i (i + (b.tokens p).length)
  | .done, _, _, _, hapart => by
    obtain ⟨t, ht, hbranches⟩ := hapart
    exact .done ht hbranches
  | .elif c body rest, i, hknows, hs, hapart => by
    obtain ⟨ht, hs⟩ := hs
    obtain ⟨hc, hopen, hs⟩ := Cursor.spells_append.mp hs
    obtain ⟨hbody, hrest⟩ := Cursor.spells_append.mp hs
    have hlength : i + ((Branches.elif c body rest).tokens p).length =
        i + 1 + (c.tokens p).length + 1 + (Stmt.listTokens p body).length +
            (rest.tokens p).length := by
      simp only [Branches.tokens, List.length_append, List.length_cons]
      omega
    rw [hlength] at hapart ⊢
    have hblock := ((Stmt.runsAll h body hknows.left hbody).braces hopen).blocks h.blind
    have hchain := View.RunsChain.of_rest (c.does h hc) (hblock.le (Nat.le_succ n))
      (rest.runs h hknows.right hrest hapart)
    exact .elif ht hchain
  | .otherwise body, i, hknows, hs, _ => by
    obtain ⟨ht, hopen, hs⟩ := hs
    have hblock :=
      (((Stmt.runsAll h body hknows hs).braces hopen).blocks h.blind).le (Nat.le_succ n)
    refine .otherwise ht (hblock.upTo ?_)
    simp only [Branches.tokens, List.length_cons]
    omega

end

/-! ## Definitions -/

mutual

/-- The definitions in a statement are where their entries say. -/
theorem Stmt.laid (h : V.Follows p n invoke turns) : (s : Stmt Unit) →
    ∀ {i}, V.Knows (s.marked p V.tape.marks i).definitions → V.tape.Spells i (s.tokens p) →
      ∀ d ∈ (s.marked p V.tape.marks i).definitions, V.Laid (n + 1) (Stmt.runAll invoke turns) d
  | .block body, i, hknows, hs => Stmt.listLaid h body hknows hs.2
  | .branch c body rest, i, hknows, hs => by
    obtain ⟨_, _, hs⟩ := Cursor.spells_append.mp hs.2
    obtain ⟨hbody, hrest⟩ := Cursor.spells_append.mp hs
    intro d hd
    rcases List.mem_append.mp hd with hd | hd
    · exact Stmt.listLaid h body hknows.left hbody d hd
    · exact rest.laid h hknows.right hrest d hd
  | .whileLoop c body, i, hknows, hs => by
    obtain ⟨_, _, hs⟩ := Cursor.spells_append.mp hs.2
    exact Stmt.listLaid h body hknows hs
  | .doLoop body c, i, hknows, hs => by
    obtain ⟨hs, _⟩ := Cursor.spells_append.mp hs.2.2
    exact Stmt.listLaid h body hknows hs
  | .forLoop init condition increment body, i, hknows, hs => by
    obtain ⟨_, _, hs⟩ := Cursor.spells_append.mp hs.2.2
    exact Stmt.listLaid h body hknows hs
  | .procedure _ name _ parameters body, i, hknows, hs => by
    obtain ⟨_, _, hopen, hs⟩ := hs
    obtain ⟨hparameters, hbrace, hbody⟩ := Cursor.spells_append.mp hs
    have hinner : V.Knows _ := fun d hd => hknows d (List.mem_cons_of_mem _ hd)
    intro d hd
    rcases List.mem_cons.mp hd with rfl | hd
    · exact ⟨_, _, .parameterList parameters hopen hparameters,
        (Stmt.runsAll h body hinner hbody).braces hbrace⟩
    · exact Stmt.listLaid h body hinner hbody d hd
  | .empty, _, _, _ | .expression _, _, _, _ | .eval _, _, _, _ | .declare _ _, _, _, _
  | .breakLoop _, _, _, _
  | .continueLoop _, _, _, _ | .returnValue _ _, _, _, _ => fun d hd => absurd hd List.not_mem_nil

theorem Stmt.listLaid (h : V.Follows p n invoke turns) : (body : List (Stmt Unit)) →
    ∀ {i}, V.Knows (Stmt.listDefinitions (Stmt.markedList p V.tape.marks body i)) →
      V.tape.Spells i (Stmt.listTokens p body) →
      ∀ d ∈ Stmt.listDefinitions (Stmt.markedList p V.tape.marks body i),
        V.Laid (n + 1) (Stmt.runAll invoke turns) d
  | [], _, _, _ => fun d hd => absurd hd List.not_mem_nil
  | s :: rest, i, hknows, hs => by
    obtain ⟨hs, hs'⟩ := Cursor.spells_append.mp hs
    intro d hd
    rcases List.mem_append.mp hd with hd | hd
    · exact s.laid h hknows.left hs d hd
    · exact Stmt.listLaid h rest hknows.right hs' d hd

theorem Branches.laid (h : V.Follows p n invoke turns) : (b : Branches Unit) →
    ∀ {i}, V.Knows (b.marked p V.tape.marks i).definitions → V.tape.Spells i (b.tokens p) →
      ∀ d ∈ (b.marked p V.tape.marks i).definitions, V.Laid (n + 1) (Stmt.runAll invoke turns) d
  | .done, _, _, _ => fun d hd => absurd hd List.not_mem_nil
  | .elif c body rest, i, hknows, hs => by
    obtain ⟨_, _, hs⟩ := Cursor.spells_append.mp hs.2
    obtain ⟨hbody, hrest⟩ := Cursor.spells_append.mp hs
    intro d hd
    rcases List.mem_append.mp hd with hd | hd
    · exact Stmt.listLaid h body hknows.left hbody d hd
    · exact rest.laid h hknows.right hrest d hd
  | .otherwise body, i, hknows, hs => Stmt.listLaid h body hknows hs.2.2

end

/-! ## Scripts -/

theorem scriptTokens_laid (h : V.Follows p n invoke turns) (script : List (Stmt Unit)) {i : Nat}
    (hknows : V.Knows (Stmt.listDefinitions (Stmt.markedList p V.tape.marks script i)))
    (hs : V.tape.Spells i (scriptTokens p script)) :
    ∀ d ∈ Stmt.listDefinitions (Stmt.markedList p V.tape.marks script i),
      V.Laid (n + 1) (Stmt.runAll invoke turns) d := by
  induction script generalizing i with
  | nil => exact fun d hd => absurd hd List.not_mem_nil
  | cons s rest ih =>
    obtain ⟨hs, hs'⟩ := Cursor.spells_append.mp hs
    intro d hd
    rcases List.mem_append.mp hd with hd | hd
    · exact s.laid h hknows.left hs d hd
    · exact ih hknows.right hs' d hd

theorem scriptTokens_apart (h : V.Follows p n invoke turns) (script : List (Stmt Unit))
    (hs : V.tape.Spells i (scriptTokens p script))
    (hend : V.tape.At (i + (scriptTokens p script).length) .endOfInput) : V.Apart i := by
  cases script with
  | nil => exact ⟨_, hend, rfl⟩
  | cons s rest =>
    obtain ⟨hs, _⟩ := Cursor.spells_append.mp hs
    obtain ⟨t, ht, hopens⟩ := s.opens h hs
    exact ⟨t, ht, Token.not_branches_of_opens hopens⟩

/-- The statements that are left of a script, when the loop has turned `t` times. -/
theorem Stmt.runsScript (h : V.Follows p n invoke turns) (script : List (Stmt Unit)) {i t : Nat}
    {m : Machine} {w : World}
    (hknows : V.Knows (Stmt.listDefinitions (Stmt.markedList p V.tape.marks script i)))
    (hs : V.tape.Spells i (scriptTokens p script))
    (hend : V.tape.At (i + (scriptTokens p script).length) .endOfInput) (hagree : V.Agree i m w) :
    V.Sim (n + 1) (fun k => loop (Rules.within k).scriptTurn (k - t) ())
      ((Stmt.markedList p V.tape.marks script i).forM fun s => s.run invoke turns >>=
        Walk.outermost)
      (V.Same (i + (scriptTokens p script).length)) m w := by
  induction script generalizing i t m w with
  | nil =>
    refine View.Sim.turn ?_
    simp only [Rules.scriptTurn, bind_assoc]
    exact View.Sim.peek_bind hagree hend fun _ hagree => .pure ⟨rfl, hagree⟩
  | cons s rest ih =>
    obtain ⟨hs, hs'⟩ := Cursor.spells_append.mp hs
    have hlength : i + (scriptTokens p (s :: rest)).length =
        i + (s.tokens p).length + (scriptTokens p rest).length := by
      simp only [scriptTokens, List.flatMap_cons, List.length_append]
      omega
    rw [hlength] at hend ⊢
    obtain ⟨head, hhead, hopens⟩ := s.opens h hs
    have hrun := s.runs h hknows.left hs (scriptTokens_apart h rest hs' hend)
    refine View.Sim.turn ?_
    simp only [Rules.scriptTurn, bind_assoc]
    refine View.Sim.peek_bind hagree hhead fun _ hagree => ?_
    simp only [Token.not_isEnd_of_opens hopens, Bool.false_eq_true, if_false, bind_assoc]
    show V.Sim _ _ ((_ >>= Walk.outermost) >>= fun _ => _) _ _ _
    rw [bind_assoc]
    refine (hrun .execute hagree).bind fun {a b m₁ w₁} _ hended => ?_
    obtain rfl := hended.result.same
    cases a with
    | normal => exact ih hknows.right hs' hend (hended.at rfl)
    | broke _ | continued _ | returned _ _ => exact .of_fault rfl rfl hended.agree.fails

end
end Replay
