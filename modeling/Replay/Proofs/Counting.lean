import Replay.Proofs.Output
import Replay.Proofs.Pieces
import Replay.Proofs.TreeWalk
import Replay.Proofs.Walk.Environment
/-!
Counting to a number.

A `for` loop that counts to `n` passes through its body `n` times: the variable of the loop and the
counter in the body go up together, and the last comparison is with `n` itself, which still is an
integer if `n` is the largest one.  Behind the loop its variable is gone.
-/

namespace Replay

open ScopeTree (Environment maxSlots root)
open Walk.Leads

/-! ## The script -/

/-- Counts to `n` with `i`, and the passes with `count`. -/
def countingText (n : Nat) : String :=
  "var count = 0; for (var i = 0; i < " ++ toString n ++
  "; i = i + 1) \x7b count += 1; \x7d eval count;"

theorem Assignment.sign?_plain : plain.sign? = some .equals := rfl

theorem Assignment.sign?_add : (compound .add).sign? = some .plusEquals := rfl

section Tree

variable {κ : Type} (place : Nat → κ) (n : Int64)

def countingStart : Initializer κ :=
  .declare ⟨place 8, "i", some (.literal (place 10) (.integer 0))⟩ []

def countingTest : Condition κ :=
  ⟨place 12, .binary .less (place 13) (.read (place 12) "i") (.literal (place 14) (.integer n))⟩

def countingStep : Expr κ :=
  .assign (place 16) "i" (place 17) ⟨.plain, .equals, Assignment.sign?_plain⟩
    (.binary .add (place 19) (.read (place 18) "i") (.literal (place 20) (.integer 1)))

def countingBody : List (Stmt κ) :=
  [.expression
    (.assign (place 23) "count" (place 24) ⟨.compound .add, .plusEquals, Assignment.sign?_add⟩
    (.literal (place 25) (.integer 1)))]

/-- The script as a tree, with a mark for every token. -/
def countingScript : List (Stmt κ) :=
  [.declare ⟨place 1, "count", some (.literal (place 3) (.integer 0))⟩ [],
   .forLoop (countingStart place) (some (countingTest place n)) (some (countingStep place))
     (countingBody place),
   .eval (.read (place 29) "count")]

theorem countingScript_marked :
    Stmt.markedList .needed place (countingScript (fun _ => ()) n) 0 = countingScript place n := rfl

end Tree

def countingTokens (n : Int64) : List Token := scriptTokens .needed (countingScript (fun _ => ()) n)

theorem toList_around (front back : String) (n : Nat) :
    (front ++ toString n ++ back).toList = front.toList ++ (Nat.toDigits 10 n ++ back.toList) := by
  have hdigits : (toString n).toList = Nat.toDigits 10 n := Nat.toList_repr
  rw [String.toList_append, String.toList_append, hdigits, List.append_assoc]

/-- The text is read as the tokens of the tree. -/
theorem countingText_results {n : Nat} (h : n < 1 <<< 63) :
    (Lexer.ofSource (countingText n)).results = (countingTokens (Int64.ofNat n)).map .ok := by
  have hn : (Int64.ofNat n).toNatClampNeg = n := Int64.toNatClampNeg_ofNat_of_lt h
  have hnonneg : 0 ≤ Int64.ofNat n := by
    rw [Int64.le_iff_toInt_le, Int64.toInt_ofNat_of_lt h]
    exact Int.natCast_nonneg n
  -- Where the blank before the number ends depends on the number, so it is left to what follows.
  have hfront : ∀ rest m ws, ∃ m' ws',
      Lexer.pieces 24 ⟨"var count = 0; for (var i = 0; i < ".toList ++ rest, m, ws⟩ =
        some ((countingTokens (Int64.ofNat n)).take 14, ⟨' ' :: rest, m', ws'⟩) :=
          fun _ _ _ => ⟨_, _, rfl⟩
  have hback : ∀ m ws, ∃ m' ws',
      Lexer.pieces 28 ⟨"; i = i + 1) \x7b count += 1; \x7d eval count;".toList, m, ws⟩ =
        some ((countingTokens (Int64.ofNat n)).drop 15, ⟨[], m', ws'⟩) := fun _ _ => ⟨_, _, rfl⟩
  obtain ⟨behind, hbehind⟩ : ∃ behind, "; i = i + 1) \x7b count += 1; \x7d eval count;".toList =
      ';' :: behind :=
    ⟨_, rfl⟩
  obtain ⟨m₁, ws₁, hfront⟩ := hfront (Nat.toDigits 10 n ++ ';' :: behind) Mark.start []
  obtain ⟨m₂, hnumber⟩ :=
    Lexer.results_integer hnonneg (d := ';') (by decide) (by decide) (by decide) behind
    (m₁.along [' ']) ws₁
  obtain ⟨m₃, ws₃, hback⟩ := hback m₂ ws₁
  rw [hn] at hnumber
  rw [hbehind] at hback
  have htext : (countingText n).toList = _ := toList_around _ _ n
  rw [Lexer.ofSource, htext, hbehind, Lexer.results_of_pieces hfront,
    Lexer.results_blank (by decide), hnumber, Lexer.results_of_pieces hback, Lexer.results,
    Lexer.items_of_rest_nil rfl]
  rfl

/-! ## One pass -/

/-- A scope in which a name stands for `k`, and no other name is declared. -/
def tally (name : String) (k : Nat) : Bindings := ⟨[⟨name, some (.integer (Int64.ofNat k))⟩]⟩

theorem add_one_of_fits {k : Nat} (h : k + 1 < 1 <<< 63) :
    BinaryOperator.add.apply (.integer (Int64.ofNat k)) (.integer 1) =
      .ok (.integer (Int64.ofNat (k + 1))) := by
  have hk : (Int64.ofNat k).toInt = k := Int64.toInt_ofNat_of_lt (Nat.lt_of_succ_lt h)
  have hone : (1 : Int64).toInt = 1 := rfl
  have hmax : Int64.maxValue.toInt = 9223372036854775807 := rfl
  have hmin : Int64.minValue.toInt = -9223372036854775808 := rfl
  have hbound : (1 <<< 63 : Nat) = 9223372036854775808 := rfl
  have hfits : Int64.minValue.toInt ≤ (k : Int) + 1 ∧ (k : Int) + 1 ≤ Int64.maxValue.toInt := by
    omega
  show checked ((Int64.ofNat k).toInt + (1 : Int64).toInt) = _
  rw [checked, hk, hone, if_pos hfits]
  exact congrArg _ (congrArg _ Int64.ofInt_eq_ofNat)

theorem less_of_fits {k n : Nat} (hk : k < 1 <<< 63) (hn : n < 1 <<< 63) :
    BinaryOperator.less.apply (.integer (Int64.ofNat k)) (.integer (Int64.ofNat n)) =
      .ok (.boolean (decide (k < n))) := by
  have hiff : Int64.ofNat k < Int64.ofNat n ↔ k < n := by
    rw [Int64.lt_iff_toInt_lt, Int64.toInt_ofNat_of_lt hk, Int64.toInt_ofNat_of_lt hn]
    exact Int.ofNat_lt
  show Except.ok (Value.boolean (decide (Int64.ofNat k < Int64.ofNat n))) = _
  rw [decide_eq_decide.mpr hiff]

section Passes

variable {invoke : Invocation} {place : Nat → Place} {id init : ScopeId} {env : Environment}
  {k n turns : Nat}

theorem countingTest_leads (hk : k < 1 <<< 63) (hn : n < 1 <<< 63) {test : Bool}
    (h : decide (k < n) = test) :
    ((countingTest place (Int64.ofNat n)).holds invoke).Leads id ((id, tally "i" k) :: env) test
      ((id, tally "i" k) :: env) := by
  subst h
  exact holds (binary (read rfl) rfl (literal rfl) (less_of_fits hk hn))

theorem countingStep_leads (hk : k + 1 < 1 <<< 63) :
    (Walk.forStep invoke (some (countingStep place))).Leads id ((id, tally "i" k) :: env) ()
      ((id, tally "i" (k + 1)) :: env) :=
  .bind (assignPlain rfl (binary (read rfl) rfl (literal rfl) (add_one_of_fits hk)) rfl) (pure ())

theorem countingBody_leads (hk : k + 1 < 1 <<< 63) :
    (Stmt.runAll invoke turns (countingBody place)).Leads id
      [(id, tally "i" k), (init, tally "i" k), (root, tally "count" k)] .normal
      [(id, tally "i" k), (init, tally "i" k), (root, tally "count" (k + 1))] :=
  runAll_cons (expression (assignCompound rfl (literal rfl) rfl (add_one_of_fits hk))) runAll_nil

def countingPass (invoke : Invocation) (place : Nat → Place) (turns n : Nat) (init : ScopeId) :
    Walk Pass :=
  Walk.onCopies init
    (Walk.forPass (Walk.forHolds invoke (some (countingTest place (Int64.ofNat n))))
      (Walk.forStep invoke (some (countingStep place)))
      (Stmt.runAll invoke turns (countingBody place)))

def countingStage (init : ScopeId) (k : Nat) :
    Environment := [(init, tally "i" k), (root, tally "count" k)]

theorem countingPass_again (hk : k < n) (hn : n < 1 <<< 63) :
    (countingPass invoke place turns n init).Leads init (countingStage init k) .again
      (countingStage init (k + 1)) := by
  have hfits : k + 1 < 1 <<< 63 := Nat.lt_of_le_of_lt hk hn
  have hroom : 1 + 1 < maxSlots := by decide
  refine onCopies_again hroom fun child => ⟨tally "i" (k + 1), tally "i" k, ?_, ?_⟩
  · exact forPass_again (countingTest_leads (Nat.lt_of_succ_lt hfits) hn (decide_eq_true hk))
      (countingBody_leads hfits)
      (countingStep_leads hfits)
  -- The copy has been incremented, and the variable takes over its value.
  · rfl

theorem countingPass_exit (hn : n < 1 <<< 63) :
    (countingPass invoke place turns n init).Leads init (countingStage init n) .exit
      (countingStage init n) := by
  have hroom : 1 + 1 < maxSlots := by decide
  refine onCopies_exit hroom fun child => ⟨tally "i" n, ?_⟩
  exact forPass_exit (countingTest_leads hn hn (decide_eq_false (Nat.lt_irrefl n)))

/-- With turns to spare the loop makes `n` passes, and then its variable is gone. -/
theorem countingLoop_leads (hn : n < 1 <<< 63) (hturns : n < turns) :
    ((Stmt.forLoop (countingStart place) (some (countingTest place (Int64.ofNat n)))
      (some (countingStep place))
      (countingBody place)).run invoke turns).Leads root [(root, tally "count" 0)] .normal
      [(root, tally "count" n)] := by
  have hroom : 0 + 1 < maxSlots := by decide
  have hstart : ∀ init,
    ((countingStart place).run invoke).Leads init [(init, .empty), (root, tally "count" 0)] ()
      (countingStage init 0) := fun init => declareOne (literal rfl) rfl
  have hloop : ∀ init,
    (Walk.passes (countingPass invoke place turns n init) turns).Leads init (countingStage init 0)
      .normal (countingStage init n) := fun init =>
    passes (countingStage init) (fun k hk => countingPass_again hk hn) (countingPass_exit hn)
      (Nat.zero_le n) hturns
  rw [Stmt.run]
  exact currentScope.bind
    (withChild hroom fun init => ⟨tally "i" n, inScope ((hstart init).bind (hloop init))⟩)

end Passes

/-! ## The whole script -/

theorem text_ofNat {n : Nat} (h : n < 1 <<< 63) :
    (Value.integer (Int64.ofNat n)).text = toString n := by
  have hn : (Int64.ofNat n).toInt = n := Int64.toInt_ofNat_of_lt h
  show toString (Int64.ofNat n).toInt = toString n
  rw [hn]
  rfl

/-- The walk ends in the global scope, where `count` stands for `n`, and has written that. -/
theorem countingScript_runs {n fuel : Nat} (hn : n < 1 <<< 63) (hfuel : n < fuel)
    (place : Nat → Place) (maxDepth : Nat) {out : Sink}
    (hout : Sink.unlimited.write (toString n ++ "\n") = (.ok (), out)) :
    ∃ scopes, runScript fuel (countingScript place (Int64.ofNat n)) (.start maxDepth .unlimited) =
        some (.ok (), { World.start maxDepth out with scopes }) ∧
        scopes.Nested [(root, tally "count" n)] := by
  let invoke := invocation (Stmt.listDefinitions (countingScript place (Int64.ofNat n))) fuel
  let run (s : Stmt Place) : Walk Unit := s.run invoke fuel >>= Walk.outermost
  have hdeclare :
      (run (.declare ⟨place 1, "count", some (.literal (place 3) (.integer 0))⟩ [])).Leads root
        [(root, .empty)] () [(root, tally "count" 0)] :=
    outermost (declaration (declareOne (literal rfl) rfl))
  have hloop : (run (.forLoop (countingStart place) (some (countingTest place (Int64.ofNat n)))
      (some (countingStep place)) (countingBody place))).Leads root [(root, tally "count" 0)] ()
      [(root, tally "count" n)] := outermost (countingLoop_leads hn hfuel)
  obtain ⟨t₁, hdeclare, hn₁⟩ := hdeclare (.start maxDepth .unlimited) rfl ScopeTree.new_nested
  obtain ⟨t₂, hloop, hn₂⟩ := hloop { World.start maxDepth .unlimited with scopes := t₁ } rfl hn₁
  have hread : ((Expr.read (place 29) "count").eval invoke).Leads root [(root, tally "count" n)]
      (.integer (Int64.ofNat n)) [(root, tally "count" n)] := read rfl
  have hwrite : Sink.unlimited.write ((Value.integer (Int64.ofNat n)).text ++ "\n") =
      (.ok (), out) := by
    rw [text_ofNat hn, hout]
  obtain ⟨t₃, heval, hn₃⟩ : ∃ scopes, (Stmt.eval (.read (place 29) "count")).run invoke fuel
      { World.start maxDepth .unlimited with scopes := t₂ } =
        some (.ok .normal, { World.start maxDepth out with scopes }) ∧
        scopes.Nested [(root, tally "count" n)] :=
    eval hread hn₂ hwrite
  refine ⟨t₃, ?_, hn₃⟩
  show (run _ >>= fun _ => run _ >>= fun _ => run _ >>= fun _ => Pure.pure ())
    (.start maxDepth .unlimited) = _
  rw [Walk.bind_ok hdeclare, Walk.bind_ok hloop, Walk.bind_ok (Walk.bind_ok heval)]
  rfl

/-- The interpreter does what the walk does. -/
theorem countingText_converges {n : Nat} (hn : n < 1 <<< 63) (maxDepth : Nat) :
    ∃ (m : Machine) (t : ScopeTree),
      Converges Interpreter.run (.start (countingText n) maxDepth .unlimited) (.done () m) ∧
      m.Sound ∧
      m.out.text = toString n ++ "\n" ∧ m.out.flushFails = false ∧ m.current = root ∧
      m.scopes.plain = t.plain ∧ t.Nested [(root, tally "count" n)] := by
  have hfill := Cursor.tokens_fill (c := Cursor.ofSource (countingText n)) (countingText_results hn)
  have htokens : countingTokens (Int64.ofNat n) ++ [.endOfInput] <+:
      ((Cursor.ofSource (countingText n)).fill
        ((countingTokens (Int64.ofNat n)).length + 1)).cache.toList.map
        Lexeme.token := ⟨[], by rw [hfill, List.append_nil]; rfl⟩
  obtain ⟨out, hout, htext, hflush⟩ := Sink.write_unlimited (toString n ++ "\n")
  have hsim :=
    run_sim Parens.needed_suffices (Cursor.fill_grown _ _) (Cursor.spells_of_drop htokens)
      rfl maxDepth
    .unlimited (n + 1)
  rw [countingScript_marked] at hsim
  obtain ⟨t, hrun, hnested⟩ := countingScript_runs hn (Nat.lt_succ_self n) _ maxDepth hout
  obtain ⟨_, m, hconverges, _, hsame⟩ := hsim.done hrun
  have hagree := hsame.agree
  exact ⟨m, t, hconverges, hagree.sound, by rw [hagree.out]; exact htext,
    by rw [hagree.out]; exact hflush, hagree.current, hagree.scopes, hnested⟩

/-- A loop that counts to `n` makes exactly `n` passes, whatever integer `n` is, the largest one
included.  With enough fuel the script prints `n`, and with less there is no result.  After the run
only the global scope is left, and the variable of the loop is not declared there. -/
theorem counted_loop_runs_exactly (n : Nat) (hn : n < 1 <<< 63) :
    (∀ fuel, Script.output fuel (countingText n) = none ∨
      Script.output fuel (countingText n) = some (.ok (toString n ++ "\n"))) ∧
    (∃ bound, ∀ fuel, bound ≤ fuel →
      Script.output fuel (countingText n) = some (.ok (toString n ++ "\n"))) ∧
    ∀ maxDepth, ∃ m,
      Converges Interpreter.run (.start (countingText n) maxDepth .unlimited) (.done () m) ∧
      m.out.text = toString n ++ "\n" ∧ m.scopes.live = 1 ∧
      (∀ id, m.scopes.contains id = true ↔ id = root) ∧
      m.current = root ∧ m.scopes.lookup root "i" = .ok none ∧
      m.scopes.lookup root "count" = .ok (some ⟨"count", some (.integer (Int64.ofNat n))⟩) := by
  obtain ⟨m₀, _, hrun, hsound, htext, hflush, _⟩ :=
    countingText_converges hn CallStack.defaultMaxDepth
  refine ⟨fun fuel => ?_, ?_, fun maxDepth => ?_⟩
  · rcases hrun.only fuel with hspent | hdone
    · exact .inl (Script.output_of_outOfFuel hspent)
    · exact .inr (htext ▸ Script.output_of_done hdone hsound hflush)
  · obtain ⟨bound, hbound⟩ := hrun.enough
    exact ⟨bound, fun fuel hle => htext ▸ Script.output_of_done (hbound fuel hle) hsound hflush⟩
  · obtain ⟨m, t, hrun, hsound, htext, _, hcurrent, hplain, hnested⟩ :=
      countingText_converges hn maxDepth
    have hlive : m.scopes.live = t.live := by
      show m.scopes.plain.live = t.plain.live
      rw [hplain]
    have hcontains : ∀ id, m.scopes.contains id = t.contains id := fun id => by
      rw [← ScopeTree.contains_plain, hplain, ScopeTree.contains_plain]
    have hlookup : ∀ name,
        m.scopes.lookup root name = .ok (Environment.find? [(root, tally "count" n)] name) :=
      fun name => by rw [← ScopeTree.lookup_plain, hplain, ScopeTree.lookup_plain, hnested.lookup]
    refine ⟨m, hrun, htext, hlive.trans hnested.live, fun id => ⟨fun hid => ?_, fun hid => ?_⟩,
      hcurrent, hlookup "i", hlookup "count"⟩
    · exact List.mem_singleton.mp (hnested.only id (hcontains id ▸ hid))
    · rw [hid]
      exact hsound.connected.contains_root

theorem counted_loop_runs_exactly_largest :
    9223372036854775807 < 1 <<< 63 ∧
      ∃ fuel, Script.output fuel (countingText 9223372036854775807) =
        some (.ok "9223372036854775807\n") := by
  have hfits : 9223372036854775807 < 1 <<< 63 := by decide
  have htext : toString 9223372036854775807 ++ "\n" = "9223372036854775807\n" := by decide +kernel
  obtain ⟨_, ⟨bound, hbound⟩, _⟩ := counted_loop_runs_exactly 9223372036854775807 hfits
  exact ⟨hfits, bound, htext ▸ hbound bound (Nat.le_refl bound)⟩

end Replay
