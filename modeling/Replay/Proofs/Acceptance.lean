import Replay.Proofs.Locations
import Replay.Proofs.Recognition.Rules
import Replay.Proofs.Skipping
/-!
The texts that are accepted.

A text whose pieces are all tokens is read by skipping one statement after the other until it is
over.  This goes through if the tokens are statements of the grammar one after the other, and it
ends with a parse error if they are not.
-/

namespace Replay

open Exec Grammar Computability

theorem Token.eq_of_isEnd {t : Token} (h : t.isEnd = true) : t = .endOfInput := by
  cases t with
  | endOfInput => rfl
  | _ => cases h

/-! ## Reading a whole text -/

namespace Interpreter

def skimTurn (fuel : Nat) (_ : Unit) : Exec (Turn Unit Unit) := do
  if (← peek).token.isEnd then return .stop ()
  else
    let _ ← step fuel .skip
    return .again ()

/-- Skips statements up to the end of the text. -/
def skim (fuel : Nat) : Exec Unit :=
  loop (skimTurn fuel) fuel ()

theorem skim_tied {L : Link} {n k : Nat} (h : n ≤ k) :
    L.Tied 0 (fun _ => True) (skim n) (skim k) := by
  refine .loop (I := fun _ => True) (fun _ _ => Link.Tied.peek.bind fun ahead _ => ?_) h trivial
  split
  · exact .pure trivial
  · exact (Rules.within_inStep L h).statement.bind fun _ _ => .pure trivial

theorem skim_halts (B : Nat) : Halts [] B (fun _ => 0) (skim (4 * B + 5)) := by
  refine Halts.loop (fun {b} _ hb => Halts.peek_bind fun ahead => ?_) (by omega) ()
  split
  · exact .pure rfl
  · exact ((Rules.within_halting _).statement (by omega)).bind fun _ _ => .pure rfl

/-- Reading a text comes to an end: all of it has been read, or there is a parse error. -/
theorem skim_scansOnly (source : String) (maxDepth : Nat) (out : Sink) :
    ScansOnly (fun _ => True) skim (Machine.start source maxDepth out) := by
  have hin : (Machine.start source maxDepth out).cursor.Inside := Nat.le_refl 0
  exact scansOnly_of_tied skim_tied hin ((skim_halts _).ends hin (Nat.le_refl _))

end Interpreter

/-! ## The end of a text -/

namespace Stream

variable {source : String}

theorem token_eq {i : Nat} (h : i < (tokens source).length) :
    token source i = ((tokens source)[i]).1 := by
  unfold token lexeme
  rw [List.getElem?_eq_getElem h]

theorem token_end : token source (tokens source).length = .endOfInput := by
  unfold token lexeme
  rw [List.getElem?_eq_none (Nat.le_refl _)]

theorem token_ne_end {i : Nat} (h : i < (tokens source).length) : token source i ≠ .endOfInput := by
  rw [token_eq h]
  exact tokens_ne_endOfInput (List.getElem_mem h)

theorem words_all : words source 0 (tokens source).length = (tokens source).map Prod.fst := by
  refine List.ext_getElem (by rw [length_words, List.length_map, Nat.sub_zero]) fun i hi hi' => ?_
  rw [List.length_map] at hi'
  rw [List.getElem_map, ← token_eq hi']
  simp only [words, List.getElem_map, List.getElem_range', Nat.one_mul, Nat.zero_add]

/-- A phrase that ends where the text is over does not go beyond it. -/
theorem eq_length_of_end {l : Language Token} (hl : Endless l) {j : Nat}
    (hspans : Spans source l 0 j)
    (hj : token source j = .endOfInput) : j = (tokens source).length := by
  by_contra hne
  by_cases hlt : j < (tokens source).length
  · exact token_ne_end hlt hj
  · have hmem : .endOfInput ∈ words source 0 j := by
      rw [words, ← token_end]
      exact List.mem_map_of_mem (List.mem_range'_1.mpr (by omega))
    exact hl _ hspans.2 hmem

end Stream

/-! ## Acceptance -/

namespace Interpreter

variable {source : String}

/-- What has been read is statements. -/
theorem skim_sound (fuel : Nat) :
    Goes source True 0 (fun _ j => Spans source Phrase.statement.language∗ 0 j ∧
      Stream.token source j = .endOfInput)
      (skim fuel) := by
  refine Goes.loop (J := fun _ k => Spans source Phrase.statement.language∗ 0 k)
    (fun _ k hspans => .peek_bind ?_) fuel
    (Spans.star_iff.mpr .refl)
  split
  · next hend => exact .pure ⟨hspans, Token.eq_of_isEnd hend⟩
  · refine ((Rules.within_recognising source fuel).statement.sound trivial).bind fun _ j
      ⟨_, hstatement⟩ => .pure ?_
    exact Spans.star_iff.mpr ((Spans.star_iff.mp hspans).tail hstatement)

/-- Statements up to the end of the text are read without an error. -/
theorem skim_complete (fuel : Nat)
    (h : Spans source Phrase.statement.language∗ 0 (Stream.tokens source).length) :
    Goes source False 0 (fun _ _ => True) (skim fuel) := by
  refine Goes.loop
    (J := fun _ k => Spans source Phrase.statement.language∗ k (Stream.tokens source).length)
    (fun _ k hspans => .peek_bind ?_) fuel h
  split
  · exact .pure trivial
  · next hend =>
    rcases (Spans.star_iff.mp hspans).cases_head with rfl | ⟨k', hstatement, hrest⟩
    · exact absurd (congrArg Token.isEnd Stream.token_end) hend
    · have hstop : (Stream.token source k').branches = false := by
        rcases hrest.cases_head with rfl | ⟨_, hnext, _⟩
        · rw [Stream.token_end]
          rfl
        · exact Token.not_branches_of_opens (Phrase.statement_opens hnext)
      refine ((Rules.within_recognising source fuel).statement.complete
        trivial hstatement hstop).bind
        fun _ j ⟨_, hj⟩ => .pure ?_
      subst hj
      exact Spans.star_iff.mpr hrest

/-- Reading a text by skipping its statements goes through if its tokens are statements one after
the other, and ends with a parse error if they are not. -/
theorem skim_accepts_iff (hclean : Stream.faults source = []) (maxDepth : Nat) (out : Sink) :
    ((∃ d, Converges skim (Machine.start source maxDepth out)
      (.done () ((Machine.start source maxDepth out).on d))) ↔
      (Stream.tokens source).map Prod.fst ∈ Phrase.statement.language∗) ∧
    ((∃ e d, Converges skim (Machine.start source maxDepth out)
        (.fault (.parse e) ((Machine.start source maxDepth out).on d))) ↔
      (Stream.tokens source).map Prod.fst ∉ Phrase.statement.language∗) := by
  have hstart := Machine.Before.start hclean maxDepth out
  have hdone : ∀ {m}, Converges skim (Machine.start source maxDepth out) (.done () m) →
      (Stream.tokens source).map Prod.fst ∈ Phrase.statement.language∗ := by
    intro m hrun
    obtain ⟨k, hk⟩ := hrun.exists_run
    have hreaches := skim_sound k _ hstart
    rw [hk] at hreaches
    obtain ⟨j, ⟨hspans, hj⟩, _⟩ := hreaches
    rw [Stream.eq_length_of_end (Endless.star (Phrase.language_endless _)) hspans hj] at hspans
    rw [← Stream.words_all]
    exact hspans.2
  have hfault : ∀ {e m}, Converges skim (Machine.start source maxDepth out) (.fault e m) →
      (Stream.tokens source).map Prod.fst ∉ Phrase.statement.language∗ := by
    intro e m hrun hmem
    obtain ⟨k, hk⟩ := hrun.exists_run
    rw [← Stream.words_all] at hmem
    have hreaches := skim_complete k ⟨Nat.zero_le _, hmem⟩ _ hstart
    rw [hk] at hreaches
    exact hreaches
  obtain ⟨d, ⟨_, _, hrun⟩ | ⟨e, hrun⟩⟩ := skim_scansOnly source maxDepth out
  · refine ⟨iff_of_true ⟨d, hrun⟩ (hdone hrun), ?_⟩
    refine iff_of_false (fun ⟨e, d', hother⟩ => hfault hother (hdone hrun))
      (not_not.mpr (hdone hrun))
  · refine ⟨iff_of_false (fun ⟨d', hother⟩ => hfault hrun (hdone hother)) (hfault hrun), ?_⟩
    exact iff_of_true ⟨e, d, hrun⟩ (hfault hrun)

/-- A loop whose condition is followed by a semicolon is accepted, and without the semicolon it is
not. -/
theorem skim_accepts_iff_doLoop :
    (Stream.faults "do \x7b x = a ? f(-1) : b; \x7d while (x);" = [] ∧
      (Stream.tokens "do \x7b x = a ? f(-1) : b; \x7d while (x);").map Prod.fst ∈
        Phrase.statement.language∗) ∧
    Stream.faults "do \x7b x = a ? f(-1) : b; \x7d while (x)" = [] ∧
      (Stream.tokens "do \x7b x = a ? f(-1) : b; \x7d while (x)").map Prod.fst ∉
        Phrase.statement.language∗ := by
  have hclean : Stream.faults "do \x7b x = a ? f(-1) : b; \x7d while (x);" = [] := by decide +kernel
  have hclean' : Stream.faults "do \x7b x = a ? f(-1) : b; \x7d while (x)" = [] := by decide +kernel
  have hrun : (skim 20
      (Machine.start "do \x7b x = a ? f(-1) : b; \x7d while (x);" 1 .unlimited)).result? =
        some (.ok ()) := by decide +kernel
  have hrun' : (skim 20
      (Machine.start "do \x7b x = a ? f(-1) : b; \x7d while (x)" 1 .unlimited)).result? =
        some (.error (.parse ⟨.expectedToken (.punct .semicolon) .endOfInput, ⟨1, 36⟩⟩)) := by
    decide +kernel
  obtain ⟨m, hm⟩ := Outcome.exists_of_result_ok hrun
  obtain ⟨m', hm'⟩ := Outcome.exists_of_result_error hrun'
  refine ⟨⟨hclean, ?_⟩, hclean', ?_⟩
  · by_contra hno
    obtain ⟨e, d, hfault⟩ := (skim_accepts_iff hclean 1 .unlimited).2.mpr hno
    have heq := hfault.eq_of_run (by rw [hm]; intro h; cases h)
    rw [hm] at heq
    cases heq
  · intro hyes
    obtain ⟨d, hdone⟩ := (skim_accepts_iff hclean' 1 .unlimited).1.mpr hyes
    have heq := hdone.eq_of_run (by rw [hm']; intro h; cases h)
    rw [hm'] at heq
    cases heq

end Interpreter

end Replay
