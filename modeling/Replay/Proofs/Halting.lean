import Replay.Proofs.Lockstep.Rules
import Replay.Proofs.Stream
/-!
Skipping comes to an end, and it does so within the text.

Behind the last token the end of the text is found over and over again, and nothing keeps a cursor
from going on there.  The rules that skip do not: what they skip ends with a token of the text, and
only a rule that runs into the end while it needs a token reads it, once, and that is an error.  So
a rule that skips is done, or has failed, before it has called other rules more often than there are
tokens left.  From one token to the next the rules call each other at most four levels deep.
-/

namespace Replay

open Exec

/-! ## What is left of the text -/

namespace Cursor

def counts (l : Lexeme) : Bool := !l.token.isEnd

theorem counts_of_eq {l : Lexeme} {t : Token} (h : l.token = t) (ht : t.isEnd = false) :
    counts l = true := by
  rw [counts, h, ht]
  rfl

theorem counts_of_test (test : Token → Bool) {l : Lexeme} (h : test l.token = true)
    (hend : test .endOfInput = false) : counts l = true := by
  cases hl : l.token with
  | endOfInput =>
    rw [hl, hend] at h
    cases h
  | _ => exact counts_of_eq hl rfl

/-- How many tokens there may be from the position `p` on, without the end of the text: those that
are known, and one for every character that has not been read. -/
def leftFrom (c : Cursor) (p : Nat) : Nat :=
  (c.cache.toList.drop p).countP counts + c.lexer.rest.length

def left (c : Cursor) : Nat := c.leftFrom c.position

@[simp] theorem leftFrom_place (c : Cursor) (p q : Nat) :
    (c.place p).leftFrom q = c.leftFrom q := rfl

@[simp] theorem left_place (c : Cursor) (p : Nat) : (c.place p).left = c.leftFrom p := rfl

theorem leftFrom_eq_succ {c : Cursor} {p : Nat} {l : Lexeme} (h : c.cache[p]? = some l)
    (hl : counts l = true) : c.leftFrom p = c.leftFrom (p + 1) + 1 := by
  rw [← Array.getElem?_toList] at h
  obtain ⟨hp, rfl⟩ := List.getElem?_eq_some_iff.mp h
  unfold leftFrom
  rw [List.drop_eq_getElem_cons hp, List.countP_cons, if_pos hl]
  omega

/-- Reading a token that counts takes a character at least. -/
theorem readOne_left {c d : Cursor} {l : Lexeme} (h : c.readOne = (.ok l, d)) :
    (if counts l then 1 else 0) + d.lexer.rest.length ≤ c.lexer.rest.length := by
  cases readsOne h with
  | ended hn hl =>
    have hle := Lexer.length_rest_le_of_next hn
    simpa [hl, counts, Token.isEnd] using hle
  | token hn _ _ =>
    have hlt := Lexer.length_rest_lt_of_next hn
    split <;> simp only <;> omega

theorem leftFrom_grown {c d : Cursor} (h : c.Grown d) {p : Nat} (hp : p ≤ c.cache.size) :
    d.leftFrom p ≤ c.leftFrom p := by
  induction h with
  | same c q => exact Nat.le_refl _
  | @more c c₁ d l hr hg ih =>
    have hcache := (readOne_ok hr).1
    have hleft := readOne_left hr
    have hsize : p ≤ c₁.cache.size := by
      rw [hcache, Array.size_push]
      omega
    have hstep : c₁.leftFrom p ≤ c.leftFrom p := by
      unfold leftFrom
      rw [hcache, Array.toList_push, List.drop_append_of_le_length (by simpa using hp),
        List.countP_append, List.countP_singleton]
      omega
    exact Nat.le_trans (ih hsize) hstep

/-! ## What has been read -/

/-- The cursor `d` has come from `c`: it knows all that `c` knows, and follows the same text. -/
structure Leads (c d : Cursor) : Prop where
  cache_le : c.cache.toList <+: d.cache.toList
  tracks : ∀ {source reported}, Tracks source reported c → ∃ reported', Tracks source reported' d

theorem Leads.refl (c : Cursor) : c.Leads c := ⟨List.prefix_refl _, fun h => ⟨_, h⟩⟩

theorem Leads.trans {c d e : Cursor} (h : c.Leads d) (h' : d.Leads e) : c.Leads e where
  cache_le := h.cache_le.trans h'.cache_le
  tracks ht := by
    obtain ⟨_, hd⟩ := h.tracks ht
    exact h'.tracks hd

theorem Leads.placed {c d : Cursor} (h : c.Leads d) {p : Nat} (hp : p ≤ d.cache.size) :
    c.Leads (d.place p) where
  cache_le := h.cache_le
  tracks ht := by
    obtain ⟨reported, hd⟩ := h.tracks ht
    exact ⟨reported, hd.placed hp⟩

theorem leads_peek_ok {c d : Cursor} {l : Lexeme} (hc : c.Inside) (h : c.peek = (.ok l, d)) :
    c.Leads d where
  cache_le := (peek_ok hc h).1.cache_le
  tracks ht := ⟨_, (ht.peek_ok h).2.2.2⟩

theorem leads_peek_error {c d : Cursor} {e : ParseError} (hc : c.Inside)
    (h : c.peek = (.error e, d)) : c.Leads d where
  cache_le := by
    have hcache : d.cache = c.cache := (readOne_error (peek_error hc h).2).1
    exact hcache ▸ List.prefix_refl _
  tracks ht := ⟨_, (ht.peek_error h).2.2.2⟩

/-- The tokens from `start` up to `stop` are known, and none of them is the end of the text. -/
def Passed (c : Cursor) (start stop : Nat) : Prop :=
  ∀ i, start ≤ i → i < stop → ∃ l, c.cache[i]? = some l ∧ counts l = true

theorem passed_of_le (c : Cursor) {start stop : Nat} (h : stop ≤ start) : c.Passed start stop :=
  fun _ hstart hstop => absurd (Nat.lt_of_le_of_lt hstart hstop) (Nat.not_lt_of_le h)

theorem Passed.trans {c d : Cursor} {start p stop : Nat} (h : c.Passed start p)
    (hle : c.cache.toList <+: d.cache.toList) (h' : d.Passed p stop) : d.Passed start stop := by
  intro i hstart hstop
  by_cases hp : i < p
  · obtain ⟨l, hl, hcounts⟩ := h i hstart hp
    rw [← getElem?_of_cache_le hle (Array.getElem?_eq_some_iff.mp hl).1] at hl
    exact ⟨l, hl, hcounts⟩
  · exact h' i (by omega) hstop

/-- The tokens in `seen`, the last one first, have been read since the cursor was at `start`.  Only
the last one may be the end of the text. -/
def Trail (c : Cursor) (start : Nat) : List Lexeme → Prop
  | [] => c.position = start
  | l :: seen => (∀ l ∈ seen, counts l = true) ∧ c.position = start + seen.length + 1 ∧
      c.cache[start + seen.length]? = some l ∧ (c.place (start + seen.length)).Trail start seen

namespace Trail

variable {c d : Cursor} {start : Nat} {seen : List Lexeme}

theorem position_eq (h : c.Trail start seen) : c.position = start + seen.length := by
  cases seen with
  | nil => exact h
  | cons l seen => exact h.2.1

theorem start_le (h : c.Trail start seen) (hc : c.Inside) : start ≤ c.cache.size := by
  have hpos := h.position_eq
  unfold Inside at hc
  omega

theorem left_eq (h : c.Trail start seen) (hseen : ∀ l ∈ seen, counts l = true) :
    c.left + seen.length = c.leftFrom start := by
  induction seen generalizing c with
  | nil =>
    rw [left, h.position_eq]
    rfl
  | cons l seen ih =>
    obtain ⟨hcount, hpos, hl, hrest⟩ := h
    have hbefore := ih hrest hcount
    have hstep := leftFrom_eq_succ hl (hseen l List.mem_cons_self)
    rw [left_place, leftFrom_place] at hbefore
    rw [List.length_cons, left, hpos]
    omega

theorem passed (h : c.Trail start seen) (hseen : ∀ l ∈ seen, counts l = true) :
    c.Passed start c.position := by
  induction seen generalizing c with
  | nil => exact c.passed_of_le (Nat.le_of_eq h)
  | cons l seen ih =>
    obtain ⟨hcount, hpos, hl, hrest⟩ := h
    intro i hstart hstop
    by_cases hlast : i = start + seen.length
    · subst hlast
      exact ⟨l, hl, hseen l List.mem_cons_self⟩
    · exact ih hrest hcount i hstart (show i < start + seen.length by omega)

/-- The token that was read last is left out. -/
theorem passed_pred (h : c.Trail start seen) : c.Passed start (c.position - 1) := by
  cases seen with
  | nil => exact c.passed_of_le (Nat.le_trans (Nat.sub_le _ _) (Nat.le_of_eq h))
  | cons l seen =>
    obtain ⟨hcount, hpos, _, hrest⟩ := h
    rw [hpos]
    exact hrest.passed hcount

/-- Reading on does not change what was read. -/
theorem grown (h : c.Trail start seen) (hc : c.Inside) (hle : c.cache.toList <+: d.cache.toList)
    (hpos : d.position = c.position) : d.Trail start seen := by
  induction seen generalizing c d with
  | nil => exact hpos.trans h
  | cons l seen ih =>
    obtain ⟨hcount, hposition, hl, hrest⟩ := h
    have hlt := (Array.getElem?_eq_some_iff.mp hl).1
    refine ⟨hcount, hpos.trans hposition, ?_, ih hrest (Nat.le_of_lt hlt) hle rfl⟩
    rw [getElem?_of_cache_le hle hlt, hl]

/-- Reading one more token. -/
theorem read {l : Lexeme} (h : c.Trail start seen) (hseen : ∀ l ∈ seen, counts l = true)
    (hc : c.Inside) (hp : c.peek = (.ok l, d)) :
    (d.place (c.position + 1)).Trail start (l :: seen) := by
  obtain ⟨hg, hpos, hlt⟩ := peek_ok hc hp
  have hl := peek_getElem? hc hp
  have hposition := h.position_eq
  refine ⟨hseen, congrArg Nat.succ hposition, hposition ▸ hl, ?_⟩
  exact h.grown hc hg.cache_le hposition.symm

end Trail
end Cursor

/-! ## Computations that come to an end -/

variable {α β σ : Type} {seen : List Lexeme} {B : Nat} {cost : α → Nat} {cost' : β → Nat}

/-- What comes of a computation on a cursor `c` that has had its start at `start`.  A result `a` has
used up `cost a` tokens at least, and none of those that were read is the end of the text.  If there
is an error the last one may be. -/
def Outcome.Within (c : Cursor) (start : Nat) (cost : α → Nat) : Outcome α → Prop
  | done a m => c.Leads m.cursor ∧ m.cursor.Inside ∧ m.cursor.Passed start m.cursor.position ∧
      start + cost a ≤ m.cursor.position ∧ m.cursor.left + cost a ≤ c.leftFrom start
  | fault _ m => c.Leads m.cursor ∧ m.cursor.Passed start (m.cursor.position - 1)
  | outOfFuel => False

/-- With `n` tokens read up to `p`, the rest is up to what comes then. -/
theorem Outcome.Within.after {c d : Cursor} {start p n : Nat} {o : Outcome α}
    (h : o.Within d p (fun a => cost a - n)) (hleads : c.Leads d) (hpassed : d.Passed start p)
    (hpos : start + n ≤ p) (hleft : d.leftFrom p + n ≤ c.leftFrom start) :
    o.Within c start cost := by
  cases o with
  | done a m =>
    obtain ⟨hleads', hin, hpassed', hpos', hleft'⟩ := h
    dsimp only at hpos' hleft'
    exact ⟨hleads.trans hleads', hin, hpassed.trans hleads'.cache_le hpassed', by omega, by omega⟩
  | fault e m =>
    obtain ⟨hleads', hpassed'⟩ := h
    exact ⟨hleads.trans hleads', hpassed.trans hleads'.cache_le hpassed'⟩
  | outOfFuel => exact h

theorem Outcome.Within.of_leads {c d : Cursor} {start : Nat} {o : Outcome α}
    (h : o.Within d start cost) (hleads : c.Leads d) (hleft : d.leftFrom start ≤ c.leftFrom start) :
    o.Within c start cost :=
  Within.after (n := 0) h hleads (d.passed_of_le (Nat.le_refl start)) (Nat.le_refl start) hleft

/-- With at most `B` tokens left when the first of the tokens in `seen` was read, `x` comes to an
end within the text. -/
structure Halts (seen : List Lexeme) (B : Nat) (cost : α → Nat) (x : Exec α) : Prop where
  run : ∀ {m start}, m.cursor.Inside → m.cursor.Trail start seen → m.cursor.leftFrom start ≤ B →
    (x m).Within m.cursor start cost

namespace Halts

variable {x : Exec α} {f : α → Exec β} {m : Machine} {start : Nat}

theorem ends (h : Halts [] B cost x) (hin : m.cursor.Inside) (hB : m.cursor.left ≤ B) :
    x m ≠ .outOfFuel := by
  intro hx
  have hrun := h.run hin rfl hB
  rw [hx] at hrun
  exact hrun

theorem pure {a : α} (h : cost a = 0) : Halts [] B cost (pure a) where
  run {m start} hin htrail _ := by
    cases htrail
    refine ⟨.refl _, hin, Cursor.passed_of_le _ (Nat.le_refl _), ?_, ?_⟩
    · exact Nat.le_of_eq (congrArg _ h)
    · exact Nat.le_of_eq (congrArg _ h)

theorem failParse (cause : ParseCause) (location : Location) :
    Halts seen B cost (failParse cause location) where
  run _ htrail _ := ⟨.refl _, htrail.passed_pred⟩

theorem expectedToken (expected : Expectation) (found : Lexeme) :
    Halts seen B cost (expectedToken expected found) :=
  failParse _ _

theorem mono {B' : Nat} {lower : α → Nat} (h : Halts seen B cost x) (hB' : B' ≤ B)
    (hle : ∀ a, lower a ≤ cost a) : Halts seen B' lower x where
  run {m start} hin htrail hB := by
    have hrun := h.run hin htrail (Nat.le_trans hB hB')
    generalize x m = o at hrun ⊢
    cases o with
    | done a m' =>
      obtain ⟨hleads, hin', hpassed, hpos, hleft⟩ := hrun
      have hcost := hle a
      exact ⟨hleads, hin', hpassed, by omega, by omega⟩
    | fault e m' => exact hrun
    | outOfFuel => exact hrun

theorem free (h : Halts seen B cost x) : Halts seen B (fun _ => 0) x :=
  h.mono (Nat.le_refl B) fun _ => Nat.zero_le _

/-- A sequence, if there is something known about the result of its first part. -/
theorem bind_of {Q : α → Prop} (hx : Halts seen B cost x)
    (hQ : ∀ {m a m'}, m.cursor.Inside → x m = .done a m' → Q a)
    (hf : ∀ a, Q a → cost a ≤ B → Halts [] (B - cost a) (fun b => cost' b - cost a) (f a)) :
    Halts seen B cost' (x >>= f) where
  run {m start} hin htrail hB := by
    have hrun := hx.run hin htrail hB
    cases hxm : x m with
    | done a m₁ =>
      rw [hxm] at hrun
      obtain ⟨hleads, hin₁, hpassed, hpos, hleft⟩ := hrun
      have hrest := (hf a (hQ hin hxm) (by omega)).run hin₁ rfl
        (show m₁.cursor.left ≤ _ by omega)
      rw [bind_done hxm]
      exact hrest.after hleads hpassed hpos hleft
    | fault e m₁ =>
      rw [hxm] at hrun
      rw [bind_fault hxm]
      exact hrun
    | outOfFuel =>
      rw [hxm] at hrun
      exact hrun.elim

theorem bind (hx : Halts seen B cost x)
    (hf : ∀ a, cost a ≤ B → Halts [] (B - cost a) (fun b => cost' b - cost a) (f a)) :
    Halts seen B cost' (x >>= f) :=
  hx.bind_of (Q := fun _ => True) (fun _ _ => trivial) fun a _ => hf a

/-- Where `x` does not have to use up anything. -/
theorem bind_free (hx : Halts seen B cost x) (hf : ∀ a, Halts [] B cost' (f a)) :
    Halts seen B cost' (x >>= f) :=
  hx.bind fun a _ => (hf a).mono (Nat.sub_le _ _) fun _ => Nat.sub_le _ _

/-- Where `x` uses up all that has to be used up. -/
theorem bind_used (hx : Halts seen B (fun _ => 1) x)
    (hf : ∀ a, 1 ≤ B → Halts [] (B - 1) (fun _ => 0) (f a)) :
    Halts seen B (fun _ => 1) (x >>= f) :=
  hx.bind fun a hB => hf a hB

/-- The tokens that were read are used up. -/
theorem forget (hseen : ∀ l ∈ seen, Cursor.counts l = true)
    (h : seen.length ≤ B → Halts [] (B - seen.length) (fun a => cost a - seen.length) x) :
    Halts seen B cost x where
  run {m start} hin htrail hB := by
    have hleft := htrail.left_eq hseen
    have hrest := (h (by omega)).run hin rfl (show m.cursor.left ≤ _ by omega)
    exact hrest.after (.refl _) (htrail.passed hseen) (Nat.le_of_eq htrail.position_eq.symm)
      (Nat.le_of_eq hleft)

theorem forget_one {l : Lexeme} (hl : Cursor.counts l = true)
    (h : 1 ≤ B → Halts [] (B - 1) (fun a => cost a - 1) x) : Halts [l] B cost x :=
  forget (List.forall_mem_singleton.mpr hl) h

theorem forget_two {l l' : Lexeme} (hl : Cursor.counts l = true) (hl' : Cursor.counts l' = true)
    (h : 2 ≤ B → Halts [] (B - 2) (fun a => cost a - 2) x) : Halts [l', l] B cost x :=
  forget (List.forall_mem_cons.mpr ⟨hl', List.forall_mem_singleton.mpr hl⟩) h

/-! ## Tokens -/

/-- Going on with the token `l` ahead, which has been looked at. -/
theorem run_ahead {l : Lexeme} {c : Cursor} (h : Halts seen B cost x) (hin : m.cursor.Inside)
    (htrail : m.cursor.Trail start seen) (hB : m.cursor.leftFrom start ≤ B)
    (hp : m.cursor.peek = (.ok l, c)) : (x (m.on c)).Within m.cursor start cost := by
  obtain ⟨hg, hpos, hlt⟩ := Cursor.peek_ok hin hp
  have hle := Cursor.leftFrom_grown hg (htrail.start_le hin)
  have hrun := h.run (m := m.on c) (show c.Inside from Nat.le_of_lt (hpos ▸ hlt))
    (htrail.grown hin hg.cache_le hpos) (Nat.le_trans hle hB)
  exact hrun.of_leads (Cursor.leads_peek_ok hin hp) hle

/-- Going on behind the token `l`, which has been read. -/
theorem run_behind {l : Lexeme} {c : Cursor} (h : Halts (l :: seen) B cost x)
    (hseen : ∀ l ∈ seen, Cursor.counts l = true) (hin : m.cursor.Inside)
    (htrail : m.cursor.Trail start seen) (hB : m.cursor.leftFrom start ≤ B)
    (hp : m.cursor.peek = (.ok l, c)) :
    (x (m.on (c.place (m.cursor.position + 1)))).Within m.cursor start cost := by
  obtain ⟨hg, _, hlt⟩ := Cursor.peek_ok hin hp
  have hle := Cursor.leftFrom_grown hg (htrail.start_le hin)
  have hrun := h.run (m := m.on (c.place (m.cursor.position + 1))) hlt
    (htrail.read hseen hin hp) (Nat.le_trans hle hB)
  exact hrun.of_leads ((Cursor.leads_peek_ok hin hp).placed hlt) hle

/-- Where there is no token but something to report. -/
theorem run_reported {e : ParseError} {c : Cursor} (hin : m.cursor.Inside)
    (htrail : m.cursor.Trail start seen) (hp : m.cursor.peek = (.error e, c)) :
    (Outcome.fault (.parse e) (m.on c)).Within m.cursor start cost := by
  obtain ⟨hcache, hpos, _⟩ := Cursor.readOne_error (Cursor.peek_error hin hp).2
  have hpassed := htrail.passed_pred
  refine ⟨Cursor.leads_peek_error hin hp, ?_⟩
  rw [Machine.on_cursor, hpos, Cursor.Passed, hcache]
  exact hpassed

theorem peek_bind {f : Lexeme → Exec β} (hf : ∀ l, Halts seen B cost' (f l)) :
    Halts seen B cost' (peek >>= f) where
  run {m start} hin htrail hB := by
    rcases peek_run m with ⟨l, c, hp, hrun⟩ | ⟨e, c, hp, hrun⟩
    · rw [bind_done hrun]
      exact (hf l).run_ahead hin htrail hB hp
    · rw [bind_fault hrun]
      exact run_reported hin htrail hp

theorem next_seen {f : Lexeme → Exec β} (hseen : ∀ l ∈ seen, Cursor.counts l = true)
    (hf : ∀ l, Halts (l :: seen) B cost' (f l)) : Halts seen B cost' (next >>= f) where
  run {m start} hin htrail hB := by
    rcases next_run m with ⟨l, c, hp, hrun⟩ | ⟨e, c, hp, hrun⟩
    · rw [bind_done hrun]
      exact (hf l).run_behind hseen hin htrail hB hp
    · rw [bind_fault hrun]
      exact run_reported hin htrail hp

theorem next_bind {f : Lexeme → Exec β} (hf : ∀ l, Halts [l] B cost' (f l)) :
    Halts [] B cost' (next >>= f) :=
  next_seen (fun _ hmem => absurd hmem List.not_mem_nil) hf

/-- What is read after looking at a token is that token. -/
theorem peek_next {f : Lexeme → Exec β} (hf : ∀ l, Halts [] B cost' (f l) ∨
      ∃ g, f l = (next >>= g) ∧ Halts [l] B cost' (g l)) : Halts [] B cost' (peek >>= f) where
  run {m start} hin htrail hB := by
    rcases peek_run m with ⟨l, c, hp, hrun⟩ | ⟨e, c, hp, hrun⟩
    · rcases hf l with hl | ⟨g, hg, hl⟩
      · rw [bind_done hrun]
        exact hl.run_ahead hin htrail hB hp
      · have hpos := (Cursor.peek_ok hin hp).2.1
        have hcached : c.cache[c.position]? = some l := hpos ▸ Cursor.peek_getElem? hin hp
        have hnext := next_run_ok (m := m.on c) (Cursor.peek_cached hcached)
        rw [Machine.on_cursor, hpos] at hnext
        rw [bind_done hrun, hg, bind_done hnext]
        exact hl.run_behind (fun _ hmem => absurd hmem List.not_mem_nil) hin htrail hB hp
    · rw [bind_fault hrun]
      exact run_reported hin htrail hp

theorem rollback_bind {f : Unit → Exec β} {l : Lexeme} (hf : Halts seen B cost' (f ())) :
    Halts (l :: seen) B cost' (rollback >>= f) where
  run {m start} hin htrail hB := by
    obtain ⟨_, hpos, hl, hrest⟩ := htrail
    have hin' := Nat.le_of_lt (Array.getElem?_eq_some_iff.mp hl).1
    rw [bind_done (rollback_run (hpos ▸ Nat.succ_pos _)), hpos]
    have hrun := hf.run (m := m.on (m.cursor.place (start + seen.length))) hin' hrest hB
    exact hrun.of_leads ((Cursor.Leads.refl _).placed hin') (Nat.le_refl _)

theorem position_bind {f : Nat → Exec β} (hf : ∀ p, Halts seen B cost' (f p)) :
    Halts seen B cost' (position >>= f) where
  run hin htrail hB := (hf _).run hin htrail hB

/-! ## Loops -/

end Halts

/-- A turn that is followed by another one has to use up a token. -/
def Turn.toll (cost' : β → Nat) : Turn σ β → Nat
  | again _ => 1
  | stop b => cost' b

namespace Halts

/-- A loop, if there is something known about the state it goes on with. -/
theorem loop_of {body : σ → Exec (Turn σ β)} {I : σ → Prop}
    (h : ∀ {b} s, I s → b ≤ B → Halts [] b (Turn.toll cost') (body s))
    (hI : ∀ {s m t m'}, I s → m.cursor.Inside → body s m = .done t m' →
      Turn.All I (fun _ => True) t)
    {fuel : Nat} (hfuel : B < fuel) {s : σ} (hs : I s) :
    Halts [] B cost' (Exec.loop body fuel s) := by
  induction fuel generalizing B s with
  | zero => exact absurd hfuel (Nat.not_lt_zero B)
  | succ fuel ih =>
    rw [loop_succ]
    refine (h s hs (Nat.le_refl B)).bind_of (hI hs) fun turn hturn hB => ?_
    cases turn with
    | again s' =>
      change 1 ≤ B at hB
      have hrest := ih (B := B - 1) (fun s hs hb => h s hs (by omega)) (by omega) hturn
      exact hrest.mono (Nat.le_refl _) fun b => Nat.sub_le _ _
    | stop b => exact .pure (Nat.sub_self _)

theorem loop {body : σ → Exec (Turn σ β)}
    (h : ∀ {b} s, b ≤ B → Halts [] b (Turn.toll cost') (body s)) {fuel : Nat} (hfuel : B < fuel)
    (s : σ) : Halts [] B cost' (Exec.loop body fuel s) :=
  loop_of (I := fun _ => True) (fun s _ hb => h s hb)
    (fun {_ _ t _} _ _ _ => by cases t <;> trivial) hfuel trivial

/-! ## Reading what the grammar asks for -/

theorem peekIs_bind {f : Bool → Exec β} {p : Punct} (hf : ∀ b, Halts seen B cost' (f b)) :
    Halts seen B cost' (peekIs p >>= f) := by
  unfold peekIs
  rw [bind_assoc]
  exact peek_bind fun l => hf _

/-- A token of the grammar that is ahead is read. -/
theorem peekIs_next {f : Bool → Exec β} {g : Lexeme → Exec β} {p : Punct}
    (hfalse : Halts [] B cost' (f false)) (htrue : f true = (next >>= g))
    (hg : ∀ l, 1 ≤ B → Halts [] (B - 1) (fun b => cost' b - 1) (g l)) :
    Halts [] B cost' (peekIs p >>= f) := by
  unfold peekIs
  rw [bind_assoc]
  refine peek_next fun l => ?_
  cases hl : l.token.isPunct p with
  | false => exact .inl (hl ▸ hfalse)
  | true =>
    have hcounts := Cursor.counts_of_test (·.isPunct p) hl rfl
    exact .inr ⟨g, hl ▸ htrue, forget_one hcounts (hg l)⟩

theorem expect (p : Punct) : Halts [] B (fun _ => 1) (expect p) := by
  refine next_bind fun l => ?_
  by_cases hl : l.token.isPunct p = true
  · rw [if_pos hl]
    exact forget_one (Cursor.counts_of_test (·.isPunct p) hl rfl) fun _ => .pure rfl
  · rw [if_neg hl]
    exact .expectedToken _ _

theorem expectKeyword (k : Keyword) : Halts [] B (fun _ => 1) (expectKeyword k) := by
  refine next_bind fun l => ?_
  by_cases hl : l.token.isKeyword k = true
  · rw [if_pos hl]
    exact forget_one (Cursor.counts_of_test (·.isKeyword k) hl rfl) fun _ => .pure rfl
  · rw [if_neg hl]
    exact .expectedToken _ _

theorem expectIdentifier : Halts [] B (fun _ => 1) expectIdentifier := by
  refine next_bind fun l => ?_
  split
  · next hl => exact forget_one (Cursor.counts_of_eq hl rfl) fun _ => .pure rfl
  · exact .expectedToken _ _

theorem listTurn {element : Exec α} (h : Halts [] B (fun _ => 1) element) (seen : List α) :
    Halts [] B (Turn.toll fun _ => 0) (listTurn element seen) := by
  refine h.bind fun a _ => next_bind fun l => ?_
  split
  · next hl => exact forget_one (Cursor.counts_of_eq hl rfl) fun _ => .pure rfl
  · next hl => exact forget_one (Cursor.counts_of_eq hl rfl) fun _ => .pure rfl
  · exact .expectedToken _ _

theorem closedList {element : Exec α} {fuel : Nat} (h : Halts [] B (fun _ => 1) element)
    (hfuel : B < fuel) : Halts [] B (fun _ => 0) (closedList fuel element) := by
  refine peekIs_next ?_ rfl fun _ _ => .pure rfl
  exact loop (fun seen hb => (h.mono hb fun _ => Nat.le_refl 1).listTurn seen) hfuel []

end Halts
end Replay
