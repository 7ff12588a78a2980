import Replay.Proofs.Growth
import Replay.Proofs.Lexer
/-!
The tokens of a text as a fixed stream.

A cursor reads when it is asked to, may be moved back and forth, and goes on after a piece that is
not a token.  None of this has an influence on what it finds: there is one stream of tokens for a
text, without an end, and one list of the pieces that are none, and a cursor shows a part of the
first and reports the second from the beginning.
-/

namespace Replay

/-! ## The stream -/

namespace Lexer

def Item.token? (item : Item) : Option (Token × Location) :=
  match item.result with
  | .ok token => some (token, item.start.location)
  | .error _ => none

def tokensOf (items : List Item) : List (Token × Location) := items.filterMap Item.token?

/-- The other items, each with the number of tokens before it; there are `n` before the first
item. -/
def faultsOf : Nat → List Item → List (Nat × ParseError)
  | _, [] => []
  | n, item :: items =>
    match item.result with
    | .ok _ => faultsOf (n + 1) items
    | .error fault => (n, Cursor.faultError item fault) :: faultsOf n items

theorem le_of_mem_faultsOf {n : Nat} {items : List Item} {f : Nat × ParseError}
    (h : f ∈ faultsOf n items) :
    n ≤ f.1 := by
  fun_induction faultsOf n items with
  | case1 n => cases h
  | case2 n item items token hitem ih =>
    have hle := ih h
    omega
  | case3 n item items fault hitem ih =>
    rcases List.mem_cons.mp h with rfl | h
    · exact Nat.le_refl _
    · exact ih h

end Lexer

namespace Stream

def items (source : String) : List Lexer.Item := (Lexer.ofSource source).items.1

def tokens (source : String) : List (Token × Location) := Lexer.tokensOf (items source)

/-- What is wrong with the text, and which token comes next behind it. -/
def faults (source : String) : List (Nat × ParseError) := Lexer.faultsOf 0 (items source)

def ending (source : String) : Location := (Mark.start.afterAll source.toList).location

/-- The token with the number `i`.  Behind the last token the end of the text is found over and over
again. -/
def lexeme (source : String) (i : Nat) : Lexeme :=
  match (tokens source)[i]? with
  | some (token, location) => ⟨token, location, i⟩
  | none => ⟨.endOfInput, ending source, i⟩

theorem lexeme_index (source : String) (i : Nat) : (lexeme source i).index = i := by
  unfold lexeme
  split <;> rfl

end Stream

namespace Cursor

/-! ## Queries -/

inductive Query where
  | next
  | peek
  | rollback
  | current
  | seek (position : Nat)

inductive Answer where
  | lexeme (l : Lexeme)
  | moved
  | fault (e : ParseError)
  | refused (e : InternalError)

def answer (c : Cursor) : Query → Answer × Cursor
  | .next =>
    match c.next with
    | (.ok l, c) => (.lexeme l, c)
    | (.error e, c) => (.fault e, c)
  | .peek =>
    match c.peek with
    | (.ok l, c) => (.lexeme l, c)
    | (.error e, c) => (.fault e, c)
  | .rollback =>
    match c.rollback with
    | .ok c => (.moved, c)
    | .error e => (.refused e, c)
  | .current =>
    match c.current with
    | .ok l => (.lexeme l, c)
    | .error e => (.refused e, c)
  | .seek position =>
    match c.seek position with
    | .ok c => (.moved, c)
    | .error e => (.refused e, c)

/-- The fault that an answer reports, with the position at which the query was made. -/
def Answer.faults (position : Nat) : Answer → List (Nat × ParseError)
  | fault e => [(position, e)]
  | lexeme _ | moved | refused _ => []

/-- The faults that a series of queries reports, and the cursor after it. -/
def answers : List Query → Cursor → List (Nat × ParseError) × Cursor
  | [], c => ([], c)
  | query :: queries, c =>
    let (a, c') := c.answer query
    let (faults, d) := answers queries c'
    (a.faults c.position ++ faults, d)

/-! ## What a cursor knows -/

/-- The cursor has found the first tokens of the stream and reported the first faults, and what it
has not read yet holds the others. -/
structure Tracks (source : String) (reported : List (Nat × ParseError)) (c : Cursor) : Prop where
  inside : c.Inside
  cache : ∀ i, i < c.cache.size → c.cache[i]? = some (Stream.lexeme source i)
  ending : c.lexer.finalMark = Mark.start.afterAll source.toList
  tokens : (Stream.tokens source).drop c.cache.size = Lexer.tokensOf c.lexer.items.1
  faults : Stream.faults source = reported ++ Lexer.faultsOf c.cache.size c.lexer.items.1

namespace Tracks

variable {source : String} {reported : List (Nat × ParseError)} {c d : Cursor}

theorem start (source : String) : Tracks source [] (ofSource source) where
  inside := Nat.le_refl 0
  cache i hi := absurd hi (Nat.not_lt_zero i)
  ending := rfl
  tokens := rfl
  faults := rfl

theorem placed (h : Tracks source reported c) {p : Nat} (hp : p ≤ c.cache.size) :
    Tracks source reported (c.place p) :=
  { h with inside := hp }

/-- The next token of the stream is the first one of those that are left. -/
theorem lexeme_size (h : Tracks source reported c) :
    Stream.lexeme source c.cache.size =
      match (Lexer.tokensOf c.lexer.items.1).head? with
      | some (token, location) => ⟨token, location, c.cache.size⟩
      | none => ⟨.endOfInput, Stream.ending source, c.cache.size⟩ := by
  rw [← h.tokens, List.head?_drop]
  rfl

/-- A cursor that has one more token from the stream has it in its place. -/
theorem cache_push (h : Tracks source reported c) {l : Lexeme} (hcache : d.cache = c.cache.push l)
    (hl : l = Stream.lexeme source c.cache.size) (i : Nat) (hi : i < d.cache.size) :
    d.cache[i]? = some (Stream.lexeme source i) := by
  rw [hcache, Array.size_push] at hi
  rw [hcache, Array.getElem?_push]
  split
  · rename_i heq
    rw [hl, heq]
  · rename_i hne
    exact h.cache i (by omega)

theorem readOne_ok (h : Tracks source reported c) {l : Lexeme} (hr : c.readOne = (.ok l, d)) :
    l = Stream.lexeme source c.cache.size ∧ Tracks source reported d := by
  obtain ⟨hcache, hpos, _⟩ := Cursor.readOne_ok hr
  have hsize : d.cache.size = c.cache.size + 1 := by rw [hcache, Array.size_push]
  have hinside : d.Inside := by
    have hc := h.inside
    unfold Inside at hc ⊢
    omega
  have htokens : (Stream.tokens source).drop d.cache.size =
      (Lexer.tokensOf c.lexer.items.1).drop 1 := by
    rw [hsize, ← List.drop_drop, h.tokens]
  have hfaults := h.faults
  have hlexeme := h.lexeme_size
  cases readsOne hr with
  | @ended lexer _ hn hend =>
    rw [Lexer.items_of_next_none hn] at hlexeme htokens hfaults
    have hmark : lexer.mark.location = Stream.ending source := by
      rw [Lexer.mark_of_next_none hn, h.ending]
      rfl
    have hitems := Lexer.items_of_rest_nil (Lexer.rest_of_next_none hn)
    have hl : l = Stream.lexeme source c.cache.size := by
      rw [hend, hmark]
      exact hlexeme.symm
    refine ⟨hl, hinside, h.cache_push rfl hl, ?_, ?_, ?_⟩
    · rw [Lexer.finalMark_next hn, h.ending]
    · rw [hitems]
      exact htokens
    · rw [hitems]
      exact hfaults
  | @token item _ token _ hn hresult htoken =>
    have hitem : item.token? = some (token, item.start.location) := by
      simp only [Lexer.Item.token?, hresult]
    rw [Lexer.items_of_next_some hn, Lexer.tokensOf, List.filterMap_cons_some hitem]
      at hlexeme htokens
    rw [Lexer.items_of_next_some hn, Lexer.faultsOf, hresult] at hfaults
    have hl : l = Stream.lexeme source c.cache.size := htoken.trans hlexeme.symm
    refine ⟨hl, hinside, h.cache_push rfl hl, ?_, htokens, ?_⟩
    · rw [Lexer.finalMark_next hn, h.ending]
    · rw [hsize]
      exact hfaults

theorem readOne_error (h : Tracks source reported c) {e : ParseError}
    (hr : c.readOne = (.error e, d)) :
    Tracks source (reported ++ [(c.cache.size, e)]) d := by
  obtain ⟨hcache, hpos, _⟩ := Cursor.readOne_error hr
  have hinside : d.Inside := by
    unfold Inside
    rw [hcache, hpos]
    exact h.inside
  have htokens := h.tokens
  have hfaults := h.faults
  cases readsOne hr with
  | @fault item _ fault hn hresult =>
    have hitem : item.token? = none := by simp only [Lexer.Item.token?, hresult]
    rw [Lexer.items_of_next_some hn, Lexer.tokensOf, List.filterMap_cons_none hitem] at htokens
    rw [Lexer.items_of_next_some hn, Lexer.faultsOf, hresult] at hfaults
    refine ⟨hinside, h.cache, ?_, htokens, ?_⟩
    · rw [Lexer.finalMark_next hn, h.ending]
    · rw [hfaults, List.append_assoc]
      rfl

theorem peek_ok (h : Tracks source reported c) {l : Lexeme} (hp : c.peek = (.ok l, d)) :
    l = Stream.lexeme source c.position ∧ d.position = c.position ∧ c.position < d.cache.size ∧
      Tracks source reported d := by
  obtain ⟨_, hpos, hlt⟩ := Cursor.peek_ok h.inside hp
  rcases peek_cases h.inside with ⟨l', hl, hpeek⟩ | ⟨hend, hpeek⟩
  · cases hpeek.symm.trans hp
    have hcached := h.cache c.position hlt
    rw [hl] at hcached
    exact ⟨Option.some.inj hcached, hpos, hlt, h⟩
  · obtain ⟨hl, hd⟩ := h.readOne_ok (hpeek.symm.trans hp)
    rw [← hend] at hl
    exact ⟨hl, hpos, hlt, hd⟩

theorem peek_error (h : Tracks source reported c) {e : ParseError} (hp : c.peek = (.error e, d)) :
    c.position = c.cache.size ∧ d.position = c.position ∧ d.cache = c.cache ∧
      Tracks source (reported ++ [(c.position, e)]) d := by
  obtain ⟨hend, hr⟩ := Cursor.peek_error h.inside hp
  obtain ⟨hcache, hpos, _⟩ := Cursor.readOne_error hr
  have hd := h.readOne_error hr
  rw [← hend] at hd
  exact ⟨hend, hpos, hcache, hd⟩

/-- The faults that have not been reported come behind all tokens that are known. -/
theorem size_le_of_mem_drop (h : Tracks source reported c) {f : Nat × ParseError}
    (hf : f ∈ (Stream.faults source).drop reported.length) : c.cache.size ≤ f.1 := by
  rw [h.faults, List.drop_left] at hf
  exact Lexer.le_of_mem_faultsOf hf

end Tracks

/-- Reading is looking and stepping over what was seen. -/
theorem next_cases (c : Cursor) :
    (∃ l d, c.peek = (.ok l, d) ∧ c.next = (.ok l, d.place (d.position + 1))) ∨
      ∃ e d, c.peek = (.error e, d) ∧ c.next = (.error e, d) := by
  unfold next
  cases c.peek with
  | mk result d =>
    cases result with
    | ok l => exact .inl ⟨l, d, rfl, rfl⟩
    | error e => exact .inr ⟨e, d, rfl, rfl⟩

theorem rollback_eq_ok {c d : Cursor} :
    c.rollback = .ok d ↔ 0 < c.position ∧ d = c.place (c.position - 1) := by
  unfold rollback
  split
  · rename_i hzero
    rw [hzero]
    exact ⟨fun h => (nomatch h), fun h => absurd h.1 (Nat.lt_irrefl 0)⟩
  · rename_i hne
    constructor
    · intro h
      cases h
      exact ⟨Nat.pos_of_ne_zero hne, rfl⟩
    · intro h
      rw [h.2]
      rfl

theorem seek_eq_ok {c d : Cursor} {p : Nat} :
    c.seek p = .ok d ↔ p ≤ c.cache.size ∧ d = c.place p := by
  unfold seek
  split
  · rename_i hle
    constructor
    · intro h
      cases h
      exact ⟨hle, rfl⟩
    · intro h
      rw [h.2]
      rfl
  · rename_i hgt
    exact ⟨fun h => (nomatch h), fun h => absurd h.1 hgt⟩

/-- The token before the position is known. -/
theorem current_eq_ok {c : Cursor} {l : Lexeme} :
    c.current = .ok l ↔ 0 < c.position ∧ c.cache[c.position - 1]? = some l := by
  unfold current
  by_cases hzero : c.position = 0
  · simp [hzero]
  · rw [if_neg hzero]
    cases hl : c.cache[c.position - 1]? with
    | none => simp
    | some l' =>
      simp only [Except.ok.injEq, Option.some.injEq]
      exact ⟨fun h => ⟨Nat.pos_of_ne_zero hzero, h⟩, fun h => h.2⟩

/-! ## Series of queries -/

/-- What a query can do: it finds the token at the position, it runs into a fault, or it does not
ask for a token that might have to be read. -/
theorem answer_cases {c d : Cursor} {query : Query} {a : Answer} (ha : c.answer query = (a, d)) :
    (∃ l c' p, (query = .next ∨ query = .peek) ∧ c.peek = (.ok l, c') ∧ a = .lexeme l ∧
      d = c'.place p ∧
      p ≤ c.position + 1) ∨
    (∃ e, (query = .next ∨ query = .peek) ∧ c.peek = (.error e, d) ∧ a = .fault e) ∨
    (query ≠ .next ∧ query ≠ .peek ∧ (∃ p, d = c.place p ∧ (c.Inside → p ≤ c.cache.size)) ∧
      (∀ position, a.faults position = []) ∧ ∀ e, a = .refused e → d = c) := by
  have hsame : ∃ p, c = c.place p ∧ (c.Inside → p ≤ c.cache.size) := ⟨c.position, rfl, fun h => h⟩
  unfold answer at ha
  cases query with
  | next =>
    rcases c.next_cases with ⟨l, c', hp, hn⟩ | ⟨e, c', hp, hn⟩ <;> simp only [hn] at ha <;> cases ha
    · have hpos := c.peek_position
      rw [hp] at hpos
      exact .inl ⟨l, c', _, .inl rfl, hp, rfl, rfl, Nat.le_of_eq (congrArg Nat.succ hpos)⟩
    · exact .inr (.inl ⟨e, .inl rfl, hp, rfl⟩)
  | peek =>
    cases hp : c.peek with
    | mk result c' =>
      cases result <;> simp only [hp] at ha <;> cases ha
      · exact .inr (.inl ⟨_, .inr rfl, rfl, rfl⟩)
      · have hpos := c.peek_position
        rw [hp] at hpos
        exact .inl ⟨_, d, d.position, .inr rfl, rfl, rfl, rfl,
          Nat.le_succ_of_le (Nat.le_of_eq hpos)⟩
  | rollback =>
    refine .inr (.inr ⟨nofun, nofun, ?_⟩)
    cases hr : c.rollback <;> simp only [hr] at ha <;> cases ha
    · exact ⟨hsame, fun _ => rfl, fun _ _ => rfl⟩
    · obtain ⟨_, rfl⟩ := rollback_eq_ok.mp hr
      exact ⟨⟨_, rfl, fun h => Nat.le_trans (Nat.sub_le _ _) h⟩, fun _ => rfl,
        fun _ h => (nomatch h)⟩
  | current =>
    refine .inr (.inr ⟨nofun, nofun, ?_⟩)
    cases hc : c.current <;> simp only [hc] at ha <;> cases ha
    · exact ⟨hsame, fun _ => rfl, fun _ _ => rfl⟩
    · exact ⟨hsame, fun _ => rfl, fun _ _ => rfl⟩
  | seek p =>
    refine .inr (.inr ⟨nofun, nofun, ?_⟩)
    cases hs : c.seek p <;> simp only [hs] at ha <;> cases ha
    · exact ⟨hsame, fun _ => rfl, fun _ _ => rfl⟩
    · obtain ⟨hle, rfl⟩ := seek_eq_ok.mp hs
      exact ⟨⟨p, rfl, fun _ => hle⟩, fun _ => rfl, fun _ h => (nomatch h)⟩

namespace Tracks

variable {source : String} {reported : List (Nat × ParseError)} {c d : Cursor}

theorem answer (h : Tracks source reported c) {query : Query} {a : Answer}
    (ha : c.answer query = (a, d)) :
    Tracks source (reported ++ a.faults c.position) d := by
  rcases answer_cases ha with
    ⟨l, c', p, _, hp, rfl, rfl, hle⟩ | ⟨e, _, hp, rfl⟩ | ⟨_, _, ⟨p, rfl, hle⟩, hnone, _⟩
  · obtain ⟨_, _, hlt, hc'⟩ := h.peek_ok hp
    rw [Answer.faults, List.append_nil]
    exact hc'.placed (by omega)
  · exact (h.peek_error hp).2.2.2
  · rw [hnone, List.append_nil]
    exact h.placed (hle h.inside)

/-- What holds after each query holds after all of them. -/
theorem answers (h : Tracks source reported c) (queries : List Query) :
    Tracks source (reported ++ (Cursor.answers queries c).1) (Cursor.answers queries c).2 := by
  induction queries generalizing c reported with
  | nil =>
    rw [Cursor.answers, List.append_nil]
    exact h
  | cons query queries ih =>
    cases ha : c.answer query with
    | mk a c' =>
      have hrest := ih (h.answer ha)
      rw [List.append_assoc] at hrest
      simp only [Cursor.answers, ha]
      exact hrest

end Tracks

/-- A cursor that has reported the faults in `reported` shows the stream of `source`. -/
structure RefinesStream (source : String) (reported : List (Nat × ParseError)) (c : Cursor) :
    Prop where
  /-- The token at the position is known or the next one to be read. -/
  inside : c.position ≤ c.cache.size
  /-- A token that is found is the one that the stream has there, and knows its place. -/
  next_lexeme : ∀ {l d}, c.next = (.ok l, d) →
    l = Stream.lexeme source c.position ∧ l.index = c.position ∧ d.position = c.position + 1
  peek_lexeme : ∀ {l d}, c.peek = (.ok l, d) →
    l = Stream.lexeme source c.position ∧ l.index = c.position ∧ d.position = c.position
  current_lexeme : ∀ {l}, c.current = .ok l →
    l = Stream.lexeme source (c.position - 1) ∧ l.index = c.position - 1
  /-- Going back and going somewhere are possible in bounds and nowhere else. -/
  current_iff : (∃ l, c.current = .ok l) ↔ 0 < c.position
  rollback_iff : (∃ d, c.rollback = .ok d) ↔ 0 < c.position
  rollback_eq : ∀ {d}, c.rollback = .ok d → d = c.place (c.position - 1)
  seek_iff : ∀ p, (∃ d, c.seek p = .ok d) ↔ p ≤ c.cache.size
  seek_eq : ∀ {p d}, c.seek p = .ok d → d = c.place p
  refused : ∀ {query e d}, c.answer query = (.refused e, d) → d = c
  /-- Faults are reported in the order of the text, none of them twice. -/
  in_order : reported <+: Stream.faults source
  /-- A fault is reported to who asks for the token behind it, and that is all that happens. -/
  fault : ∀ {query e d}, c.answer query = (.fault e, d) →
    reported ++ [(c.position, e)] <+: Stream.faults source ∧ c.position = c.cache.size ∧
      d.position = c.position ∧ d.cache = c.cache
  /-- A token is found after the faults before it. -/
  faults_first : ∀ {query l d}, query = .next ∨ query = .peek → c.answer query = (.lexeme l, d) →
    ∀ f ∈ (Stream.faults source).drop reported.length, c.position < f.1
  /-- What is known is not read again. -/
  known : ∀ {query a d}, c.position < c.cache.size ∨ (query ≠ .next ∧ query ≠ .peek) →
    c.answer query = (a, d) →
    d.lexer = c.lexer ∧ d.cache = c.cache ∧ d.warnings = c.warnings

/-- Everything that is said about a cursor follows from how it keeps track of the stream. -/
theorem Tracks.refinesStream {source : String} {reported : List (Nat × ParseError)} {c : Cursor}
    (h : Tracks source reported c) : RefinesStream source reported c where
  inside := h.inside
  next_lexeme {l d} hn := by
    rcases c.next_cases with ⟨l', c', hp, hn'⟩ | ⟨e, c', _, hn'⟩ <;> cases hn'.symm.trans hn
    obtain ⟨hl, hpos, _, _⟩ := h.peek_ok hp
    exact ⟨hl, hl ▸ Stream.lexeme_index source c.position, congrArg Nat.succ hpos⟩
  peek_lexeme {l d} hp := by
    obtain ⟨hl, hpos, _, _⟩ := h.peek_ok hp
    exact ⟨hl, hl ▸ Stream.lexeme_index source c.position, hpos⟩
  current_lexeme {l} hc := by
    obtain ⟨hpos, hl⟩ := current_eq_ok.mp hc
    have hin := h.inside
    unfold Inside at hin
    rw [h.cache (c.position - 1) (by omega)] at hl
    cases hl
    exact ⟨rfl, Stream.lexeme_index source _⟩
  current_iff := by
    constructor
    · rintro ⟨l, hc⟩
      exact (current_eq_ok.mp hc).1
    · intro hpos
      have hin := h.inside
      unfold Inside at hin
      exact ⟨_, current_eq_ok.mpr ⟨hpos, h.cache (c.position - 1) (by omega)⟩⟩
  rollback_iff :=
    ⟨fun ⟨_, hr⟩ => (rollback_eq_ok.mp hr).1, fun hpos => ⟨_, rollback_eq_ok.mpr ⟨hpos, rfl⟩⟩⟩
  rollback_eq hr := (rollback_eq_ok.mp hr).2
  seek_iff p := ⟨fun ⟨_, hs⟩ => (seek_eq_ok.mp hs).1, fun hle => ⟨_, seek_eq_ok.mpr ⟨hle, rfl⟩⟩⟩
  seek_eq hs := (seek_eq_ok.mp hs).2
  refused {query e d} ha := by
    rcases answer_cases ha with ⟨_, _, _, _, _, h', _⟩ | ⟨_, _, _, h'⟩ | ⟨_, _, _, _, hsame⟩
    · cases h'
    · cases h'
    · exact hsame e rfl
  in_order := h.faults ▸ List.prefix_append _ _
  fault {query e d} ha := by
    rcases answer_cases ha with ⟨_, _, _, _, _, h', _⟩ | ⟨_, _, hp, h'⟩ | ⟨_, _, _, hnone, _⟩
    · cases h'
    · cases h'
      obtain ⟨hend, hpos, hcache, hd⟩ := h.peek_error hp
      exact ⟨hd.faults ▸ List.prefix_append _ _, hend, hpos, hcache⟩
    · cases hnone 0
  faults_first {query l d} hq ha f hf := by
    rcases answer_cases ha with ⟨l', c', p, _, hp, _, _, _⟩ | ⟨_, _, _, h'⟩ | ⟨hnext, hpeek, _⟩
    · obtain ⟨_, _, hlt, hc'⟩ := h.peek_ok hp
      exact Nat.lt_of_lt_of_le hlt (hc'.size_le_of_mem_drop hf)
    · cases h'
    · rcases hq with hq | hq
      · exact absurd hq hnext
      · exact absurd hq hpeek
  known {query a d} hknown ha := by
    have hcached : ∀ {result c'}, c.position < c.cache.size → c.peek = (result, c') → c' = c := by
      intro result c' hlt hp
      rw [peek_cached (Array.getElem?_eq_getElem hlt)] at hp
      cases hp
      rfl
    have hlt : query = .next ∨ query = .peek → c.position < c.cache.size := by
      intro hq
      rcases hknown with hlt | ⟨hnext, hpeek⟩
      · exact hlt
      · rcases hq with hq | hq
        · exact absurd hq hnext
        · exact absurd hq hpeek
    rcases answer_cases ha with
      ⟨l, c', p, hq, hp, _, rfl, _⟩ | ⟨e, hq, hp, _⟩ | ⟨_, _, ⟨p, rfl, _⟩, _⟩
    · cases hcached (hlt hq) hp
      exact ⟨rfl, rfl, rfl⟩
    · cases hcached (hlt hq) hp
      exact ⟨rfl, rfl, rfl⟩
    · exact ⟨rfl, rfl, rfl⟩

end Cursor

/-- After any series of queries, whatever they were answered, a cursor shows the stream of its
text. -/
theorem cursor_refines_stream (source : String) (queries : List Cursor.Query) :
    Cursor.RefinesStream source (Cursor.answers queries (Cursor.ofSource source)).1
      (Cursor.answers queries (Cursor.ofSource source)).2 :=
  ((Cursor.Tracks.start source).answers queries).refinesStream

end Replay
