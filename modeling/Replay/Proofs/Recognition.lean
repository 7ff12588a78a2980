import Replay.Proofs.Grammar
import Replay.Proofs.Lockstep.Rules
/-!
Computations that recognise words.

A computation recognises a language if it reads nothing but words of the language, and reads any
word of it that is followed by a token it stops at.  Both halves allow for a computation that is out
of fuel, so they are put together in the same way as the computations themselves.  That the fuel
suffices is not the matter here.
-/

namespace Replay

open Exec Grammar Computability

theorem Token.isPunct_iff {t : Token} {p : Punct} : t.isPunct p = true ↔ t = .punct p := by
  unfold isPunct
  split
  · next q => simp only [decide_eq_true_eq, punct.injEq]
  · next hne => exact ⟨fun h => (by cases h), fun h => absurd h (hne p)⟩

theorem Token.isKeyword_iff {t : Token} {k : Keyword} : t.isKeyword k = true ↔ t = .keyword k := by
  unfold isKeyword
  split
  · next q => simp only [decide_eq_true_eq, keyword.injEq]
  · next hne => exact ⟨fun h => (by cases h), fun h => absurd h (hne k)⟩

/-! ## Where a computation goes -/

/-- A state of a run over a text without faults, before the token with the number `i`. -/
structure Machine.Before (source : String) (i : Nat) (m : Machine) : Prop where
  clean : Stream.faults source = []
  tracks : Cursor.Tracks source [] m.cursor
  position : m.cursor.position = i

/-- If there is a result, it and the place that was reached are in `Q`; and if there is an error,
then `mayFail`. -/
def Outcome.Reaches {α : Type} (source : String) (mayFail : Prop) (Q : α → Nat → Prop) :
    Outcome α → Prop
  | done a m => ∃ j, Q a j ∧ m.Before source j
  | fault _ _ => mayFail
  | outOfFuel => True

def Exec.Goes {α : Type} (source : String) (mayFail : Prop) (i : Nat) (Q : α → Nat → Prop)
    (x : Exec α) : Prop :=
  ∀ m, m.Before source i → (x m).Reaches source mayFail Q

namespace Machine.Before

variable {source : String} {i : Nat} {m : Machine}

theorem start {source : String} (h : Stream.faults source = []) (maxDepth : Nat) (out : Sink) :
    (Machine.start source maxDepth out).Before source 0 :=
  ⟨h, .start source, rfl⟩

/-- As there are no faults there is always a token. -/
theorem peek (h : m.Before source i) :
    ∃ c, m.cursor.peek = (.ok (Stream.lexeme source i), c) ∧ i < c.cache.size ∧
    (m.on c).Before source i := by
  cases hp : m.cursor.peek with
  | mk result c =>
    cases result with
    | ok l =>
      obtain ⟨rfl, hpos, hlt, hc⟩ := h.tracks.peek_ok hp
      rw [h.position] at hpos hlt
      exact ⟨c, by rw [h.position], hlt, h.clean, hc, hpos⟩
    | error e =>
      obtain ⟨_, _, _, hc⟩ := h.tracks.peek_error hp
      have hfaults := hc.faults
      rw [h.clean] at hfaults
      cases hfaults

theorem placed (h : m.Before source i) {p : Nat} (hp : p ≤ m.cursor.cache.size) :
    (m.on (m.cursor.place p)).Before source p :=
  ⟨h.clean, h.tracks.placed hp, rfl⟩

end Machine.Before

namespace Exec.Goes

variable {α β σ : Type} {source : String} {mayFail : Prop} {i : Nat} {P : α → Nat → Prop}
  {Q : β → Nat → Prop}

theorem pure {a : α} (h : P a i) : Goes source mayFail i P (pure a) := fun _ hm => ⟨i, h, hm⟩

theorem fail (h : mayFail) (e : Error) : Goes source mayFail i P (fail e) := fun _ _ => h

theorem outOfFuel : Goes source mayFail i P outOfFuel := fun _ _ => trivial

theorem imp {P' : α → Nat → Prop} {x : Exec α} (hx : Goes source mayFail i P x)
    (h : ∀ a j, P a j → P' a j) :
    Goes source mayFail i P' x := by
  intro m hm
  have hrun := hx m hm
  generalize x m = o at hrun
  cases o with
  | done a m' =>
    obtain ⟨j, hP, hm'⟩ := hrun
    exact ⟨j, h a j hP, hm'⟩
  | fault e m' => exact hrun
  | outOfFuel => trivial

theorem bind {x : Exec α} {f : α → Exec β} (hx : Goes source mayFail i P x)
    (hf : ∀ a j, P a j → Goes source mayFail j Q (f a)) : Goes source mayFail i Q (x >>= f) := by
  intro m hm
  have hrun := hx m hm
  cases hxm : x m with
  | done a m' =>
    rw [hxm] at hrun
    obtain ⟨j, hP, hm'⟩ := hrun
    rw [bind_done hxm]
    exact hf a j hP m' hm'
  | fault e m' =>
    rw [hxm] at hrun
    rw [bind_fault hxm]
    exact hrun
  | outOfFuel =>
    rw [bind_outOfFuel hxm]
    trivial

theorem peek_bind {f : Lexeme → Exec β}
    (hf : Goes source mayFail i Q (f (Stream.lexeme source i))) :
    Goes source mayFail i Q (peek >>= f) := by
  intro m hm
  obtain ⟨c, hp, _, hc⟩ := hm.peek
  rw [bind_done (peek_run_ok hp)]
  exact hf _ hc

theorem next_bind {f : Lexeme → Exec β}
    (hf : Goes source mayFail (i + 1) Q (f (Stream.lexeme source i))) :
    Goes source mayFail i Q (next >>= f) := by
  intro m hm
  obtain ⟨c, hp, hlt, hc⟩ := hm.peek
  rw [bind_done (next_run_ok hp), hm.position]
  exact hf _ (hc.placed hlt)

theorem rollback_bind {f : Unit → Exec β} (hf : Goes source mayFail i Q (f ())) :
    Goes source mayFail (i + 1) Q (rollback >>= f) := by
  intro m hm
  have hpos : 0 < m.cursor.position := by rw [hm.position]; omega
  have hsize : i + 1 ≤ m.cursor.cache.size := hm.position ▸ hm.tracks.inside
  have hback := hm.placed (p := i) (by omega)
  rw [bind_done (rollback_run hpos), hm.position]
  exact hf _ hback

theorem position_bind {f : Nat → Exec β} (hf : Goes source mayFail i Q (f i)) :
    Goes source mayFail i Q (position >>= f) := by
  intro m hm
  have hrun : position m = .done i m := by rw [position, hm.position]
  rw [bind_done hrun]
  exact hf m hm

/-- A loop keeps to what one turn keeps to. -/
theorem loop {body : σ → Exec (Turn σ β)} {J : σ → Nat → Prop}
    (h : ∀ s j, J s j → Goes source mayFail j (fun t k => Turn.All (J · k) (Q · k) t) (body s))
    (n : Nat) {s : σ} (hs : J s i) : Goes source mayFail i Q (loop body n s) := by
  induction n generalizing s i with
  | zero => exact outOfFuel
  | succ n ih =>
    rw [loop_succ]
    refine (h s i hs).bind fun turn j hturn => ?_
    cases turn with
    | again s' => exact ih hturn
    | stop b => exact pure hturn

end Exec.Goes

/-! ## Recognition -/

/-- Where the next token is in `first`, the computation recognises the language: if it has a result
then it has read a word; and if there is a word that is followed by a token in `stop`, then it does
not fail and reads this word.  `A` is what is known of the result. -/
structure Recognises {α : Type} (source : String) (first : Token → Prop) (A : α → Prop)
    (l : Language Token) (stop : Token → Prop) (x : Exec α) : Prop where
  sound : ∀ {i}, first (Stream.token source i) →
    Goes source True i (fun a j => A a ∧ Spans source l i j) x
  complete : ∀ {i j}, first (Stream.token source i) → Spans source l i j →
    stop (Stream.token source j) →
    Goes source False i (fun a k => A a ∧ k = j) x

/-- The same for a computation that starts right behind the first token of the word, which is
`t`. -/
structure RecognisesBehind {α : Type} (source : String) (t : Token) (A : α → Prop)
    (l : Language Token) (stop : Token → Prop) (x : Exec α) : Prop where
  sound : ∀ {i}, Stream.token source i = t →
    Goes source True (i + 1) (fun a j => A a ∧ Spans source l i j) x
  complete : ∀ {i j}, Stream.token source i = t → Spans source l i j →
    stop (Stream.token source j) →
    Goes source False (i + 1) (fun a k => A a ∧ k = j) x

abbrev anyToken (_ : Token) : Prop := True

namespace Recognises

variable {α β : Type} {source : String} {first stop stop' : Token → Prop} {A : α → Prop}
  {B : β → Prop}
  {l l' : Language Token} {x : Exec α}

theorem outOfFuel : Recognises source first A l stop outOfFuel where
  sound _ := .outOfFuel
  complete _ _ _ := .outOfFuel

theorem pure {a : α} (h : A a) : Recognises source first A 1 stop (pure a) where
  sound _ := .pure ⟨h, Spans.nil_iff.mpr rfl⟩
  complete _ hl _ := .pure ⟨h, Spans.nil_iff.mp hl⟩

theorem fail
    (h : ∀ {i j}, first (Stream.token source i) → stop (Stream.token source j) →
      ¬ Spans source l i j)
    (e : Error) : Recognises source first A l stop (fail e) where
  sound _ := .fail trivial e
  complete hi hl hj := absurd hl (h hi hj)

/-- Another language with the same words that start in this way. -/
theorem lang (hx : Recognises source first A l stop x)
    (h : ∀ {i j}, first (Stream.token source i) → (Spans source l' i j ↔ Spans source l i j)) :
    Recognises source first A l' stop x where
  sound hi := (hx.sound hi).imp fun _ _ ⟨ha, hl⟩ => ⟨ha, (h hi).mpr hl⟩
  complete hi hl hj := hx.complete hi ((h hi).mp hl) hj

theorem starting {first' : Token → Prop} (hx : Recognises source first A l stop x)
    (h : ∀ t, first' t → first t) :
    Recognises source first' A l stop x where
  sound hi := hx.sound (h _ hi)
  complete hi hl hj := hx.complete (h _ hi) hl hj

theorem anywhere (hx : Recognises source anyToken A l stop x) :
    Recognises source first A l stop x :=
  hx.starting fun _ _ => trivial

theorem stopping (hx : Recognises source first A l stop x) (h : ∀ t, stop' t → stop t) :
    Recognises source first A l stop' x where
  sound hi := hx.sound hi
  complete hi hl hj := hx.complete hi hl (h _ hj)

/-- One word after the other.  What the second one starts with has to stop the first one. -/
theorem bind {f : α → Exec β} (hx : Recognises source first A l stop x)
    (hf : ∀ a, A a → Recognises source anyToken B l' stop' (f a))
    (hfollow : ∀ {i j}, Spans source l' i j → stop' (Stream.token source j) →
      stop (Stream.token source i)) :
    Recognises source first B (l * l') stop' (x >>= f) where
  sound hi := (hx.sound hi).bind fun a k ⟨ha, hl⟩ =>
    ((hf a ha).sound trivial).imp fun b j ⟨hb, hl'⟩ => ⟨hb, Spans.mul_iff.mpr ⟨k, hl, hl'⟩⟩
  complete hi hspans hj := by
    obtain ⟨k, hl, hl'⟩ := Spans.mul_iff.mp hspans
    refine (hx.complete hi hl (hfollow hl' hj)).bind fun a k' ⟨ha, hk⟩ => ?_
    subst hk
    exact (hf a ha).complete trivial hl' hj

/-- One word after the other, where it does not matter what the second one starts with. -/
theorem andThen {f : α → Exec β} (hx : Recognises source first A l anyToken x)
    (hf : ∀ a, A a → Recognises source anyToken B l' stop' (f a)) :
    Recognises source first B (l * l') stop' (x >>= f) :=
  hx.bind hf fun _ _ => trivial

/-- A sign that ends a phrase. -/
theorem bind_sign {p : Punct} {f : α → Exec β} (hx : Recognises source first A l stop x)
    (hp : stop (.punct p)) (hf : ∀ a, A a → Recognises source anyToken B (sign p) stop' (f a)) :
    Recognises source first B (l * sign p) stop' (x >>= f) :=
  hx.bind hf fun hspans _ => by rw [hspans.first_sign]; exact hp

theorem bind_pure {f : α → Exec β} (hx : Recognises source first A l stop x)
    (hf : ∀ a, A a → ∃ b, B b ∧ f a = Pure.pure b) :
    Recognises source first B l stop (x >>= f) where
  sound hi := (hx.sound hi).bind fun a _ ⟨ha, hl⟩ => by
    obtain ⟨b, hb, heq⟩ := hf a ha
    rw [heq]
    exact .pure ⟨hb, hl⟩
  complete hi hl hj := (hx.complete hi hl hj).bind fun a _ ⟨ha, hk⟩ => by
    obtain ⟨b, hb, heq⟩ := hf a ha
    rw [heq]
    exact .pure ⟨hb, hk⟩

/-! ## Tokens -/

theorem next_bind {kind : Token → Prop} {f : Lexeme → Exec β} (hkind : ∀ t, first t → kind t)
    (hf : ∀ l, first l.token → Recognises source anyToken B l' stop (f l)) :
    Recognises source first B (one kind * l') stop (next >>= f) where
  sound hi := .next_bind <| ((hf _ hi).sound trivial).imp fun _ _ h =>
    ⟨h.1, Spans.one_mul_iff.mpr ⟨hkind _ hi, h.2⟩⟩
  complete hi hl hj := .next_bind ((hf _ hi).complete trivial (Spans.one_mul_iff.mp hl).2 hj)

theorem next_by {f : Lexeme → Exec β}
    (hf : ∀ l, first l.token → RecognisesBehind source l.token B l' stop (f l)) :
    Recognises source first B l' stop (next >>= f) where
  sound hi := .next_bind ((hf _ hi).sound rfl)
  complete hi hl hj := .next_bind ((hf _ hi).complete rfl hl hj)

theorem peek_bind {f : Lexeme → Exec β}
    (hf : ∀ l, first l.token → Recognises source (· = l.token) B l' stop (f l)) :
    Recognises source first B l' stop (peek >>= f) where
  sound hi := .peek_bind ((hf _ hi).sound rfl)
  complete hi hl hj := .peek_bind ((hf _ hi).complete rfl hl hj)

theorem position_bind {f : Nat → Exec β} (hf : ∀ p, Recognises source first B l' stop (f p)) :
    Recognises source first B l' stop (position >>= f) where
  sound hi := .position_bind ((hf _).sound hi)
  complete hi hl hj := .position_bind ((hf _).complete hi hl hj)

/-- A token that is looked at and does not matter. -/
theorem peeked {f : Lexeme → Exec β} (hf : ∀ l, Recognises source first B l' stop (f l)) :
    Recognises source first B l' stop (peek >>= f) where
  sound hi := .peek_bind ((hf _).sound hi)
  complete hi hl hj := .peek_bind ((hf _).complete hi hl hj)

theorem peekIs_true {p : Punct} {f : Bool → Exec β} (hp : ∀ t, first t → t = .punct p)
    (hf : Recognises source first B l' stop (f true)) :
    Recognises source first B l' stop (peekIs p >>= f) := by
  unfold peekIs
  rw [bind_assoc]
  refine peek_bind fun l hl => ?_
  rw [pure_bind, Token.isPunct_iff.mpr (hp _ hl)]
  exact hf.starting fun t ht => ht ▸ hl

theorem peekIs_false {p : Punct} {f : Bool → Exec β} (hp : ∀ t, first t → t ≠ .punct p)
    (hf : Recognises source first B l' stop (f false)) :
    Recognises source first B l' stop (peekIs p >>= f) := by
  unfold peekIs
  rw [bind_assoc]
  refine peek_bind fun l hl => ?_
  rw [pure_bind, Bool.eq_false_iff.mpr (mt Token.isPunct_iff.mp (hp _ hl))]
  exact hf.starting fun t ht => ht ▸ hl

/-- The next token decides between two languages. -/
theorem add_of_first (kind : Token → Prop)
    (h : Recognises source (fun t => first t ∧ kind t) A l stop x)
    (h' : Recognises source (fun t => first t ∧ ¬ kind t) A l' stop x)
    (hkind : ∀ {i j}, Spans source l i j → kind (Stream.token source i))
    (hother : ∀ {i j}, Spans source l' i j → stop (Stream.token source j) →
      ¬ kind (Stream.token source i)) :
    Recognises source first A (l + l') stop x where
  sound {i} hi := by
    by_cases hk : kind (Stream.token source i)
    · exact (h.sound ⟨hi, hk⟩).imp fun _ _ ⟨ha, hl⟩ => ⟨ha, Spans.add_iff.mpr (.inl hl)⟩
    · exact (h'.sound ⟨hi, hk⟩).imp fun _ _ ⟨ha, hl⟩ => ⟨ha, Spans.add_iff.mpr (.inr hl)⟩
  complete {i j} hi hspans hj := by
    rcases Spans.add_iff.mp hspans with hl | hl'
    · exact h.complete ⟨hi, hkind hl⟩ hl hj
    · exact h'.complete ⟨hi, hother hl' hj⟩ hl' hj

theorem peekIs_choice {p : Punct} {f : Bool → Exec β}
    (h : Recognises source (· = .punct p) B l stop (f true))
    (h' : Recognises source (· ≠ .punct p) B l' stop (f false))
    (hl : ∀ {i j}, Spans source l i j → Stream.token source i = .punct p)
    (hl' : ∀ {i j}, Spans source l' i j → stop (Stream.token source j) →
      Stream.token source i ≠ .punct p) :
    Recognises source anyToken B (l + l') stop (peekIs p >>= f) :=
  add_of_first (· = .punct p) (peekIs_true (fun _ ht => ht.2) (h.starting fun _ ht => ht.2))
    (peekIs_false (fun _ ht => ht.2) (h'.starting fun _ ht => ht.2)) hl hl'

/-- A token of a kind that is asked for. -/
theorem required {kind : Token → Prop} {f : Lexeme → Exec α}
    (hok : ∀ l, first l.token → kind l.token → ∃ a, A a ∧ f l = Pure.pure a)
    (hno : ∀ l, first l.token → ¬ kind l.token → ∃ e, f l = Exec.fail e) :
    Recognises source first A (one kind) stop (next >>= f) where
  sound {i} hi := by
    refine .next_bind ?_
    by_cases hk : kind (Stream.token source i)
    · obtain ⟨a, ha, heq⟩ := hok (Stream.lexeme source i) hi hk
      rw [heq]
      exact .pure ⟨ha, Spans.one_iff.mpr ⟨rfl, hk⟩⟩
    · obtain ⟨e, heq⟩ := hno (Stream.lexeme source i) hi hk
      rw [heq]
      exact .fail trivial e
  complete {i j} hi hl _ := by
    obtain ⟨rfl, hk⟩ := Spans.one_iff.mp hl
    obtain ⟨a, ha, heq⟩ := hok (Stream.lexeme source i) hi hk
    refine .next_bind ?_
    rw [heq]
    exact .pure ⟨ha, rfl⟩

/-- A token that is known to be of a kind. -/
theorem known {kind : Token → Prop} {f : Lexeme → Exec α} (hkind : ∀ t, first t → kind t)
    (hok : ∀ l, first l.token → ∃ a, A a ∧ f l = Pure.pure a) :
    Recognises source first A (one kind) stop (next >>= f) :=
  required (fun l hl _ => hok l hl) fun _ hl hno => absurd (hkind _ hl) hno

theorem expect (p : Punct) : Recognises source first (fun _ => True) (sign p) stop (expect p) := by
  refine required (fun l _ hl => ⟨(), trivial, if_pos (Token.isPunct_iff.mpr hl)⟩) fun l _ hl => ?_
  rw [if_neg (mt Token.isPunct_iff.mp hl)]
  exact ⟨_, rfl⟩

theorem expectKeyword (k : Keyword) :
    Recognises source first (fun _ => True) (word k) stop (expectKeyword k) := by
  refine required (fun l _ hl => ⟨(), trivial, if_pos (Token.isKeyword_iff.mpr hl)⟩)
    fun l _ hl => ?_
  rw [if_neg (mt Token.isKeyword_iff.mp hl)]
  exact ⟨_, rfl⟩

theorem expectIdentifier : Recognises source first (fun _ => True) name stop expectIdentifier := by
  refine required (fun l _ ⟨name, hl⟩ => ⟨(name, l.location), trivial, ?_⟩) fun l _ hl => ?_
  · rw [hl]
  · split
    · next name hname => exact absurd ⟨name, hname⟩ hl
    · exact ⟨_, rfl⟩

end Recognises

namespace RecognisesBehind

variable {α : Type} {source : String} {t : Token} {stop : Token → Prop} {A : α → Prop}
  {l l' : Language Token}
  {x : Exec α}

theorem of_rest (hx : Recognises source anyToken A l' stop x)
    (h : ∀ {i j}, Stream.token source i = t → (Spans source l i j ↔ Spans source l' (i + 1) j)) :
    RecognisesBehind source t A l stop x where
  sound hi := (hx.sound trivial).imp fun _ _ ⟨ha, hl⟩ => ⟨ha, (h hi).mpr hl⟩
  complete hi hl hj := hx.complete trivial ((h hi).mp hl) hj

/-- The token is given back. -/
theorem back {f : Unit → Exec α} (hx : Recognises source (· = t) A l stop (f ())) :
    RecognisesBehind source t A l stop (rollback >>= f) where
  sound hi := .rollback_bind (hx.sound hi)
  complete hi hl hj := .rollback_bind (hx.complete hi hl hj)

theorem fail (h : ∀ {i j}, Stream.token source i = t → ¬ Spans source l i j) (e : Error) :
    RecognisesBehind source t A l stop (fail e) where
  sound _ := .fail trivial e
  complete hi hl _ := absurd hl (h hi)

end RecognisesBehind

/-! ## Loops -/

/-- A turn of a loop that goes on after a word of `more`, and is the last one after a word of
`last`. -/
structure Turns {σ β : Type} (source : String) (I : σ → Prop) (B : β → Prop)
    (more last : Language Token)
    (stopMore stopLast : Token → Prop) (x : Exec (Turn σ β)) : Prop where
  sound : ∀ {i}, Goes source True i
    (fun t j => t.All (fun s => I s ∧ Spans source more i j) fun b => B b ∧ Spans source last i j) x
  again : ∀ {i j}, Spans source more i j → stopMore (Stream.token source j) →
    Goes source False i (fun t k => t.All I (fun _ => False) ∧ k = j) x
  stop : ∀ {i j}, Spans source last i j → stopLast (Stream.token source j) →
    Goes source False i (fun t k => t.All (fun _ => False) B ∧ k = j) x

namespace Turns

variable {α σ β : Type} {source : String} {I : σ → Prop} {A : α → Prop} {B : β → Prop}
  {l more last : Language Token}
  {stopMore stopLast stop : Token → Prop}

/-- The next token decides whether there is another turn. -/
theorem of_first (kind : Token → Prop) {x : Exec (Turn σ β)}
    (hmore : Recognises source kind (Turn.All I fun _ => False) more stopMore x)
    (hlast : Recognises source (¬ kind ·) (Turn.All (fun _ => False) B) last stopLast x)
    (hkind : ∀ {i j}, Spans source more i j → kind (Stream.token source i))
    (hother : ∀ {i j}, Spans source last i j → stopLast (Stream.token source j) →
      ¬ kind (Stream.token source i)) :
    Turns source I B more last stopMore stopLast x where
  sound {i} := by
    by_cases hk : kind (Stream.token source i)
    · refine (hmore.sound hk).imp fun t j ⟨ht, hspans⟩ => ?_
      cases t with
      | again s => exact ⟨ht, hspans⟩
      | stop b => exact ht.elim
    · refine (hlast.sound hk).imp fun t j ⟨ht, hspans⟩ => ?_
      cases t with
      | again s => exact ht.elim
      | stop b => exact ⟨ht, hspans⟩
  again hspans hj := hmore.complete (hkind hspans) hspans hj
  stop hspans hj := hlast.complete (hother hspans hj) hspans hj

theorem bind {x : Exec α} {f : α → Exec (Turn σ β)} (hx : Recognises source anyToken A l stop x)
    (hf : ∀ a, A a → Turns source I B more last stopMore stopLast (f a))
    (hmore : ∀ {i j}, Spans source more i j → stopMore (Stream.token source j) →
      stop (Stream.token source i))
    (hlast : ∀ {i j}, Spans source last i j → stopLast (Stream.token source j) →
      stop (Stream.token source i)) :
    Turns source I B (l * more) (l * last) stopMore stopLast (x >>= f) where
  sound := by
    refine (hx.sound trivial).bind fun a k ⟨ha, hl⟩ => (hf a ha).sound.imp fun t j ht => ?_
    cases t with
    | again s => exact ⟨ht.1, Spans.mul_iff.mpr ⟨k, hl, ht.2⟩⟩
    | stop b => exact ⟨ht.1, Spans.mul_iff.mpr ⟨k, hl, ht.2⟩⟩
  again hspans hj := by
    obtain ⟨k, hl, hspans⟩ := Spans.mul_iff.mp hspans
    refine (hx.complete trivial hl (hmore hspans hj)).bind fun a k' ⟨ha, hk⟩ => ?_
    subst hk
    exact (hf a ha).again hspans hj
  stop hspans hj := by
    obtain ⟨k, hl, hspans⟩ := Spans.mul_iff.mp hspans
    refine (hx.complete trivial hl (hlast hspans hj)).bind fun a k' ⟨ha, hk⟩ => ?_
    subst hk
    exact (hf a ha).stop hspans hj

theorem andThen {x : Exec α} {f : α → Exec (Turn σ β)}
    (hx : Recognises source anyToken A l anyToken x)
    (hf : ∀ a, A a → Turns source I B more last stopMore stopLast (f a)) :
    Turns source I B (l * more) (l * last) stopMore stopLast (x >>= f) :=
  .bind hx hf (fun _ _ => trivial) fun _ _ => trivial

/-- What may follow a turn stops it. -/
theorem loop {body : σ → Exec (Turn σ β)}
    (h : ∀ s, I s → Turns source I B more last stopMore stopLast (body s))
    (hfollow : ∀ {i j}, Spans source (more∗ * last) i j → stopLast (Stream.token source j) →
      stopMore (Stream.token source i)) (n : Nat) {s : σ} (hs : I s) :
    Recognises source anyToken B (more∗ * last) stopLast (loop body n s) where
  sound {i} _ := by
    -- What has been read so far is words of `more`.
    refine Goes.loop (J := fun s k => I s ∧ Relation.ReflTransGen (Spans source more) i k) ?_
      n ⟨hs, .refl⟩
    intro s k ⟨hs, hsteps⟩
    refine (h s hs).sound.imp fun t j ht => ?_
    cases t with
    | again s' => exact ⟨ht.1, hsteps.tail ht.2⟩
    | stop b => exact ⟨ht.1, Spans.mul_iff.mpr ⟨k, Spans.star_iff.mpr hsteps, ht.2⟩⟩
  complete {i j} _ hspans hj := by
    -- What is still to be read is words of `more` with a last word behind them.
    refine Goes.loop (J := fun s k => I s ∧ Spans source (more∗ * last) k j) ?_ n ⟨hs, hspans⟩
    intro s k ⟨hs, hspans⟩
    rcases hspans.star_mul_cases with hlast | ⟨k', hmore, hrest⟩
    · refine ((h s hs).stop hlast hj).imp fun t j' ⟨ht, hj'⟩ => ?_
      cases t with
      | again s' => exact ht.elim
      | stop b => exact ⟨ht, hj'⟩
    · refine ((h s hs).again hmore (hfollow hrest hj)).imp fun t j' ⟨ht, hj'⟩ => ?_
      subst hj'
      cases t with
      | again s' => exact ⟨ht, hrest⟩
      | stop b => exact ht.elim

/-- A loop that stops without reading on. -/
theorem star {body : σ → Exec (Turn σ β)}
    (h : ∀ s, I s → Turns source I B more 1 stopMore stopLast (body s))
    (hfollow : ∀ {i j}, Spans source more∗ i j → stopLast (Stream.token source j) →
      stopMore (Stream.token source i))
    (n : Nat) {s : σ} (hs : I s) :
    Recognises source anyToken B more∗ stopLast (Exec.loop body n s) := by
  rw [← mul_one more∗]
  refine loop h (fun hspans hj => ?_) n hs
  rw [mul_one] at hspans
  exact hfollow hspans hj

end Turns

/-! ## Lists -/

section

variable {α : Type} {source : String} {A : α → Prop} {l : Language Token} {stop : Token → Prop}
  {element : Exec α}

theorem Turns.listTurn (h : Recognises source anyToken A l stop element)
    (hcomma : stop (.punct .comma)) (hparen : stop (.punct .rightParen)) (seen : List α) :
    Turns source (fun _ => True) (fun _ => True) (l * sign .comma) (l * sign .rightParen)
      anyToken anyToken
      (listTurn element seen) := by
  refine .bind h (fun a _ => .of_first (· = .punct .comma) ?_ ?_ Spans.first_sign ?_) ?_ ?_
  · exact .known (fun _ h => h) fun l hl => ⟨.again (seen ++ [a]), trivial, by rw [hl]⟩
  · refine .required (fun l _ hl => ⟨.stop (seen ++ [a]), trivial, by rw [hl]⟩) fun l hne hl => ?_
    split
    · next hcomma => exact absurd hcomma hne
    · next hparen => exact absurd hparen hl
    · exact ⟨_, rfl⟩
  · intro i j hspans _ hcomma
    cases (Spans.first_sign hspans).symm.trans hcomma
  · intro i j hspans _
    rw [Spans.first_sign hspans]
    exact hcomma
  · intro i j hspans _
    rw [Spans.first_sign hspans]
    exact hparen

theorem Recognises.closedList (h : Recognises source anyToken A l stop element)
    (hcomma : stop (.punct .comma)) (hparen : stop (.punct .rightParen))
    (hfirst : ∀ {i j}, Spans source l i j → Stream.token source i ≠ .punct .rightParen) (n : Nat) :
    Recognises source anyToken (fun _ => True) (maybe (list l) * sign .rightParen) anyToken
      (closedList n element) := by
  have hlist : Recognises source anyToken (fun _ => True) (list l * sign .rightParen) anyToken
      (Exec.loop (Exec.listTurn element) n []) := by
    rw [list, separated_eq, mul_assoc]
    exact Turns.loop (fun seen _ => .listTurn h hcomma hparen seen) (fun _ _ => trivial) n trivial
  rw [maybe, add_mul, one_mul]
  refine .peekIs_choice ?_ hlist.anywhere Spans.first_sign ?_
  · exact .known (fun _ h => h) fun _ _ => ⟨[], trivial, rfl⟩
  · intro i j hspans _
    rw [list, separated, mul_assoc, Spans.mul_iff] at hspans
    obtain ⟨k, hspans, _⟩ := hspans
    exact hfirst hspans

end

end Replay
