import Replay.Proofs.Sound
/-!
The contract between executing and skipping.

A rule that executes has a counterpart that skips.  The contract relates the outcome of the one,
from a sound state, to what the other does from the cursor of that state: if the rule is done the
counterpart leads to the same cursor, if the rule rejects the text so does the counterpart, and in
any case the state is sound again and nothing is left over.

Contracts of parts are put together here to contracts of sequences and loops.
-/

namespace Replay

open Exec
open ScopeTree (arenaFull maxSlots)

/-! ## Contracts -/

/-- How the result of a rule relates to its text.  After a result that is `complete` the whole text
of the rule has been read, and the counterpart has a result that is a `twin` of it.  `values` are
the values that the result has in it. -/
structure Reading (α β : Type) where
  complete : α → Prop
  twin : α → β → Prop
  values : α → List Value

section Contract

variable {α β : Type}

/-- The rule is done with the result `a`.  Its counterpart `s` starts at the cursor `c`. -/
structure Reading.Done (R : Reading α β) (exempt : Option ScopeId) (s : Exec β) (c : Cursor)
    (m : Machine) (a : α) (m' : Machine) : Prop where
  sound : m'.Sound
  kept : m.Kept exempt m'
  calls : m'.calls = m.calls
  good : ∀ v ∈ R.values a, v.Good m'.cursor.cache
  grown : c.Grown m'.cursor
  scans : R.complete a → ∃ b, R.twin a b ∧ Scans s b c m'.cursor
  short : ¬R.complete a → ∀ {b d}, Scans s b c d → m'.cursor.Grown d

/-- The rule has failed.  Calls that are left on the stack have one reason: there was no slot for
another scope. -/
structure Failed (exempt : Option ScopeId) (s : Exec β) (c : Cursor) (m : Machine) (e : Error)
    (m' : Machine) : Prop where
  sound : m'.Sound
  kept : m.Kept exempt m'
  calls : (∀ i, e ≠ .internal i) → m'.calls = m.calls
  parse : ∀ {p}, e = .parse p → Rejects s c p
  internal : ∀ {i}, e = .internal i → i = arenaFull ∧ m'.scopes.slots.size = maxSlots

/-- Executing `x` from the state `m` is what skipping with `s` from the cursor `c` makes of it. -/
structure Honours (R : Reading α β) (exempt : Option ScopeId) (s : Exec β) (c : Cursor) (x : Exec α)
    (m : Machine) : Prop where
  done : ∀ {a m'}, x m = .done a m' → R.Done exempt s c m a m'
  fault : ∀ {e m'}, x m = .fault e m' → Failed exempt s c m e m'

end Contract

namespace Reading

def plain {α β : Type} (values : α → List Value) :
    Reading α β := ⟨fun _ => True, fun _ _ => True, values⟩

def any {α β : Type} : Reading α β := plain fun _ => []

def value {β : Type} : Reading Value β := plain fun v => [v]

def condition : Reading Bool Bool := ⟨fun _ => True, fun _ b => b = false, fun _ => []⟩

/-- A jump leaves its statement, and all around it up to the loop or call it belongs to, before the
end. -/
def signal : Reading Signal Signal where
  complete a := a = .normal
  twin _ b := b = .normal
  values
    | .returned (some v) _ => [v]
    | _ => []

def turn {σ τ α β : Type} (S : Reading σ τ) (R : Reading α β) : Reading (Turn σ α) (Turn τ β) where
  complete
    | .again _ => True
    | .stop a => R.complete a
  twin
    | .again s, .again t => S.twin s t
    | .stop a, .stop b => R.twin a b
    | _, _ => False
  values
    | .again s => S.values s
    | .stop a => R.values a

end Reading

/-! ## Texts that were read in part -/

namespace Reader

variable {β γ : Type} {Q : β → Prop} {R : γ → Prop}

theorem pure {b : β} (h : Q b) : Reader Q (pure b) := fun _ => .pure h

theorem loop {τ : Type} {T : τ → Prop} {body : τ → Exec (Turn τ β)}
    (h : ∀ t, T t → Reader (Turn.All T Q) (body t)) (k : Nat) {t : τ} (ht : T t) :
    Reader Q (loop body k t) :=
  fun L => .loop (fun t ht => h t ht L) (Nat.le_refl k) ht

/-- The first part of a run that has nothing but the cursor leads to a cursor as well. -/
theorem of_scans_bind {s : Exec β} {f : β → Exec γ} (h : Reader Q s) {c d : Cursor}
    (hc : c.Inside) {b : γ} (hs : Scans (s >>= f) b c d) :
    ∃ a d₁, Scans s a c d₁ ∧ Scans (f a) b d₁ d ∧ d₁.Inside ∧ Q a := by
  obtain ⟨a, n, hs₁, hs₂⟩ := of_bind_done hs
  obtain ⟨d₁, rfl, _, hd₁, hQ, _⟩ := (h (.frame (.bare c) (.bare c))).skim_done hc hs₁
  exact ⟨a, d₁, hs₁, hs₂, hd₁, hQ⟩

end Reader

theorem Scans.within {β : Type} {s : Exec β} {b : β} {c d : Cursor} (hg : c.Grown d)
    (hs : Scans s b c d) :
    Within s c d where
  grown := hg
  grown_end hs' := by
    cases hs.symm.trans hs'
    exact .refl d

/-- What comes behind takes a cursor still further. -/
theorem Within.bind {β γ : Type} {Q : β → Prop} {R : β → γ → Prop} {s : Exec β} {f : β → Exec γ}
    {c d : Cursor} (h : Within s c d) (hs : Reader Q s) (hc : c.Inside)
    (hf : ∀ b, Q b → Reader (R b) (f b)) : Within (s >>= f) c d where
  grown := h.grown
  grown_end hs' := by
    obtain ⟨a, d₁, hs₁, hs₂, hd₁, hQ⟩ := hs.of_scans_bind hc hs'
    exact (h.grown_end hs₁).trans ((hf a hQ).scans_grown hd₁ hs₂).1

section

variable {α β γ δ : Type} {R : Reading α β} {Rx : Reading γ δ} {exempt : Option ScopeId}
  {s s' : Exec β}
  {c c' : Cursor} {x x' : Exec α} {m m₁ m' : Machine} {a : α} {e : Error}

/-- Whether or not the text was read to its end, the cursor is somewhere in it. -/
theorem Reading.Done.within (h : R.Done exempt s c m a m') : Within s c m'.cursor := by
  by_cases hcomplete : R.complete a
  · obtain ⟨b, _, hs⟩ := h.scans hcomplete
    exact hs.within h.grown
  · exact ⟨h.grown, h.short hcomplete⟩

theorem Failed.bind {y : Exec δ} {g : δ → Exec β} (h : Failed exempt y c m e m') :
    Failed exempt (y >>= g) c m e m' :=
  { h with
    parse := fun he => by
      obtain ⟨n, hn⟩ := h.parse he
      exact ⟨n, bind_fault hn⟩ }

namespace Honours

theorem of_fault (hx : x m = .fault e m') (h : Failed exempt s c m e m') :
    Honours R exempt s c x m where
  done h' := nomatch hx.symm.trans h'
  fault h' := by
    cases hx.symm.trans h'
    exact h

theorem of_outOfFuel (hx : x m = .outOfFuel) : Honours R exempt s c x m where
  done h := nomatch hx.symm.trans h
  fault h := nomatch hx.symm.trans h

/-! ## Sequences -/

/-- Something comes first that leaves the state as it was, and takes the counterpart to where it
goes on. -/
theorem after (hk : m.Kept exempt m₁) (hcalls : m₁.calls = m.calls) (hx : x m = x' m₁)
    (hs : s (.bare c) = s' (.bare c')) (hg : c.Grown c') (h : Honours R exempt s' c' x' m₁) :
    Honours R exempt s c x m where
  done ho := by
    have hd := h.done (hx ▸ ho)
    refine ⟨hd.sound, hk.trans hd.kept, hd.calls.trans hcalls, hd.good, hg.trans hd.grown,
      fun ha => ?_, fun ha _ _ hs' => ?_⟩
    · obtain ⟨b, hb, hs'⟩ := hd.scans ha
      exact ⟨b, hb, hs.trans hs'⟩
    · exact hd.short ha (hs.symm.trans hs')
  fault ho := by
    have hf := h.fault (hx ▸ ho)
    refine ⟨hf.sound, hk.trans hf.kept, fun he => (hf.calls he).trans hcalls, fun he => ?_,
      hf.internal⟩
    obtain ⟨n, hn⟩ := hf.parse he
    exact ⟨n, hs.trans hn⟩

/-- If the first part is left early its continuation is still about the whole text. -/
theorem bind_break {x : Exec γ} {f : γ → Exec α} {y : Exec δ} {g : δ → Exec β}
    (hx : Honours Rx exempt y c x m)
    (hf : ∀ {a b m₁}, Rx.Done exempt y c m a m₁ → Rx.complete a → Rx.twin a b →
      Honours R exempt (g b) m₁.cursor (f a) m₁)
    (hbreak : ∀ {a m₁}, Rx.Done exempt y c m a m₁ → ¬Rx.complete a →
      Honours R exempt (y >>= g) c (f a) m₁) :
    Honours R exempt (y >>= g) c (x >>= f) m := by
  cases hxm : x m with
  | done a m₁ =>
    have hd := hx.done hxm
    by_cases ha : Rx.complete a
    · obtain ⟨b, hb, hs⟩ := hd.scans ha
      exact (hf hd ha hb).after hd.kept hd.calls (bind_done hxm) (bind_done hs) hd.grown
    · exact (hbreak hd ha).after hd.kept hd.calls (bind_done hxm) rfl (.refl c)
  | fault e m₁ => exact of_fault (bind_fault hxm) (hx.fault hxm).bind
  | outOfFuel => exact of_outOfFuel (bind_outOfFuel hxm)

theorem bind {x : Exec γ} {f : γ → Exec α} {y : Exec δ} {g : δ → Exec β}
    (hx : Honours Rx exempt y c x m) (hall : ∀ a, Rx.complete a)
    (hf : ∀ {a b m₁}, Rx.Done exempt y c m a m₁ → Rx.twin a b →
      Honours R exempt (g b) m₁.cursor (f a) m₁) :
    Honours R exempt (y >>= g) c (x >>= f) m :=
  hx.bind_break (fun hd _ hb => hf hd hb) fun _ ha => absurd (hall _) ha

theorem pure {b : β} (hm : m.Sound) (hb : R.twin a b)
    (hgood : ∀ v ∈ R.values a, v.Good m.cursor.cache) (ha : R.complete a) :
    Honours R exempt (pure b) m.cursor (Pure.pure a) m where
  done h := by
    cases h
    exact ⟨hm, .refl _ _, rfl, hgood, .refl _, fun _ => ⟨b, hb, rfl⟩, fun h => absurd ha h⟩
  fault h := nomatch h

/-- A rule that is left early. -/
theorem stop (hm : m.Sound) (hw : Within s c m.cursor)
    (hgood : ∀ v ∈ R.values a, v.Good m.cursor.cache) (ha : ¬R.complete a) :
    Honours R exempt s c (Pure.pure a) m where
  done h := by
    cases h
    exact ⟨hm, .refl _ _, rfl, hgood, hw.grown, fun h => absurd h ha, fun _ => hw.grown_end⟩
  fault h := nomatch h

theorem raise (hm : m.Sound) (cause : RuntimeCause) (location : Location) :
    Honours R exempt s c (raise cause location) m :=
  of_fault rfl ⟨hm, .refl _ _, fun _ => rfl, fun h => (nomatch h), fun h => (nomatch h)⟩

theorem failParse (hm : m.Sound) (cause : ParseCause) (location : Location) :
    Honours R exempt (failParse cause location) c (Exec.failParse cause location) m :=
  of_fault rfl ⟨hm, .refl _ _, fun _ => rfl, fun h => by cases h; exact ⟨_, rfl⟩,
    fun h => (nomatch h)⟩

theorem exempting (h : Honours R none s c x m) (exempt : Option ScopeId) :
    Honours R exempt s c x m where
  done ho := { h.done ho with kept := (h.done ho).kept.exempting exempt }
  fault ho := { h.fault ho with kept := (h.fault ho).kept.exempting exempt }

/-! ## Parts that are skipped -/

/-- A part that is skipped in both cases. -/
theorem scan_bind {Q : γ → Prop} {x y : Exec γ} {f : γ → Exec α} {g : γ → Exec β}
    (h : (Link.frame m (.bare m.cursor)).Tied 0 Q x y) (hm : m.Sound)
    (hf : ∀ {a d}, Q a → (m.on d).Sound → Scans y a m.cursor d → m.cursor.Grown d →
      Honours R exempt (g a) d (f a) (m.on d)) :
    Honours R exempt (y >>= g) m.cursor (x >>= f) m := by
  cases hx : x m with
  | done a m₁ =>
    obtain ⟨d, rfl, hg, hd, hQ, hs⟩ := h.skim_done hm.inside hx
    exact (hf hQ (hm.on hg.cache_le hd) hs hg).after (.on hg.cache_le) rfl (bind_done hx)
      (bind_done hs) hg
  | fault e m₁ =>
    obtain ⟨p, d, rfl, rfl, hp, hd, hs⟩ := h.skim_fault hm.inside hx
    have hfailed : Failed exempt y m.cursor m (.parse p) (m.on d) :=
      ⟨hm.on hp hd, .on hp, fun _ => rfl, fun he => by cases he; exact hs, fun he => (nomatch he)⟩
    exact of_fault (bind_fault hx) hfailed.bind
  | outOfFuel => exact of_outOfFuel (bind_outOfFuel hx)

/-- The current scope is at hand. -/
theorem currentScope_bind {f : ScopeId → Exec α} (h : Honours R exempt s c (f m.current) m) :
    Honours R exempt s c (currentScope >>= f) m :=
  h.after (.refl _ _) rfl (show (currentScope >>= f) m = f m.current m from rfl) rfl (.refl c)

theorem scan {R : Reading β β} {Q : β → Prop} {x y : Exec β}
    (h : (Link.frame m (.bare m.cursor)).Tied 0 Q x y) (hm : m.Sound)
    (hQ : ∀ b, Q b → R.complete b ∧ R.twin b b ∧ R.values b = []) :
    Honours R exempt y m.cursor x m := by
  rw [← bind_pure x, ← bind_pure y]
  refine scan_bind h hm fun {b d} hb hsound _ _ => ?_
  obtain ⟨hcomplete, htwin, hvalues⟩ := hQ b hb
  exact pure hsound htwin (fun v hv => by rw [hvalues] at hv; cases hv) hcomplete

theorem next_bind {f : Lexeme → Exec α} {g : Lexeme → Exec β} (hm : m.Sound)
    (hf : ∀ {l d}, (m.on d).Sound → m.cursor.Grown d → d.position = m.cursor.position + 1 →
      Honours R exempt (g l) d (f l) (m.on d)) :
    Honours R exempt (next >>= g) m.cursor (next >>= f) m := by
  refine scan_bind .next hm fun {l d} _ hsound hs hg => hf hsound hg ?_
  rcases next_run (.bare m.cursor) with ⟨l', c', _, hrun⟩ | ⟨e, c', _, hrun⟩
    <;> cases hrun.symm.trans hs
  rfl

theorem rollback_bind {f : Unit → Exec α} {g : Unit → Exec β} (hm : m.Sound)
    (hpos : 0 < m.cursor.position)
    (hf : ∀ {d}, (m.on d).Sound → d = m.cursor.place (m.cursor.position - 1) →
      Honours R exempt (g ()) d (f ()) (m.on d)) :
    Honours R exempt (rollback >>= g) m.cursor (rollback >>= f) m := by
  have hle : m.cursor.position - 1 ≤ m.cursor.cache.size := Nat.le_trans (Nat.sub_le _ _) hm.inside
  exact (hf (hm.placed hle) rfl).after (.placed (m.cursor.position - 1))
    rfl (bind_done (rollback_run hpos))
    (bind_done (rollback_run (m := .bare m.cursor) hpos)) (.same _ _)

theorem peekIs_bind {p : Punct} {f : Bool → Exec α} {g : Bool → Exec β} (hm : m.Sound)
    (hf : ∀ {b d}, (m.on d).Sound → m.cursor.Grown d → Honours R exempt (g b) d (f b) (m.on d)) :
    Honours R exempt (peekIs p >>= g) m.cursor (peekIs p >>= f) m :=
  scan_bind (.peekIs p) hm fun _ hsound _ hg => hf hsound hg

theorem expect_bind {p : Punct} {f : Unit → Exec α} {g : Unit → Exec β} (hm : m.Sound)
    (hf : ∀ {d}, (m.on d).Sound → m.cursor.Grown d → Honours R exempt (g ()) d (f ()) (m.on d)) :
    Honours R exempt (expect p >>= g) m.cursor (expect p >>= f) m :=
  scan_bind (.expect p) hm fun _ hsound _ hg => hf hsound hg

/-- The text is gone through once more, by a cursor that has been further on in it already. -/
theorem shift {Q : β → Prop} (hr : Reader Q s) (hc : c.Inside) (hpos : c.position = c'.position)
    (hw : Within s c c') (h : Honours R exempt s c' x m) : Honours R exempt s c x m where
  done ho := by
    have hd := h.done ho
    refine { hd with
      grown := hw.grown.trans hd.grown, scans := fun ha => ?_, short := fun ha _ _ hs => ?_ }
    · obtain ⟨b, hb, hs⟩ := hd.scans ha
      exact ⟨b, hb, hr.scans_behind hc hpos hw.grown hw.grown_end hs⟩
    · exact hd.short ha (hr.scans_ahead hc hpos hw.grown (hw.grown_end hs) hs)
  fault ho :=
    { h.fault ho with
      parse := fun he => hr.rejects_behind hc hpos hw.grown ((h.fault ho).parse he) }

/-! ## Parts that have no text -/

theorem idle_bind {Rx : Reading γ Unit} {x : Exec γ} {f : γ → Exec α}
    (hx : Honours Rx exempt (Pure.pure ()) m.cursor x m) (hall : ∀ a, Rx.complete a)
    (hf : ∀ {a m₁}, Rx.Done exempt (Pure.pure ()) m.cursor m a m₁ → m₁.cursor = m.cursor →
      Honours R exempt s m₁.cursor (f a) m₁) :
    Honours R exempt s m.cursor (x >>= f) m := by
  refine hx.bind (g := fun _ => s) hall fun {a b m₁} hd _ => hf hd ?_
  obtain ⟨b, _, hs⟩ := hd.scans (hall a)
  exact (Machine.bare_inj (Outcome.done.inj hs).2).symm

theorem ofRuntime {b : β} (hm : m.Sound) {result : Except RuntimeCause α} {location : Location}
    (hb : ∀ a, result = .ok a → R.complete a ∧ R.twin a b ∧
      ∀ v ∈ R.values a, v.Good m.cursor.cache) :
    Honours R exempt (Pure.pure b) m.cursor (ofRuntime result location) m := by
  cases result with
  | ok a =>
    obtain ⟨hcomplete, htwin, hgood⟩ := hb a rfl
    exact pure hm htwin hgood hcomplete
  | error cause => exact raise hm cause location

/-! ## Loops -/

theorem loop {σ τ : Type} {S : Reading σ τ} {T : τ → Prop} {Q : β → Prop}
    {body : σ → Exec (Turn σ α)}
    {body' : τ → Exec (Turn τ β)} (hr : ∀ t, T t → Reader (Turn.All T Q) (body' t))
    (hT : ∀ {i t}, S.twin i t → T t)
    (hbody : ∀ {i t m}, m.Sound → S.twin i t → (∀ v ∈ S.values i, v.Good m.cursor.cache) →
      Honours (.turn S R) exempt (body' t) m.cursor (body i) m)
    {n k : Nat} (hn : n ≤ k) {i : σ} {t : τ} (hm : m.Sound) (hit : S.twin i t)
    (hgood : ∀ v ∈ S.values i, v.Good m.cursor.cache) :
    Honours R exempt (Exec.loop body' k t) m.cursor (Exec.loop body n i) m := by
  induction n generalizing k i t m with
  | zero => exact of_outOfFuel rfl
  | succ n ih =>
    cases k with
    | zero => exact absurd hn (Nat.not_succ_le_zero n)
    | succ k =>
      rw [loop_succ, loop_succ]
      refine (hbody hm hit hgood).bind_break (fun {turn turn' m₁} hd ha hb => ?_)
        (fun {turn m₁} hd ha => ?_)
      · cases turn with
        | again i' =>
          cases turn' with
          | again t' => exact ih (Nat.le_of_succ_le_succ hn) hd.sound hb hd.good
          | stop b => exact hb.elim
        | stop a =>
          cases turn' with
          | again t' => exact hb.elim
          | stop b => exact pure hd.sound hb hd.good ha
      · cases turn with
        | again i' => exact absurd trivial ha
        | stop a =>
          refine stop hd.sound
            (hd.within.bind (R := fun _ => Q) (hr t (hT hit)) hm.inside fun turn hturn => ?_)
            hd.good ha
          cases turn with
          | again t' => exact .loop hr k hturn
          | stop b => exact .pure hturn

/-- A list whose elements are executed has the same end as one whose elements are skipped. -/
theorem closedList {y : Exec γ} {x : Exec α} {values : α → List Value} {Q : γ → Prop}
    (hr : Reader Q y)
    (hx : ∀ {m}, m.Sound → Honours (.plain values) exempt y m.cursor x m) {n k : Nat} (hn : n ≤ k)
    (hm : m.Sound) :
    Honours (.plain fun as => as.flatMap values) exempt (closedList k y) m.cursor
      (Exec.closedList n x) m := by
  refine peekIs_bind hm fun {closed d} hd _ => ?_
  cases closed with
  | true => exact next_bind hd fun hd' _ _ => pure hd' trivial (fun _ hv => by cases hv) trivial
  | false =>
    refine loop (S := .plain fun as => as.flatMap values) (fun seen _ L => (hr L).listTurn seen)
      (fun _ => trivial) (fun {seen seen' m} hm _ hseen => ?_) hn hd trivial fun _ hv => by cases hv
    refine (hx hm).bind (fun _ => trivial) fun {a b m₁} hdone _ => ?_
    refine next_bind hdone.sound fun {l d} hd hg _ => ?_
    have hall : ∀ v ∈ (seen ++ [a]).flatMap values, v.Good d.cache := by
      intro v hv
      rw [List.flatMap_append, List.flatMap_singleton] at hv
      rcases List.mem_append.mp hv with hv | hv
      · exact ((hseen v hv).mono hdone.kept.cache).mono hg.cache_le
      · exact (hdone.good v hv).mono hg.cache_le
    split
    · exact pure hd trivial hall trivial
    · exact pure hd trivial hall trivial
    · exact failParse hd _ _

end Honours
end

end Replay
