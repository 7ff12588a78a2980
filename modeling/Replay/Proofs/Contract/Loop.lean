import Replay.Proofs.Contract.Clause
/-!
Contracts of loops.

Every pass of a loop goes through the same text, and it may leave it at any place.  What a loop has
to keep is that its cursor never gets beyond the end of that text: then the pass that goes through
all of it, or skipping it after a `break`, ends where skipping it at once would have ended.
-/

namespace Replay

open Exec

def Reading.pass : Reading Pass Unit where
  complete
    | .exit => True
    | .leave signal => signal = .normal
    | .again => False
  twin _ _ := True
  values
    | .leave signal => Reading.signal.values signal
    | _ => []

theorem Within.place {β : Type} {s : Exec β} {c d : Cursor} (h : Within s c d) (p : Nat) :
    Within s c (d.place p) where
  grown := h.grown.place_right p
  grown_end hs := (h.grown_end hs).place_left p

theorem Within.start_le {β : Type} {s : Exec β} {c d : Cursor} (h : Within s c d) (hc : c.Inside) :
    c.position ≤ d.cache.size :=
  Nat.le_trans hc h.grown.size_le

theorem Within.nothing {β : Type} (b : β) (c : Cursor) : Within (pure b) c c :=
  Scans.within (b := b) (.refl c) rfl

theorem Reader.within_start {β : Type} {Q : β → Prop} {s : Exec β} (h : Reader Q s) {c : Cursor}
    (hc : c.Inside) :
    Within s c c where
  grown := .refl c
  grown_end hs := (h.scans_grown hc hs).1

/-- The position that is kept in the scope. -/
theorem Rules.resumePosition_run {m : Machine} {scope : ScopeId} {kind : ScopeKind} {p : Nat}
    (hkind : m.scopes.kindOf scope = some kind) (hp : kind.resume? = some p) :
    Rules.resumePosition scope m = .done p m := by
  obtain ⟨found, hfound, rfl⟩ := Option.map_eq_some_iff.mp hkind
  simp only [Rules.resumePosition, readScopes, ScopeTree.get_of_find? hfound, Bind.bind,
    Except.bind, hp, Pure.pure, Except.pure]

namespace Honours

variable {α β : Type} {R : Reading α β} {exempt : Option ScopeId} {s : Exec β} {c : Cursor}
  {m : Machine}

/-- Going back has no counterpart. -/
theorem seek_bind {p : Nat} {f : Unit → Exec α} (hm : m.Sound) (hp : p ≤ m.cursor.cache.size)
    (hf : (m.on (m.cursor.place p)).Sound → Honours R exempt s c (f ()) (m.on (m.cursor.place p))) :
    Honours R exempt s c (seek p >>= f) m :=
  (hf (hm.placed hp)).after (.placed p) rfl (bind_done (seek_run hp)) rfl (.refl c)

theorem position_bind {f : Nat → Exec α} (h : Honours R exempt s c (f m.cursor.position) m) :
    Honours R exempt s c (position >>= f) m :=
  h.after (.refl _ _) rfl (show (position >>= f) m = f m.cursor.position m from rfl) rfl (.refl c)

theorem position_bind_both {f : Nat → Exec α} {g : Nat → Exec β}
    (h : Honours R exempt (g m.cursor.position) m.cursor (f m.cursor.position) m) :
    Honours R exempt (position >>= g) m.cursor (position >>= f) m :=
  (position_bind h).after (.refl _ _) rfl rfl
    (show (position >>= g) (.bare m.cursor) = g m.cursor.position (.bare m.cursor) from
      rfl) (.refl _)

theorem resumePosition_bind {scope : ScopeId} {kind : ScopeKind} {p : Nat} {f : Nat → Exec α}
    (hkind : m.scopes.kindOf scope = some kind) (hp : kind.resume? = some p)
    (h : Honours R exempt s c (f p) m) :
    Honours R exempt s c (Rules.resumePosition scope >>= f) m :=
  h.after (.refl _ _) rfl (bind_done (Rules.resumePosition_run hkind hp)) rfl (.refl c)

/-- Wherever the cursor is in the text, another round through it can be counted from the start. -/
theorem restart {Q : β → Prop} {x : Exec α} (hr : Reader Q s) (hc : c.Inside)
    (hw : Within s c m.cursor)
    (h : Honours R exempt s (m.cursor.place c.position) x (m.on (m.cursor.place c.position))) :
    Honours R exempt s c x (m.on (m.cursor.place c.position)) :=
  h.shift hr hc (Cursor.place_position _ _).symm (hw.place _)

/-- The passes of a loop, the first of which starts at the cursor `c`. -/
theorem passes {r : Rules} {Q : Unit → Prop} {skipRest : Exec Unit} {pass : Exec Pass}
    {s : Exec Unit} (hr : Reader Q s) (hm : m.Sound)
    (hskip : ∀ {m}, m.Sound → Honours .any none s m.cursor skipRest m)
    (hpass : ∀ {m₁}, m₁.Sound → m.Kept none m₁ → m₁.cursor.position = m.cursor.position →
      Honours .pass none s m₁.cursor pass m₁) :
    Honours .signal none (s >>= fun _ => Pure.pure .normal) m.cursor
      (r.passes m.cursor.position skipRest pass) m := by
  suffices h : ∀ (n : Nat) {m₁}, m₁.Sound → m.Kept none m₁ → Within s m.cursor m₁.cursor →
      Honours .signal none (s >>= fun _ => Pure.pure .normal) m.cursor
        (Exec.loop (Rules.passTurn m.cursor.position skipRest pass) n ()) m₁ from
    h r.fuel hm (.refl _ _) (hr.within_start hm.inside)
  intro n
  induction n with
  | zero => exact fun _ _ _ => of_outOfFuel rfl
  | succ n ih =>
    intro m₁ hm₁ hk hw
    have hreader : ∀ b, Q b → Reader (· = .normal) (Pure.pure Signal.normal) := fun _ _ => .pure rfl
    rw [loop_succ, Rules.passTurn, bind_assoc]
    refine .seek_bind hm₁ (hw.start_le hm.inside) fun hm₂ => ?_
    rw [bind_assoc]
    refine (restart hr hm.inside hw (hpass hm₂ (hk.trans (.placed _)) rfl)).bind_break
      (fun {a b m₃} hd ha _ => ?_) (fun {a m₃} hd ha => ?_)
    · cases a with
      | again => exact ha.elim
      | exit => exact .pure hd.sound rfl hd.good rfl
      | leave signal =>
        cases (show signal = .normal from ha)
        exact .pure hd.sound rfl hd.good rfl
    · cases a with
      | again => exact ih hd.sound ((hk.trans (.placed _)).trans hd.kept) hd.within
      | exit => exact absurd trivial ha
      | leave signal =>
        cases signal with
        | normal => exact absurd rfl ha
        | broke location =>
          rw [Rules.settle, bind_assoc]
          refine .seek_bind hd.sound (hd.within.start_le hm.inside) fun hm₄ => ?_
          rw [bind_assoc]
          refine (restart hr hm.inside hd.within (hskip hm₄)).bind (fun _ => trivial)
            fun hd₅ _ => ?_
          exact .pure hd₅.sound rfl (fun _ hv => by cases hv) rfl
        | continued location =>
          exact .stop hd.sound (hd.within.bind hr hm.inside hreader) hd.good Signal.noConfusion
        | returned value location =>
          exact .stop hd.sound (hd.within.bind hr hm.inside hreader) hd.good Signal.noConfusion

/-- A part whose text was gone through before, and is not rejected now. -/
theorem replay_bind {γ δ : Type} {Rx : Reading γ δ} {x : Exec γ} {f : γ → Exec α} {y : Exec δ}
    {b : δ} {d : Cursor}
    (hx : Honours Rx exempt y m.cursor x m) (hall : ∀ a, Rx.complete a) (hy : Scans y b m.cursor d)
    (hf : ∀ {a m₁}, Rx.Done exempt y m.cursor m a m₁ → m₁.cursor = d →
      Honours R exempt s c (f a) m₁) :
    Honours R exempt s c (x >>= f) m := by
  cases hrun : x m with
  | done a m₁ =>
    have hd := hx.done hrun
    obtain ⟨b', _, hy'⟩ := hd.scans (hall a)
    have hcursor : m₁.cursor = d := Machine.bare_inj (Outcome.done.inj (hy'.symm.trans hy)).2
    exact (hf hd hcursor).after hd.kept hd.calls (bind_done hrun) rfl (.refl c)
  | fault e m₁ =>
    refine of_fault (bind_fault hrun) { hx.fault hrun with parse := fun he => ?_ }
    obtain ⟨n, hn⟩ := (hx.fault hrun).parse he
    cases hn.symm.trans hy
  | outOfFuel => exact of_outOfFuel (bind_outOfFuel hrun)

/-- A scope is changed in place. -/
theorem modify_bind {f : ScopeTree → Except InternalError ScopeTree} {g : Unit → Exec α}
    {t : ScopeTree} (hf : f m.scopes = .ok t) (hk : m.Kept exempt { m with scopes := t })
    (h : Honours R exempt s c (g ()) { m with scopes := t }) :
    Honours R exempt s c (changeScopes f >>= g) m := by
  have hrun : changeScopes f m = .done () { m with scopes := t } := by simp only [changeScopes, hf]
  exact h.after hk rfl (bind_done hrun) rfl (.refl c)

end Honours

namespace Rules.Faithful

variable {r : Rules} {k : Nat} {m : Machine}

/-! ## While loops -/

theorem whilePass (h : r.Faithful k) (hm : m.Sound) :
    Honours .pass none (Rules.within k).skipWhile m.cursor r.whilePass m := by
  refine (h.parenthesized hm).bind (fun _ => trivial) fun {taken b m₁} hd _ => ?_
  cases taken with
  | false =>
    refine .scan_bind (h.inStep hd.sound).bracedStatements hd.sound fun _ hd _ _ => ?_
    exact .pure hd trivial good_nil trivial
  | true =>
    refine (h.bracedStatements hd.sound).bind_break (fun {signal b m₂} hd ha _ => ?_)
      (fun {signal m₂} hd' ha => ?_)
    · cases (show signal = .normal from ha)
      exact .stop hd.sound (.nothing _ _) good_nil id
    · have hw := hd'.within.bind (R := fun _ _ => True) (f := fun _ => pure ())
        (fun L => (Rules.within_reads k L).bracedStatements) hd.sound.inside fun _ _ =>
        .pure trivial
      cases signal with
      | normal => exact absurd rfl ha
      | continued location => exact .stop hd'.sound hw good_nil id
      | broke location => exact .stop hd'.sound hw hd'.good ha
      | returned value location => exact .stop hd'.sound hw hd'.good ha

theorem skipWhile (h : r.Faithful k) (hm : m.Sound) :
    Honours .any none (Rules.within k).skipWhile m.cursor r.skipWhile m :=
  .scan (h.inStep hm).skipWhile hm fun _ _ => ⟨trivial, trivial, rfl⟩

theorem whileLoop (h : r.Faithful k) (hm : m.Sound) :
    Honours .signal none ((Rules.within k).whileLoop .skip) m.cursor (r.whileLoop .execute) m := by
  refine .position_bind_both ?_
  refine .passes (fun L => (Rules.within_reads k L).skipWhile) hm h.skipWhile fun {m₁} hm₁ _ _ => ?_
  refine .currentScope_bind (.inChild hm₁ hm₁.current _ fun {id m₂} hm₂ _ hcursor => ?_)
  rw [← hcursor]
  exact (h.whilePass hm₂).exempting _

/-! ## Do loops -/

theorem doCondition (h : r.Faithful k) (hm : m.Sound) :
    Honours .any none ((Rules.within k).doCondition .skip) m.cursor (r.doCondition .execute) m := by
  refine .scan_bind (.expectKeyword _) hm fun _ hd _ _ => ?_
  refine (h.parenthesized hd).bind (fun _ => trivial) fun hd _ => ?_
  exact .expect_bind hd.sound fun hd _ => .pure hd trivial good_nil trivial

theorem doPassEnd (h : r.Faithful k) (hm : m.Sound) :
    Honours .pass none ((Rules.within k).doCondition .skip >>= fun _ => pure ()) m.cursor
      r.doPassEnd m := by
  refine (h.doCondition hm).bind (fun _ => trivial) fun {holds b m₁} hd _ => ?_
  cases holds with
  | true => exact .stop hd.sound (.nothing _ _) good_nil id
  | false => exact .pure hd.sound trivial good_nil trivial

/-- After `continue` the rest of the body is skipped, from its start on. -/
theorem doPass (h : r.Faithful k) (hm : m.Sound) {scope : ScopeId}
    (hkind : m.scopes.kindOf scope = some (.doWhile m.cursor.position)) :
    Honours .pass none (Rules.within k).skipDo m.cursor (r.doPass scope) m := by
  refine (h.bracedStatements hm).bind_break (fun {signal b m₁} hd ha _ => ?_)
    (fun {signal m₁} hd ha => ?_)
  · cases (show signal = .normal from ha)
    exact h.doPassEnd hd.sound
  · have hw : Within (Rules.within k).skipDo m.cursor m₁.cursor :=
      hd.within.bind (R := fun _ _ => True)
        (fun L => (Rules.within_reads k L).bracedStatements) hm.inside
        fun _ _ L => (Rules.within_reads k L).doCondition.bind fun _ _ => .pure trivial
    cases signal with
    | normal => exact absurd rfl ha
    | continued location =>
      have hentry := Nat.le_trans hm.inside hd.grown.size_le
      simp only [Rules.resumePastBody, bind_assoc, pure_bind]
      refine .resumePosition_bind
        ((hd.kept.kinds scope (Option.some_ne_none _).symm).trans hkind) rfl ?_
      refine .seek_bind hd.sound hentry fun hm₂ => ?_
      refine Honours.shift (fun L => (Rules.within_reads k L).skipDo) hm.inside
        (Cursor.place_position _ _).symm
        (hw.place _) ?_
      refine .scan_bind (h.inStep hm₂).bracedStatements hm₂ fun _ hd _ _ => ?_
      exact h.doPassEnd hd
    | broke location => exact .stop hd.sound hw hd.good ha
    | returned value location => exact .stop hd.sound hw hd.good ha

theorem skipDo (h : r.Faithful k) (hm : m.Sound) :
    Honours .any none (Rules.within k).skipDo m.cursor r.skipDo m :=
  .scan (h.inStep hm).skipDo hm fun _ _ => ⟨trivial, trivial, rfl⟩

theorem doLoop (h : r.Faithful k) (hm : m.Sound) :
    Honours .signal none ((Rules.within k).doLoop .skip) m.cursor (r.doLoop .execute) m := by
  refine .position_bind_both ?_
  refine .passes (fun L => (Rules.within_reads k L).skipDo) hm h.skipDo fun {m₁} hm₁ _ hpos => ?_
  refine .currentScope_bind (.inChild hm₁ hm₁.current _ fun {id m₂} hm₂ hkind hcursor => ?_)
  rw [← hpos, ← hcursor] at hkind
  rw [← hcursor]
  exact (h.doPass hm₂ hkind).exempting _

/-! ## For loops -/

theorem forInitializer (h : r.Faithful k) (hm : m.Sound) :
    Honours .any none ((Rules.within k).forInitializer .skip) m.cursor
      (r.forInitializer .execute) m := by
  have hend {m : Machine} (hm : m.Sound) :
      Honours .any none (expect .semicolon) m.cursor (expect .semicolon) m :=
    .scan (.expect _) hm fun _ _ => ⟨trivial, trivial, rfl⟩
  refine .scan_bind .peek hm fun {ahead d} _ hd _ _ => ?_
  split
  · refine .next_bind hd fun hd _ _ => ?_
    exact (h.declaration hd).bind (fun _ => trivial) fun hd _ => hend hd.sound
  · exact hend hd
  · exact (h.expression hd).bind (fun _ => trivial) fun hd _ => hend hd.sound

theorem forCondition (h : r.Faithful k) (hm : m.Sound) :
    Honours .any none ((Rules.within k).forCondition .skip) m.cursor
      (r.forCondition .execute) m := by
  refine .scan_bind .peek hm fun {start d} _ hd _ _ => ?_
  split
  · exact .expect_bind hd fun hd _ => .pure hd trivial good_nil trivial
  · refine (h.expression hd).bind (fun _ => trivial) fun {value b m₁} hd _ => ?_
    refine (Honours.ofRuntime (R := .any) (b := ()) hd.sound fun _ _ =>
      ⟨trivial, trivial, good_nil⟩).idle_bind
      (fun _ => trivial) fun hd _ => ?_
    exact .expect_bind hd.sound fun hd _ => .pure hd trivial good_nil trivial

theorem forIncrement (h : r.Faithful k) (hm : m.Sound) :
    Honours .any none ((Rules.within k).forIncrement .skip) m.cursor
      (r.forIncrement .execute) m := by
  have hend {m : Machine} (hm : m.Sound) :
      Honours .any none (expect .rightParen) m.cursor (expect .rightParen) m :=
    .scan (.expect _) hm fun _ _ => ⟨trivial, trivial, rfl⟩
  refine .peekIs_bind hm fun {closed d} hd _ => ?_
  cases closed with
  | true => exact hend hd
  | false => exact (h.expression hd).bind (fun _ => trivial) fun hd _ => hend hd.sound

/-- The increment was skipped from `c` to `d` at the start of the pass.  Evaluating it reads nothing
new. -/
theorem forAdvance (h : r.Faithful k) (hm : m.Sound) {scope : ScopeId} {s : Exec Unit}
    {c c' d : Cursor} (hw : Within s c' m.cursor) (hc : c.Inside)
    (hs : Scans ((Rules.within k).forIncrement .skip) () c d)
    (hd : d.cache.toList <+: m.cursor.cache.toList)
    (hkind : m.scopes.kindOf scope = some (.loop c.position)) :
    Honours .pass none s c' (r.forAdvance scope) m := by
  have hr : Reader (fun _ => True) ((Rules.within k).forIncrement .skip) :=
    fun L => (Rules.within_reads k L).forIncrement
  have hle : c.position ≤ m.cursor.cache.size :=
    Nat.le_trans hc (Nat.le_trans (hr.scans_grown hc hs).1.size_le (size_le_of_cache_le hd))
  refine .resumePosition_bind hkind rfl ?_
  refine .seek_bind hm hle fun hm₁ => ?_
  refine (h.forIncrement hm₁).replay_bind (fun _ => trivial) (hr.scans_cached hc hd hs) fun {_ m₂}
    hd₂ hcursor => ?_
  exact .stop hd₂.sound (hcursor ▸ hw.place _) good_nil id

theorem forBody (h : r.Faithful k) (hm : m.Sound) {scope : ScopeId} (holds : Bool)
    (hkind : m.scopes.kindOf scope = some (.loop m.cursor.position)) :
    Honours .pass none ((Rules.within k).forIncrement .skip >>= fun _ =>
      (Rules.within k).bracedStatements .skip >>= fun _ => pure ()) m.cursor
    (r.forBody scope holds) m := by
  refine .scan_bind (h.inStep hm).forIncrement hm fun {_ d} _ hd hs hg => ?_
  cases holds with
  | false =>
    refine .scan_bind (h.inStep hd).bracedStatements hd fun _ hd _ _ => ?_
    exact .pure hd trivial good_nil trivial
  | true =>
    refine (h.bracedStatements hd).bind_break (fun {signal b m₁} hd₁ ha _ => ?_)
      (fun {signal m₁} hd₁ ha => ?_)
    · cases (show signal = .normal from ha)
      have hkind₁ := (hd₁.kept.kinds scope (Option.some_ne_none _).symm).trans hkind
      exact h.forAdvance hd₁.sound (.nothing _ _) hm.inside hs hd₁.kept.cache hkind₁
    · have hw : Within ((Rules.within k).bracedStatements .skip >>= fun _ => pure ()) d m₁.cursor :=
        hd₁.within.bind (R := fun _ _ => True)
          (fun L => (Rules.within_reads k L).bracedStatements) hd.inside
          fun _ _ => .pure trivial
      cases signal with
      | normal => exact absurd rfl ha
      | continued location =>
        have hkind₁ := (hd₁.kept.kinds scope (Option.some_ne_none _).symm).trans hkind
        exact h.forAdvance hd₁.sound hw hm.inside hs hd₁.kept.cache hkind₁
      | broke location => exact .stop hd₁.sound hw hd₁.good ha
      | returned value location => exact .stop hd₁.sound hw hd₁.good ha

/-- The pass changes the kind of its own scope. -/
theorem forPass (h : r.Faithful k) (hm : m.Sound) {scope : ScopeId}
    (hscope : m.scopes.contains scope = true) :
    Honours .pass (some scope) (Rules.within k).skipForRest m.cursor (r.forPass scope) m := by
  refine ((h.forCondition hm).exempting _).bind (fun _ => trivial) fun {holds b m₁} hd _ => ?_
  refine .position_bind ?_
  obtain ⟨found, hfound⟩ := ScopeTree.contains_iff.mp (hd.kept.contains hscope)
  obtain ⟨t, hok, hput⟩ := ScopeTree.modify_put hfound fun s =>
    { s with kind := .loop m₁.cursor.position }
  have hgood := hd.sound.bindings hfound
  obtain ⟨hsound, hk⟩ := Machine.put_kept hd.sound hfound hput rfl rfl (.inr rfl) hgood
  refine .modify_bind hok hk ((h.forBody hsound holds ?_).exempting _)
  show t.kindOf scope = _
  rw [ScopeTree.kindOf, hput.find?, if_pos rfl]
  rfl

theorem forCopyPass (h : r.Faithful k) (hm : m.Sound) {init scope : ScopeId}
    (hinit : m.scopes.contains init = true) (hscope : m.scopes.contains scope = true) :
    Honours .pass (some scope) (Rules.within k).skipForRest m.cursor
      (r.forCopyPass init scope) m := by
  obtain ⟨t, hcopy, hsound, hk⟩ := Machine.copyBindings_kept hm hinit hscope (some scope)
  refine .modify_bind hcopy hk ?_
  have hpass : Honours .pass (some scope) (Rules.within k).skipForRest m.cursor
      (inScope scope (r.forPass scope)) { m with scopes := t } := by
    have hinside : { m with scopes := t, current := scope }.Sound :=
      { hsound with current := hk.contains hscope }
    exact .inScope hsound (h.forPass hinside (hk.contains hscope))
  rw [← bind_pure (Rules.within k).skipForRest]
  refine hpass.bind_break (fun {pass b m₁} hd ha _ => ?_) (fun {pass m₁} hd ha => ?_)
  · cases pass with
    | again => exact ha.elim
    | exit => exact .pure hd.sound trivial hd.good ha
    | leave signal => exact .pure hd.sound trivial hd.good ha
  · have hw : Within ((Rules.within k).skipForRest >>= pure) m.cursor m₁.cursor := by
      rw [bind_pure]
      exact hd.within
    cases pass with
    | exit => exact absurd trivial ha
    | leave signal => exact .stop hd.sound hw hd.good ha
    | again =>
      have hinit₁ := hd.kept.contains (hk.contains hinit)
      have hscope₁ := hd.kept.contains (hk.contains hscope)
      obtain ⟨t₁, hback, hsound₁, hk₁⟩ :=
        Machine.writeBack_kept hd.sound hscope₁ hinit₁ (some scope)
      exact .modify_bind hback hk₁ (.stop hsound₁ hw good_nil id)

theorem skipForRest (h : r.Faithful k) (hm : m.Sound) :
    Honours .any none (Rules.within k).skipForRest m.cursor r.skipForRest m :=
  .scan (h.inStep hm).skipForRest hm fun _ _ => ⟨trivial, trivial, rfl⟩

theorem forPasses (h : r.Faithful k) (hm : m.Sound) {init : ScopeId}
    (hinit : m.scopes.contains init = true) :
    Honours .signal none ((Rules.within k).skipForRest >>= fun _ => pure .normal) m.cursor
      (r.forPasses init) m := by
  refine .position_bind ?_
  refine .passes (fun L => (Rules.within_reads k L).skipForRest) hm h.skipForRest fun {m₁}
    hm₁ hk _ => ?_
  refine .withChild hm₁ (hk.contains hinit) _ fun {p id t} hp hc hsound => ?_
  exact h.forCopyPass hsound (hc.contains hp (hk.contains hinit))
    (ScopeTree.contains_of_find? hc.find?_self)

theorem forLoop (h : r.Faithful k) (hm : m.Sound) :
    Honours .signal none ((Rules.within k).forLoop .skip) m.cursor (r.forLoop .execute) m := by
  refine .expect_bind hm fun {d} hd _ => ?_
  refine .currentScope_bind (.inChild hd hd.current _ fun {id m₁} hm₁ hkind hcursor => ?_)
  have hinit : m₁.scopes.contains id = true := by
    obtain ⟨found, hfound, _⟩ := Option.map_eq_some_iff.mp hkind
    exact ScopeTree.contains_of_find? hfound
  rw [← hcursor]
  refine Honours.exempting ?_ _
  exact (h.forInitializer hm₁).bind (fun _ => trivial) fun hd _ =>
    h.forPasses hd.sound (hd.kept.contains hinit)

end Rules.Faithful
end Replay
