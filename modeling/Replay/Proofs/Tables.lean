import Mathlib.Data.List.Infix
import Mathlib.Logic.Function.Basic
import Replay.Proofs.Arena.Chains
import Replay.Proofs.Iteration
/-!
Tables of names that are copied and merged.

A name is looked for from the front of a table, and the first that is found counts.  No table ever
has a name twice, so it does not matter that the search stops there: what is found is all there is
of the name.  A table that was copied, and then only added to and assigned to, has the names of the
first one at its front, and the values go back to where they came from.
-/

namespace Replay

/-! ## Edits -/

inductive TableEdit where
  | declare (table : Nat) (name : String) (value : Option Value)
  | set (table : Nat) (name : String) (value : Option Value)
  | copyFrom (table source : Nat)
  | updateFrom (table source : Nat)
  | clear (table : Nat)

namespace TableEdit

def table : TableEdit → Nat
  | declare i _ _ | set i _ _ | copyFrom i _ | updateFrom i _ | clear i => i

/-- Names are declared or given values, and other tables have nothing to do with it. -/
def isOwn : TableEdit → Bool
  | declare _ _ _ | set _ _ _ => true
  | copyFrom _ _ | updateFrom _ _ | clear _ => false

end TableEdit

/-- As many tables as one likes, by their numbers. -/
abbrev Tables := Nat → Bindings

namespace Tables

def empty : Tables := fun _ => Bindings.empty

/-- Whether the name could be declared, or could be found, and the tables behind the edit. -/
def edit (ts : Tables) : TableEdit → Bool × Tables
  | .declare i name value =>
    match (ts i).declare? name value with
    | some b => (true, Function.update ts i b)
    | none => (false, ts)
  | .set i name value => ((ts i).contains name, Function.update ts i ((ts i).set name value))
  | .copyFrom i source => (true, Function.update ts i (ts source))
  | .updateFrom i source => (true, Function.update ts i ((ts i).updateFrom (ts source)))
  | .clear i => (true, Function.update ts i Bindings.empty)

def run (ts : Tables) (edits : List TableEdit) : Tables :=
  edits.foldl (fun ts e => (ts.edit e).2) ts

def after (edits : List TableEdit) : Tables := empty.run edits

end Tables

/-- The names that tables were to have before an edit, and behind it: in the order in which they
were declared, and as often.  A copy was to have what its source was to have. -/
def TableEdit.asked (names : Nat → List String) : TableEdit → Nat → List String
  | declare i name _ => Function.update names i (names i ++ [name])
  | copyFrom i source => Function.update names i (names source)
  | clear i => Function.update names i []
  | set _ _ _ | updateFrom _ _ => names

def asked (edits : List TableEdit) : Nat → List String :=
  edits.foldl TableEdit.asked fun _ => []

theorem eraseDups_concat_of_mem {names : List String} {name : String} (h : name ∈ names) :
    (names ++ [name]).eraseDups = names.eraseDups := by
  have hnone : [name].removeAll names = [] := by simp [List.removeAll, h]
  rw [List.eraseDups_append, hnone, List.eraseDups_nil, List.append_nil]

theorem eraseDups_concat_of_notMem {names : List String} {name : String} (h : name ∉ names) :
    (names ++ [name]).eraseDups = names.eraseDups ++ [name] := by
  have hall : [name].removeAll names = [name] := by simp [List.removeAll, h]
  rw [List.eraseDups_append, hall]
  rfl

/-! ## One table -/

namespace Bindings

variable {b b' : Bindings} {name : String} {value : Option Value}

theorem contains_iff : b.contains name = true ↔ name ∈ b.names := by
  rw [contains, find?, List.find?_isSome, names, List.mem_map]
  simp only [beq_iff_eq]

theorem declare?_eq_none_iff : b.declare? name value = none ↔ name ∈ b.names := by
  rw [← contains_iff, declare?]
  split <;> simp [*]

theorem names_declare?_eq (h : b.declare? name value = some b') : b'.names = b.names ++ [name] := by
  rw [declare?] at h
  split at h <;> cases h
  rw [names, List.map_append]
  rfl

/-- If no name is there twice, it is the first one that is found that gets the value. -/
theorem set_eq_modify (h : b.names.Nodup) (name : String) (value : Option Value) :
    (b.set name value).toList = b.toList.modify (b.names.idxOf name) fun x => ⟨x.name, value⟩ := by
  obtain ⟨xs⟩ := b
  induction xs with
  | nil => rfl
  | cons x xs ih =>
    obtain ⟨hx, hxs⟩ := List.nodup_cons.mp h
    show _ :: (set ⟨xs⟩ name value).toList = _
    rw [names, List.map_cons, List.idxOf_cons]
    by_cases hname : x.name = name
    · have hothers : (set ⟨xs⟩ name value).toList = xs := by
        have hkept : ∀ y ∈ xs, (if y.name == name then ⟨y.name, value⟩ else y) = y := by
          intro y hy
          have hne : y.name ≠ name := fun heq => hx (hname.trans heq.symm ▸ List.mem_map_of_mem hy)
          rw [if_neg (by simpa using hne)]
        rw [set, List.map_congr_left hkept, List.map_id']
      simp [hname, hothers]
    · simp only [hname, beq_false_of_ne, ne_eq, not_false_eq_true, cond_false,
        List.modify_succ_cons]
      rw [ih hxs]
      rfl

end Bindings

/-! ## All tables -/

namespace Tables

variable {ts : Tables} {names : Nat → List String}

/-- Every table has the names that it was to have, each of them once and in order. -/
structure Ordered (ts : Tables) (names : Nat → List String) : Prop where
  names : ∀ i, (ts i).names = (names i).eraseDups
  distinct : ∀ i, (ts i).names.Nodup

namespace Ordered

theorem empty : Tables.empty.Ordered fun _ => [] := ⟨fun _ => rfl, fun _ => .nil⟩

/-- One table is another one now. -/
theorem update (h : ts.Ordered names) (i : Nat) {b : Bindings} {more : List String}
    (hb : b.names = more.eraseDups) (hdistinct : b.names.Nodup) :
    Ordered (Function.update ts i b) (Function.update names i more) where
  names j := by
    by_cases hj : j = i
    · subst hj
      rwa [Function.update_self, Function.update_self]
    · rw [Function.update_of_ne hj, Function.update_of_ne hj]
      exact h.names j
  distinct j := by
    by_cases hj : j = i
    · subst hj
      rwa [Function.update_self]
    · rw [Function.update_of_ne hj]
      exact h.distinct j

/-- One table has other values now. -/
theorem revalue (h : ts.Ordered names) (i : Nat) {b : Bindings} (hb : b.names = (ts i).names) :
    Ordered (Function.update ts i b) names := by
  have hupdate := h.update i (hb.trans (h.names i)) (hb ▸ h.distinct i)
  rwa [Function.update_eq_self] at hupdate

theorem mem_iff (h : ts.Ordered names) {i : Nat} {name : String} :
    name ∈ (ts i).names ↔ name ∈ names i := by
  rw [h.names, List.mem_eraseDups]

theorem edit (h : ts.Ordered names) (e : TableEdit) : (ts.edit e).2.Ordered (e.asked names) := by
  cases e with
  | declare i name value =>
    rw [Tables.edit]
    split
    · next b hb =>
      have hnew : name ∉ (ts i).names := fun hmem => by
        cases (Bindings.declare?_eq_none_iff.mpr hmem).symm.trans hb
      have hnames := Bindings.names_declare?_eq hb
      refine h.update i ?_ ?_
      · rw [hnames, h.names, eraseDups_concat_of_notMem (mt h.mem_iff.mpr hnew)]
      · rw [hnames, ← List.concat_eq_append]
        exact (h.distinct i).concat hnew
    · next hb =>
      have hold := h.mem_iff.mp (Bindings.declare?_eq_none_iff.mp hb)
      have hupdate :=
        h.update i ((h.names i).trans (eraseDups_concat_of_mem hold).symm) (h.distinct i)
      rwa [Function.update_eq_self] at hupdate
  | set i name value => exact h.revalue i (Bindings.names_set _ _ _)
  | copyFrom i source => exact h.update i (h.names source) (h.distinct source)
  | updateFrom i source => exact h.revalue i (Bindings.names_updateFrom _ _)
  | clear i => exact h.update i rfl .nil

theorem run (h : ts.Ordered names) (edits : List TableEdit) :
    (ts.run edits).Ordered (edits.foldl TableEdit.asked names) := by
  induction edits generalizing ts names with
  | nil => exact h
  | cons e edits ih => exact ih (h.edit e)

end Ordered

theorem ordered_after (edits : List TableEdit) : (after edits).Ordered (asked edits) :=
  Ordered.empty.run edits

theorem declare_refused_iff {i : Nat} {name : String} {value : Option Value} :
    (ts.edit (.declare i name value)).1 = false ↔ name ∈ (ts i).names := by
  have hnone : (ts i).declare? name value = none ↔ name ∈ (ts i).names :=
    Bindings.declare?_eq_none_iff
  rw [← hnone, edit]
  split <;> simp [*]

theorem edit_of_refused {i : Nat} {name : String} {value : Option Value}
    (h : (ts.edit (.declare i name value)).1 = false) :
    (ts.edit (.declare i name value)).2 = ts := by
  rw [edit] at h ⊢
  split at h
  · cases h
  · rfl

/-! ## Copies -/

theorem edit_of_ne {e : TableEdit} {i : Nat} (h : e.table ≠ i) : (ts.edit e).2 i = ts i := by
  cases e with
  | declare j name value =>
    rw [edit]
    split
    · exact Function.update_of_ne (Ne.symm h) _ _
    · rfl
  | set j name value => exact Function.update_of_ne (Ne.symm h) _ _
  | copyFrom j source => exact Function.update_of_ne (Ne.symm h) _ _
  | updateFrom j source => exact Function.update_of_ne (Ne.symm h) _ _
  | clear j => exact Function.update_of_ne (Ne.symm h) _ _

theorem names_edit_own {e : TableEdit} (h : e.isOwn = true) :
    (ts e.table).names <+: ((ts.edit e).2 e.table).names := by
  cases e with
  | declare i name value =>
    rw [edit]
    split
    · next b hb =>
      simp only [TableEdit.table, Function.update_self]
      exact Bindings.names_declare? hb
    · exact List.prefix_refl _
  | set i name value =>
    simp only [TableEdit.table, edit, Function.update_self, Bindings.names_set]
    exact List.prefix_refl _
  | copyFrom i source => cases h
  | updateFrom i source => cases h
  | clear i => cases h

/-- As long as nothing but its own is done to the copy, it has the names of the table at its
front. -/
theorem run_copied {t u : Nat} {later : List TableEdit}
    (h : ∀ e ∈ later, e.table ≠ t ∧ (e.table = u → e.isOwn = true))
    (hnames : (ts t).names <+: (ts u).names) :
    ts.run later t = ts t ∧ (ts t).names <+: (ts.run later u).names := by
  induction later generalizing ts with
  | nil => exact ⟨rfl, hnames⟩
  | cons e later ih =>
    obtain ⟨⟨htable, hown⟩, hlater⟩ := List.forall_mem_cons.mp h
    have hsame : (ts.edit e).2 t = ts t := edit_of_ne htable
    have hgrown : (ts u).names <+: ((ts.edit e).2 u).names := by
      by_cases hu : e.table = u
      · rw [← hu]
        exact names_edit_own (hown hu)
      · rw [edit_of_ne hu]
    have hrest := ih hlater (hsame ▸ hnames.trans hgrown)
    rwa [hsame] at hrest

theorem copyFrom_source (t u : Nat) : (ts.edit (.copyFrom u t)).2 t = ts t := by
  by_cases htu : t = u
  · subst htu
    exact Function.update_self _ _ _
  · exact Function.update_of_ne htu _ _

/-- What is assigned to the copies comes back. -/
theorem merged (ts : Tables) {t u : Nat} {later : List TableEdit}
    (h : ∀ e ∈ later, e.table ≠ t ∧ (e.table = u → e.isOwn = true)) :
    (ts.run (TableEdit.copyFrom u t :: (later ++ [TableEdit.updateFrom t u])) t).names =
      (ts t).names ∧
      ∀ x ∈ (ts.run (TableEdit.copyFrom u t :: (later ++ [TableEdit.updateFrom t u])) t).toList,
        (ts.run (.copyFrom u t :: later) u).find? x.name = some x := by
  have hsource : (ts.edit (.copyFrom u t)).2 t = ts t := copyFrom_source t u
  have hcopy : (ts.edit (.copyFrom u t)).2 u = ts t := Function.update_self _ _ _
  have hfront : ((ts.edit (.copyFrom u t)).2 t).names <+:
      ((ts.edit (.copyFrom u t)).2 u).names := by
    rw [hsource, hcopy]
  obtain ⟨hsame, hnames⟩ := run_copied h hfront
  rw [hsource] at hsame hnames
  have hmerged : ts.run (TableEdit.copyFrom u t :: (later ++ [TableEdit.updateFrom t u])) t =
      (ts t).updateFrom (ts.run (.copyFrom u t :: later) u) := by
    rw [run, List.foldl_cons, List.foldl_append]
    refine (Function.update_self _ _ _).trans ?_
    exact congrArg (Bindings.updateFrom · _) hsame
  rw [hmerged]
  exact ⟨Bindings.names_updateFrom _ _, fun x hx => Bindings.find?_of_mem_updateFrom hnames hx⟩

end Tables

/-- Whatever is done to any number of tables, each has the names that were declared in it, in the
order in which that was first done, and no name twice.  A declaration that is refused changes
nothing, and a value goes to the first name that is found.  If a table is copied, and then names are
declared in the copy and given values there, the table that is updated from it has the names that it
had, with the values that they have in the copy. -/
theorem tables_keep_names (edits : List TableEdit) :
    (∀ i, (Tables.after edits i).names = (asked edits i).eraseDups ∧
      (Tables.after edits i).names.Nodup) ∧
    (∀ (i : Nat) (name : String) (value : Option Value),
      (((Tables.after edits).edit (.declare i name value)).1 = false ↔
        name ∈ (Tables.after edits i).names) ∧
      (((Tables.after edits).edit (.declare i name value)).1 = false →
        ((Tables.after edits).edit (.declare i name value)).2 = Tables.after edits)) ∧
    (∀ (i : Nat) (name : String) (value : Option Value),
      ((Tables.after edits i).set name value).toList =
        (Tables.after edits i).toList.modify ((Tables.after edits i).names.idxOf name) fun x =>
          ⟨x.name, value⟩) ∧
    ∀ (t u : Nat) (later : List TableEdit),
      (∀ e ∈ later, e.table ≠ t ∧ (e.table = u → e.isOwn = true)) →
      (Tables.after
          (edits ++ TableEdit.copyFrom u t :: (later ++ [TableEdit.updateFrom t u])) t).names =
        (Tables.after edits t).names ∧
      ∀ x ∈ (Tables.after
          (edits ++ TableEdit.copyFrom u t :: (later ++ [TableEdit.updateFrom t u])) t).toList,
        (Tables.after (edits ++ TableEdit.copyFrom u t :: later) u).find? x.name = some x := by
  have hordered := Tables.ordered_after edits
  refine ⟨fun i => ⟨hordered.names i, hordered.distinct i⟩, fun i name value => ?_,
    fun i name value => ?_, fun t u later hlater => ?_⟩
  · exact ⟨Tables.declare_refused_iff, Tables.edit_of_refused⟩
  · exact Bindings.set_eq_modify (hordered.distinct i) name value
  · have hrun : ∀ more, Tables.after (edits ++ more) = (Tables.after edits).run more :=
      fun more => List.foldl_append
    rw [hrun, hrun]
    exact Tables.merged _ hlater

/-- The copy is assigned to and gets a name of its own; only the value comes back. -/
theorem tables_keep_names_iteration :
    ((Tables.after [TableEdit.declare 0 "i" none, .declare 1 "stale" none]).edit
      (.declare 0 "i" none)).1 = false ∧
      (Tables.after
        ([TableEdit.declare 0 "i" none, .declare 1 "stale" none] ++ TableEdit.copyFrom 1 0 ::
        ([TableEdit.set 1 "i" (some (.integer 1)), .declare 1 "local" (some (.boolean true))] ++
          [TableEdit.updateFrom 0 1])) 0).names = ["i"] ∧
      ∀ x ∈ (Tables.after
        ([TableEdit.declare 0 "i" none, .declare 1 "stale" none] ++ TableEdit.copyFrom 1 0 ::
        ([TableEdit.set 1 "i" (some (.integer 1)), .declare 1 "local" (some (.boolean true))] ++
          [TableEdit.updateFrom 0 1])) 0).toList,
        (Tables.after
          ([TableEdit.declare 0 "i" none, .declare 1 "stale" none] ++ TableEdit.copyFrom 1 0 ::
          [TableEdit.set 1 "i" (some (.integer 1)), .declare 1 "local" (some (.boolean true))])
        1).find? x.name =
            some x := by
  obtain ⟨-, hdeclare, -, hmerged⟩ :=
    tables_keep_names [TableEdit.declare 0 "i" none, .declare 1 "stale" none]
  have hfirst : (Tables.after [TableEdit.declare 0 "i" none, .declare 1 "stale" none] 0).names =
      ["i"] := by
    decide +kernel
  obtain ⟨hnames, hvalues⟩ := hmerged 0 1
    [TableEdit.set 1 "i" (some (.integer 1)), .declare 1 "local" (some (.boolean true))]
    (by simp [TableEdit.table, TableEdit.isOwn])
  refine ⟨(hdeclare 0 "i" none).1.mpr ?_, hnames.trans hfirst, hvalues⟩
  rw [hfirst]
  exact List.mem_singleton_self "i"

end Replay
