import Mathlib.Data.List.TakeWhile
import Mathlib.Data.Nat.Digits.Lemmas
import Mathlib.Tactic.NormNum
import Mathlib.Tactic.Ring
import Replay.Proofs.Escapes
/-!
The numbers that integer literals denote.

A digit counts for as much as its place says: the last one for itself, and each of the others for
the base times more than the next one would in its place.  A leading zero makes the base eight and a
base mark behind it makes it sixteen.  However long the literal is, it is refused only if the number
is too large, or if there is a digit in it that the base does not have.
-/

namespace Replay

/-! ## Places -/

/-- The number that digits denote in a base. -/
def positional (base : ℕ) : List Char → ℕ
  | [] => 0
  | c :: cs => hexValue c * base ^ cs.length + positional base cs

structure HexDigits where
  first : Char
  others : List Char
  digits : ∀ c ∈ first :: others, HexDigit c

def HexDigits.text (h : HexDigits) : List Char := h.first :: h.others

/-- A leading zero that is not all of the number announces octal digits. -/
def Digits.base (w : Digits) : ℕ :=
  if w.first = '0' ∧ w.others ≠ [] then 8 else 10

/-- The digits of a number in a base, with any number of zeros before them. -/
def Renders (base n : ℕ) (text : List Char) : Prop :=
  (∀ c ∈ text, HexDigit c) ∧
    ∃ zeros, text.map hexValue = List.replicate zeros 0 ++ (Nat.digits base n).reverse

/-- All of the text is one item, and this is what it is. -/
def ReadsAlone (text : List Char) (result : Except Lexer.Fault Token) : Prop :=
  (Lexer.ofSource (String.ofList text)).items.1 = [⟨.start, text, result⟩]

/-- A literal that is malformed only if it is flawed or its value is too large, and else is its
value. -/
structure Denotes (result : Except Lexer.Fault Token) (flawed : Prop) (value : ℕ) : Prop where
  malformed : result = .error (.malformed .integer) ↔ flawed ∨ value > 2 ^ 63 - 1
  integer : ¬flawed → value ≤ 2 ^ 63 - 1 → ∃ n : Int64, n.toInt = value ∧ result = .ok (.integer n)

namespace Lexer

/-! ## Values -/

def InBase (base : ℕ) (digits : List Char) : Prop :=
  ∀ c ∈ digits, HexDigit c ∧ hexValue c < base

instance (base : ℕ) (digits : List Char) : Decidable (InBase base digits) :=
  List.decidableBAll _ digits

theorem inBase_cons {base : ℕ} {c : Char} {digits : List Char} :
    InBase base (c :: digits) ↔ (HexDigit c ∧ hexValue c < base) ∧ InBase base digits :=
  List.forall_mem_cons

theorem readDigit_eq (base n : ℕ) (c : Char) :
    (do let d ← digitValue? c; if d < base then some (n * base + d) else none) =
      if HexDigit c ∧ hexValue c < base then some (n * base + hexValue c) else none := by
  rw [digitValue?_eq]
  by_cases hc : HexDigit c <;> simp [hc]

/-- What has been read so far moves up by as many places as there are digits left. -/
theorem readDigits_eq (base n : ℕ) (digits : List Char) :
    digits.foldlM (fun n c => do
      let d ← digitValue? c
      if d < base then some (n * base + d) else none) n =
        if InBase base digits then some
          (n * base ^ digits.length + positional base digits) else none := by
  induction digits generalizing n with
  | nil => simp [InBase, positional]
  | cons c digits ih =>
    rw [List.foldlM_cons, readDigit_eq]
    by_cases hc : HexDigit c ∧ hexValue c < base
    · have hplace : n * base ^ (c :: digits).length + positional base (c :: digits) =
          (n * base + hexValue c) * base ^ digits.length + positional base digits := by
        rw [positional, List.length_cons]
        ring
      rw [if_pos hc, hplace]
      refine (ih _).trans ?_
      simp only [inBase_cons, hc, true_and]
    · rw [if_neg hc, if_neg fun h => hc (inBase_cons.mp h).1]
      rfl

theorem natOfDigits?_eq (base : ℕ) (digits : List Char) :
    natOfDigits? base digits =
      if InBase base digits then some (positional base digits) else none := by
  have hzero := readDigits_eq base 0 digits
  rwa [Nat.zero_mul, Nat.zero_add] at hzero

theorem integerOfDigits?_eq (base : ℕ) (digits : List Char) :
    integerOfDigits? base digits =
      if InBase base digits ∧
      positional base digits ≤ 2 ^ 63 - 1 then some (Int64.ofNat (positional base digits))
      else none := by
  have hbound : positional base digits < 1 <<< 63 ↔ positional base digits ≤ 2 ^ 63 - 1 := by
    have hshift : (1 <<< 63 : ℕ) = 2 ^ 63 := rfl
    omega
  rw [integerOfDigits?, natOfDigits?_eq]
  by_cases hdigits : InBase base digits
  · simp only [hdigits, if_true, Option.bind_eq_bind, Option.bind_some, hbound, true_and]
  · simp only [hdigits, if_false, Option.bind_eq_bind, Option.bind_none, false_and]

/-- An integer literal is read as its number if there is one. -/
theorem readNumber_denotes {base : ℕ} {digits : List Char} {flawed : Prop}
    (h : InBase base digits ↔ ¬flawed) :
    ∃ result, readNumber .integer .integer (integerOfDigits? base digits) = .item result [] ∧
      Denotes result flawed (positional base digits) := by
  rw [integerOfDigits?_eq]
  by_cases hgood : InBase base digits ∧ positional base digits ≤ 2 ^ 63 - 1
  · have hvalue : (Int64.ofNat (positional base digits)).toInt = positional base digits :=
      Int64.toInt_ofNat_of_lt (Nat.lt_of_le_sub_one (by decide) hgood.2)
    rw [if_pos hgood]
    refine ⟨_, rfl, ⟨(fun heq => by cases heq), fun hbad => ?_⟩, fun _ _ => ⟨_, hvalue, rfl⟩⟩
    rcases hbad with hflawed | hlarge
    · exact absurd hflawed (h.mp hgood.1)
    · exact absurd hgood.2 (not_le.mpr hlarge)
  · rw [if_neg hgood]
    refine ⟨_, rfl, ⟨fun _ => ?_, fun _ => rfl⟩,
      fun hflawed hvalue => absurd ⟨h.mpr hflawed, hvalue⟩ hgood⟩
    by_cases hflawed : flawed
    · exact .inl hflawed
    · exact .inr (not_le.mp fun hvalue => hgood ⟨h.mpr hflawed, hvalue⟩)

/-! ## Texts that are one number -/

theorem readsAlone {c : Char} {cs : List Char} {pattern : Pattern} {result : Except Fault Token}
    {warnings : List Warning} (hp : recognise c cs = (pattern, cs))
    (hr : read .start pattern (c :: cs) = .item result warnings) : ReadsAlone (c :: cs) result := by
  have hnext := next_of_item (l := ofSource (String.ofList (c :: cs))) String.toList_ofList hp hr
  rw [ReadsAlone, items_of_next_some hnext, items_of_rest_nil List.drop_length]
  rfl

/-- Digits with nothing behind them are a whole number. -/
theorem recognise_digits {c : Char} {cs : List Char} (h : ∀ d ∈ c :: cs, d.isDigit = true) :
    recognise c cs = (.decimal, cs) := by
  obtain ⟨hc, hcs⟩ := List.forall_mem_cons.mp h
  have hhex : hexTail? cs = none := by
    cases cs with
    | nil => rfl
    | cons d cs => exact hexTail?_of_ne (ne_x_of_digit (hcs d List.mem_cons_self)) cs
  rw [recognise_digit hc]
  simp only [number, hhex, ite_self, List.takeWhile_eq_self_iff.mpr hcs,
    List.dropWhile_eq_nil_iff.mpr hcs]
  rfl

theorem isHexDigit_of {c : Char} (h : HexDigit c) : isHexDigit c = true := by
  simp only [isHexDigit, Bool.or_eq_true, isDigit_iff, Bool.and_eq_true, decide_eq_true_eq]
  exact or_assoc.mpr h

theorem recognise_hexadecimal {x : Char} (hx : x = 'x' ∨ x = 'X') {c : Char} {cs : List Char}
    (h : ∀ d ∈ c :: cs, HexDigit d) :
    recognise '0' (x :: c :: cs) = (.hexadecimal, x :: c :: cs) := by
  have hdigits : ∀ d ∈ c :: cs, isHexDigit d = true := fun d hd => isHexDigit_of (h d hd)
  have hmark : (x = 'x' || x = 'X') = true := by simpa using hx
  have hhex : hexTail? (x :: c :: cs) = some (x :: c :: cs) := by
    rw [hexTail?, hmark, List.head?_cons, Option.any_some, hdigits c List.mem_cons_self,
      List.takeWhile_eq_self_iff.mpr hdigits]
    rfl
  rw [recognise_digit (by decide)]
  simp only [number, if_true, hhex]

theorem hexValue_digit {c : Char} (h : IsDigit c) :
    HexDigit c ∧ hexValue c < 10 ∧ (hexValue c < 8 ↔ ¬(c = '8' ∨ c = '9')) := by
  have hle (a b : Char) : a ≤ b ↔ a.toNat ≤ b.toNat := Iff.rfl
  have heq (a b : Char) : a = b ↔ a.toNat = b.toNat := Char.toNat_inj.symm
  refine ⟨.inl h, ?_⟩
  rw [hexValue, if_pos h.2]
  rw [IsDigit, hle, hle] at h
  rw [heq, heq]
  simp only [Char.reduceToNat] at h ⊢
  omega

/-- Only octal digits can be of the wrong base. -/
theorem inBase_digits (w : Digits) :
    InBase w.base w.text ↔ ¬(w.base = 8 ∧ ∃ c ∈ w.text, c = '8' ∨ c = '9') := by
  have hdigit : ∀ c ∈ w.text, _ := fun c hc => hexValue_digit (w.digits c hc)
  by_cases hoctal : w.first = '0' ∧ w.others ≠ []
  · have hbase : w.base = 8 := if_pos hoctal
    rw [hbase]
    constructor
    · rintro h ⟨-, c, hc, hbad⟩
      exact (hdigit c hc).2.2.mp (h c hc).2 hbad
    · exact fun h c hc => ⟨(hdigit c hc).1, (hdigit c hc).2.2.mpr fun hbad => h ⟨rfl, c, hc, hbad⟩⟩
  · have hbase : w.base = 10 := if_neg hoctal
    rw [hbase]
    exact ⟨fun _ h => absurd h.1 (by decide), fun _ c hc => ⟨(hdigit c hc).1, (hdigit c hc).2.1⟩⟩

theorem integerOfDigits?_zero {base : ℕ} (h : 0 < base) (digits : List Char) :
    integerOfDigits? base ('0' :: digits) = integerOfDigits? base digits := by
  have hvalue : hexValue '0' = 0 := rfl
  have hzero : HexDigit '0' := by decide
  simp only [integerOfDigits?_eq, inBase_cons, positional, hvalue, hzero, h, true_and, Nat.zero_mul,
    Nat.zero_add]

theorem decimalValue?_eq (w : Digits) : decimalValue? w.text = integerOfDigits? w.base w.text := by
  rw [Digits.text, decimalValue?.eq_def]
  split
  · next c cs heq =>
    obtain ⟨hfirst, hothers⟩ := List.cons.inj heq
    have hbase : w.base = 8 := if_pos ⟨hfirst, by simp [hothers]⟩
    rw [hbase, hfirst, hothers, integerOfDigits?_zero (by decide)]
  · next hother =>
    have hbase : w.base = 10 := by
      refine if_neg fun hoctal => ?_
      obtain ⟨d, ds, hothers⟩ := List.exists_cons_of_ne_nil hoctal.2
      exact hother d ds (by rw [hoctal.1, hothers])
    rw [hbase]

theorem digits_denote (w : Digits) : ∃ result, ReadsAlone w.text result ∧
    Denotes result (w.base = 8 ∧ ∃ c ∈ w.text, c = '8' ∨ c = '9') (positional w.base w.text) := by
  obtain ⟨result, hread, hdenotes⟩ := readNumber_denotes (inBase_digits w)
  rw [← decimalValue?_eq] at hread
  exact ⟨result,
    readsAlone (recognise_digits fun c hc => isDigit_of (w.digits c hc)) hread, hdenotes⟩

theorem hexDigits_denote (h : HexDigits) {x : Char} (hx : x = 'x' ∨ x = 'X') :
    ∃ result, ReadsAlone ('0' :: x :: h.text) result ∧
      Denotes result False (positional 16 h.text) := by
  have hbase : InBase 16 h.text ↔ ¬False :=
    ⟨fun _ => not_false, fun _ c hc => ⟨h.digits c hc, hexValue_lt (h.digits c hc)⟩⟩
  obtain ⟨result, hread, hdenotes⟩ := readNumber_denotes hbase
  exact ⟨result, readsAlone (recognise_hexadecimal hx h.digits) hread, hdenotes⟩

end Lexer

/-! ## Renderings -/

theorem positional_eq_ofDigits (base : ℕ) (text : List Char) :
    positional base text = Nat.ofDigits base (text.map hexValue).reverse := by
  induction text with
  | nil => rfl
  | cons c text ih =>
    rw [positional, ih, List.map_cons, List.reverse_cons, Nat.ofDigits_append,
      Nat.ofDigits_singleton, List.length_reverse, List.length_map]
    ring

namespace Renders

variable {base n : ℕ} {text : List Char}

/-- Zeros before a number do not change it. -/
theorem positional_eq (h : Renders base n text) : positional base text = n := by
  obtain ⟨-, zeros, hdigits⟩ := h
  rw [positional_eq_ofDigits, hdigits, List.reverse_append, List.reverse_reverse,
    List.reverse_replicate, Nat.ofDigits_append_replicate_zero, Nat.ofDigits_digits]

theorem hexValue_lt (h : Renders base n text) (hbase : 1 < base) :
    ∀ c ∈ text, hexValue c < base := by
  obtain ⟨-, zeros, hdigits⟩ := h
  intro c hc
  have hmem : hexValue c ∈ List.replicate zeros 0 ++ (Nat.digits base n).reverse :=
    hdigits ▸ List.mem_map_of_mem hc
  rcases List.mem_append.mp hmem with hzero | hdigit
  · rw [List.eq_of_mem_replicate hzero]
    exact Nat.zero_lt_of_lt hbase
  · exact Nat.digits_lt_base hbase (List.mem_reverse.mp hdigit)

end Renders

theorem isDigit_of_hexValue_lt {c : Char} (h : HexDigit c) (hc : hexValue c < 10) : IsDigit c := by
  have hle (a b : Char) : a ≤ b ↔ a.toNat ≤ b.toNat := Iff.rfl
  unfold HexDigit at h
  unfold hexValue at hc
  unfold IsDigit
  simp only [hle, Char.reduceToNat] at h hc ⊢
  split at hc
  · omega
  · split at hc <;> omega

theorem Denotes.eq_integer {result : Except Lexer.Fault Token} {flawed : Prop} {value : ℕ}
    (h : Denotes result flawed value) (hflawed : ¬flawed) {k : Int64} (hk : k.toInt = value) :
    result = .ok (.integer k) := by
  have hle : value ≤ 2 ^ 63 - 1 := by
    have hlt := k.toInt_lt
    omega
  obtain ⟨n, hn, rfl⟩ := h.integer hflawed hle
  rw [Int64.toInt_inj.mp (hn.trans hk.symm)]

section

variable {k : Int64} {n : ℕ} {text : List Char}

theorem readsAlone_decimal (hk : k.toInt = n) :
    ReadsAlone (Nat.toDigits 10 n) (.ok (.integer k)) := by
  have hnonneg : 0 ≤ k := by
    rw [Int64.le_iff_toInt_le, hk]
    exact Int.natCast_nonneg n
  have hn : k.toNatClampNeg = n := by
    rw [Int64.toNatClampNeg, hk, Int.toNat_natCast]
  have hvalue := Lexer.decimalValue?_toDigits hnonneg
  have hdigits : ∀ c ∈ Nat.toDigits 10 n, c.isDigit = true := fun c hc =>
    Nat.isDigit_of_mem_toDigits (by decide) (by decide) hc
  rw [hn] at hvalue
  cases htext : Nat.toDigits 10 n with
  | nil => exact absurd htext Nat.toDigits_ne_nil
  | cons c cs =>
    rw [htext] at hvalue hdigits
    have hread : Lexer.read .start .decimal (c :: cs) = .item (.ok (.integer k)) [] := by
      simp only [Lexer.read, Lexer.readNumber, hvalue]
    exact Lexer.readsAlone (Lexer.recognise_digits hdigits) hread

theorem readsAlone_octal (hk : k.toInt = n) (hne : text ≠ []) (h : Renders 8 n text) :
    ReadsAlone ('0' :: text) (.ok (.integer k)) := by
  have hdigits : ∀ c ∈ '0' :: text, IsDigit c := by
    refine List.forall_mem_cons.mpr ⟨⟨by decide, by decide⟩, fun c hc => ?_⟩
    exact isDigit_of_hexValue_lt (h.1 c hc) ((h.hexValue_lt (by decide) c hc).trans (by decide))
  have hbase : Digits.base ⟨'0', text, hdigits⟩ = 8 := if_pos ⟨rfl, hne⟩
  have hvalue : positional 8 ('0' :: text) = n := by
    have hzero : hexValue '0' = 0 := rfl
    rw [positional, hzero, Nat.zero_mul, Nat.zero_add, h.positional_eq]
  obtain ⟨result, hresult, hdenotes⟩ := Lexer.digits_denote ⟨'0', text, hdigits⟩
  have hoctal : Lexer.InBase 8 ('0' :: text) :=
    Lexer.inBase_cons.mpr ⟨by decide, fun c hc => ⟨h.1 c hc, h.hexValue_lt (by decide) c hc⟩⟩
  have hgood := (Lexer.inBase_digits ⟨'0', text, hdigits⟩).mp (hbase ▸ hoctal)
  rw [hbase] at hdenotes hgood
  rw [hdenotes.eq_integer hgood (by rw [hk]; exact congrArg _ hvalue.symm)] at hresult
  exact hresult

theorem readsAlone_hexadecimal (hk : k.toInt = n) (hne : text ≠ [])
    (h : Renders 16 n text) {x : Char}
    (hx : x = 'x' ∨ x = 'X') : ReadsAlone ('0' :: x :: text) (.ok (.integer k)) := by
  obtain ⟨c, cs, rfl⟩ := List.exists_cons_of_ne_nil hne
  obtain ⟨result, hresult, hdenotes⟩ := Lexer.hexDigits_denote ⟨c, cs, h.1⟩ hx
  rw [hdenotes.eq_integer not_false (by rw [hk]; exact congrArg _ h.positional_eq.symm)] at hresult
  exact hresult

end

/-- Integer literals denote what their digits say.  Digits alone are one item, and so are
hexadecimal digits behind their mark: the number that is written if that is not too large, and a
malformed integer otherwise or if there is an eight or a nine in an octal number.  So it does not
matter in which of the bases a number is written, nor how many zeros come before it. -/
theorem integer_literals_positional :
    (∀ w : Digits, ∃ result, ReadsAlone w.text result ∧
      Denotes result (w.base = 8 ∧ ∃ c ∈ w.text, c = '8' ∨ c = '9') (positional w.base w.text)) ∧
    (∀ (h : HexDigits) (x : Char), x = 'x' ∨ x = 'X' →
      ∃ result, ReadsAlone ('0' :: x :: h.text) result ∧
      Denotes result False (positional 16 h.text)) ∧
    ∀ n : ℕ, n ≤ 2 ^ 63 - 1 → ∃ k : Int64, k.toInt = n ∧
      ReadsAlone (Nat.toDigits 10 n) (.ok (.integer k)) ∧
      (∀ text ≠ [], Renders 8 n text → ReadsAlone ('0' :: text) (.ok (.integer k))) ∧
      ∀ text ≠ [], Renders 16 n text →
        ∀ x, x = 'x' ∨ x = 'X' → ReadsAlone ('0' :: x :: text) (.ok (.integer k)) := by
  refine ⟨Lexer.digits_denote, fun h x => Lexer.hexDigits_denote h, fun n hn => ?_⟩
  have hk : (Int64.ofNat n).toInt = n :=
    Int64.toInt_ofNat_of_lt (Nat.lt_of_le_sub_one (by decide) hn)
  exact ⟨Int64.ofNat n, hk, readsAlone_decimal hk, fun text hne h => readsAlone_octal hk hne h,
    fun text hne h x hx => readsAlone_hexadecimal hk hne h hx⟩

/-- The largest integer in hexadecimal, with two zeros before it, and the number behind it. -/
theorem integer_literals_positional_largest :
    (∃ k : Int64, k.toInt = (2 ^ 63 - 1 : ℕ) ∧
      ReadsAlone ('0' :: 'x' :: '0' :: '0' :: '7' :: List.replicate 15 'F') (.ok (.integer k))) ∧
      ReadsAlone ('0' :: 'X' :: '8' :: List.replicate 15 '0') (.error (.malformed .integer)) := by
  obtain ⟨-, hhexadecimal, hrendered⟩ := integer_literals_positional
  obtain ⟨k, hk, -, -, hlargest⟩ := hrendered (2 ^ 63 - 1) le_rfl
  have hdigit : HexDigit '0' ∧ HexDigit '7' ∧ HexDigit '8' ∧ HexDigit 'F' := by decide
  obtain ⟨result, hresult, hdenotes⟩ :=
    hhexadecimal ⟨'8', List.replicate 15 '0', by simp [hdigit]⟩ 'X' (.inr rfl)
  have hdigits : Nat.digits 16 (2 ^ 63 - 1) =
      [15, 15, 15, 15, 15, 15, 15, 15, 15, 15, 15, 15, 15, 15, 15, 7] := by
    norm_num
  have hlarge : positional 16 ('8' :: List.replicate 15 '0') > 2 ^ 63 - 1 := by decide
  refine ⟨⟨k, hk, hlargest _ (List.cons_ne_nil _ _) ⟨by simp [hdigit], 2, ?_⟩ 'x' (.inl rfl)⟩, ?_⟩
  · rw [hdigits]
    rfl
  · rwa [hdenotes.malformed.mpr (.inr hlarge)] at hresult

end Replay
