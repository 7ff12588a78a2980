import Mathlib.Data.Int.ModEq
import Mathlib.Data.Rat.Floor
import Mathlib.Tactic.FieldSimp
import Mathlib.Tactic.Linarith
import Replay.Operator.Apply
/-!
Operators on integers, beside arithmetic without a bound.

Whole numbers are never too large, and the operators are compared with what they would be there.  A
result that does not fit into 64 bits is an error, except for the shifts, which drop the bits that
do not fit.  One error more is found where the result would fit: the remainder of the smallest
integer by minus one.
-/

namespace Replay

/-! ## Whole numbers -/

/-- An integer of 64 bits can be this number. -/
def Fits (n : ℤ) : Prop :=
  -2 ^ 63 ≤ n ∧ n ≤ 2 ^ 63 - 1

instance (n : ℤ) : Decidable (Fits n) :=
  inferInstanceAs (Decidable (_ ∧ _))

/-- A number without its fraction. -/
def truncated (x : ℚ) : ℤ :=
  if 0 ≤ x then ⌊x⌋ else ⌈x⌉

namespace BinaryOperator

def arithmetical : List BinaryOperator := [add, sub, mul, div, mod]

/-- The result in the whole numbers.  There is none of a division by zero, nor of an operator that
is not arithmetical. -/
def onWholeNumbers : BinaryOperator → ℤ → ℤ → Option ℤ
  | add, a, b => some (a + b)
  | sub, a, b => some (a - b)
  | mul, a, b => some (a * b)
  | div, a, b => if b = 0 then none else some (truncated (a / b))
  | mod, a, b => if b = 0 then none else some (a - truncated (a / b) * b)
  | _, _, _ => none

def relation? : BinaryOperator → Option (ℤ → ℤ → Prop)
  | equal => some (· = ·)
  | notEqual => some (· ≠ ·)
  | less => some (· < ·)
  | lessEqual => some (· ≤ ·)
  | greater => some (· > ·)
  | greaterEqual => some (· ≥ ·)
  | _ => none

end BinaryOperator

/-- On these integers the operator gives an integer, and it is such that `P`. -/
def BinaryOperator.Yields (op : BinaryOperator) (a b : Int64) (P : ℤ → Prop) : Prop :=
  ∃ c : Int64, op.apply (.integer a) (.integer b) = .ok (.integer c) ∧ P c.toInt

def UnaryOperator.Yields (op : UnaryOperator) (a : Int64) (P : ℤ → Prop) : Prop :=
  ∃ c : Int64, op.apply (.integer a) = .ok (.integer c) ∧ P c.toInt

/-- The remainder that is refused although it is zero: its quotient does not fit. -/
def RefusedRemainder (op : BinaryOperator) (a b : Int64) : Prop :=
  op = .mod ∧ a = .minValue ∧ b = -1

/-- How far a shift by `b` goes. -/
def places (b : Int64) : ℕ :=
  (b.toInt % 64).toNat

theorem places_modEq (b : Int64) : places b ≡ b.toInt [ZMOD 64] := by
  have hplaces : (places b : ℤ) = b.toInt % 64 :=
    Int.toNat_of_nonneg (Int.emod_nonneg _ (by decide))
  rw [hplaces]
  exact Int.mod_modEq _ _

theorem places_lt (b : Int64) : places b < 64 := by
  rw [places]
  omega

/-! ## Division -/

theorem toInt_ne_zero {b : Int64} (h : b ≠ 0) : b.toInt ≠ 0 :=
  fun hzero => h (Int64.toInt_inj.mp hzero)

/-- What is left over has the sign of the dividend. -/
theorem sign_tmod_of_ne_zero {a b : ℤ} (h : a.tmod b ≠ 0) : (a.tmod b).sign = a.sign := by
  rw [Int.sign_tmod, if_neg fun hdvd => h (Int.tmod_eq_zero_of_dvd hdvd)]

theorem tmod_mul_pos {a b : ℤ} (h : a.tmod b ≠ 0) : 0 < a.tmod b * a := by
  have ha : a ≠ 0 := by
    rintro rfl
    exact h (Int.zero_tmod b)
  rw [← Int.sign_eq_one_iff_pos, Int.sign_mul, sign_tmod_of_ne_zero h, ← Int.sign_mul,
    Int.sign_eq_one_iff_pos]
  exact mul_self_pos.mpr ha

/-- So it is taken off a positive quotient and added to a negative one. -/
theorem truncated_div (a : ℤ) {b : ℤ} (h : b ≠ 0) : truncated (a / b) = a.tdiv b := by
  have hb : (b : ℚ) ≠ 0 := Int.cast_ne_zero.mpr h
  have hsplit : (a : ℚ) / b = a.tdiv b + (a.tmod b : ℚ) / b := by
    have htotal : (b : ℚ) * a.tdiv b + a.tmod b = a := by exact_mod_cast Int.mul_tdiv_add_tmod a b
    field_simp
    linarith
  have hsmall : |(a.tmod b : ℚ) / b| < 1 := by
    have hlt : |a.tmod b| < |b| := by
      rw [Int.abs_eq_natAbs, Int.abs_eq_natAbs, Int.natAbs_tmod]
      exact_mod_cast Nat.mod_lt _ (Int.natAbs_pos.mpr h)
    rw [abs_div, div_lt_one (abs_pos.mpr hb)]
    exact_mod_cast hlt
  obtain ⟨hlow, hhigh⟩ := abs_lt.mp hsmall
  by_cases hr : a.tmod b = 0
  · rw [truncated, hsplit, hr, Int.cast_zero, zero_div, add_zero, Int.floor_intCast,
      Int.ceil_intCast, ite_self]
  · have hsame : 0 < (a.tmod b : ℚ) / b * (a / b) := by
      have hpos : (0 : ℚ) < a.tmod b * a := by exact_mod_cast tmod_mul_pos hr
      rw [div_mul_div_comm]
      exact div_pos hpos (mul_self_pos.mpr hb)
    rw [truncated]
    split
    · next hx =>
      have hover : 0 < (a.tmod b : ℚ) / b := pos_of_mul_pos_left hsame hx
      rw [Int.floor_eq_iff]
      constructor <;> linarith
    · next hx =>
      have hover : (a.tmod b : ℚ) / b < 0 := (neg_iff_neg_of_mul_pos hsame).mpr (not_le.mp hx)
      rw [Int.ceil_eq_iff]
      constructor <;> linarith

/-! ## Results that fit -/

theorem fits_iff {n : ℤ} : Fits n ↔ Int64.minValue.toInt ≤ n ∧ n ≤ Int64.maxValue.toInt := by
  have hmin : Int64.minValue.toInt = -2 ^ 63 := rfl
  have hmax : Int64.maxValue.toInt = 2 ^ 63 - 1 := rfl
  rw [Fits, hmin, hmax]

theorem fits_toInt (a : Int64) : Fits a.toInt :=
  fits_iff.mpr ⟨a.minValue_le_toInt, a.toInt_le⟩

theorem checked_of_fits {n : ℤ} (h : Fits n) : ∃ c :
    Int64, c.toInt = n ∧ checked n = .ok (.integer c) := by
  refine ⟨Int64.ofInt n, Int64.toInt_ofInt_of_le h.1 (Int.lt_of_le_sub_one h.2), ?_⟩
  rw [checked, if_pos (fits_iff.mp h)]

theorem checked_of_not_fits {n : ℤ} (h : ¬Fits n) : checked n = .error .overflow := by
  rw [checked, if_neg (mt fits_iff.mpr h)]

theorem checked_eq_overflow_iff {n : ℤ} : checked n = .error .overflow ↔ ¬Fits n := by
  refine ⟨fun h hfits => ?_, checked_of_not_fits⟩
  obtain ⟨c, -, hc⟩ := checked_of_fits hfits
  cases hc.symm.trans h

theorem checked_ne_divisionByZero (n : ℤ) : checked n ≠ .error .divisionByZero := by
  intro h
  rw [checked] at h
  split at h <;> cases h

theorem toInt_of_checked {n : ℤ} {c : Int64} (h : checked n = .ok (.integer c)) : c.toInt = n := by
  by_cases hfits : Fits n
  · obtain ⟨d, hd, hchecked⟩ := checked_of_fits hfits
    cases hchecked.symm.trans h
    exact hd
  · cases (checked_of_not_fits hfits).symm.trans h

/-- Only the smallest integer is larger than the largest one if its sign is changed. -/
theorem fits_neg_iff (a : Int64) : Fits (-a.toInt) ↔ a ≠ .minValue := by
  have hmin : Int64.minValue.toInt = -2 ^ 63 := rfl
  have hfits := fits_toInt a
  rw [Ne, ← Int64.toInt_inj, hmin]
  unfold Fits at hfits ⊢
  omega

/-- A quotient by anything but one and minus one is at most half of the dividend. -/
theorem fits_tdiv_iff (a : Int64) {b : Int64} (h : b ≠ 0) :
    Fits (a.toInt.tdiv b.toInt) ↔ ¬(a = .minValue ∧ b = -1) := by
  have hone : (-1 : Int64).toInt = -1 := rfl
  have hfits := fits_toInt a
  have hb := toInt_ne_zero h
  rw [← Int64.toInt_inj (x := b), hone]
  have hcases : b.toInt = 1 ∨ b.toInt = -1 ∨ 2 ≤ b.toInt.natAbs := by omega
  rcases hcases with hb | hb | hb
  · rw [hb, Int.tdiv_one]
    simp [hfits]
  · rw [hb, Int.tdiv_neg, Int.tdiv_one, fits_neg_iff]
    simp
  · have hhalf : (a.toInt.tdiv b.toInt).natAbs ≤ a.toInt.natAbs / 2 := by
      rw [Int.natAbs_tdiv]
      exact Nat.div_le_div_left hb (by decide)
    have hne : ¬b.toInt = -1 := by omega
    unfold Fits at hfits ⊢
    omega

/-! ## Arithmetic -/

namespace BinaryOperator

variable {op : BinaryOperator} {a b : Int64} {n : ℤ}

theorem onWholeNumbers_eq_none_iff (h : op ∈ arithmetical) {a b : ℤ} :
    op.onWholeNumbers a b = none ↔ (op = .div ∨ op = .mod) ∧ b = 0 := by
  simp only [arithmetical, List.mem_cons, List.not_mem_nil, or_false] at h
  rcases h with rfl | rfl | rfl | rfl | rfl <;> simp [onWholeNumbers]

theorem onWholeNumbers_div (a : ℤ) {b : ℤ} (h : b ≠ 0) :
    div.onWholeNumbers a b = some (a.tdiv b) := by
  rw [onWholeNumbers, if_neg h, truncated_div a h]

theorem onWholeNumbers_mod (a : ℤ) {b : ℤ} (h : b ≠ 0) :
    mod.onWholeNumbers a b = some (a.tmod b) := by
  rw [onWholeNumbers, if_neg h, truncated_div a h, Int.tmod_def, mul_comm]

theorem apply_eq (op : BinaryOperator) (a b : Int64) :
    op.apply (.integer a) (.integer b) =
      (op.onIntegers a b).getD (op.incompatible (.integer a) (.integer b)) := rfl

theorem apply_refused (h : RefusedRemainder op a b) :
    op.apply (.integer a) (.integer b) = .error .overflow := by
  obtain ⟨rfl, rfl, rfl⟩ := h
  rfl

/-- Apart from the remainder that is refused, an arithmetical operator gives its result in the whole
numbers if that fits. -/
theorem apply_arithmetical (h : op ∈ arithmetical) (hrefused : ¬RefusedRemainder op a b) :
    op.apply (.integer a) (.integer b) =
      (op.onWholeNumbers a.toInt b.toInt).elim (.error .divisionByZero) checked := by
  simp only [arithmetical, List.mem_cons, List.not_mem_nil, or_false] at h
  rcases h with rfl | rfl | rfl | rfl | rfl
  · rfl
  · rfl
  · rfl
  · rw [apply_eq, onIntegers, Option.getD_some]
    split
    · next hb =>
      subst hb
      rfl
    · next hb => rw [onWholeNumbers_div _ (toInt_ne_zero hb), Option.elim_some]
  · rw [apply_eq, onIntegers, Option.getD_some]
    split
    · next hb =>
      subst hb
      rfl
    · next hb =>
      obtain ⟨q, -, hq⟩ :=
        checked_of_fits ((fits_tdiv_iff a hb).mpr fun hboth => hrefused ⟨rfl, hboth⟩)
      rw [onWholeNumbers_mod _ (toInt_ne_zero hb), Option.elim_some, hq]
      rfl

theorem apply_eq_divisionByZero_iff (h : op ∈ arithmetical) :
    op.apply (.integer a) (.integer b) = .error .divisionByZero ↔
      (op = .div ∨ op = .mod) ∧ b = 0 := by
  have hzero : b = 0 ↔ b.toInt = 0 := Int64.toInt_inj.symm
  rw [hzero, ← onWholeNumbers_eq_none_iff (a := a.toInt) h]
  by_cases hrefused : RefusedRemainder op a b
  · have hnone : op.onWholeNumbers a.toInt b.toInt ≠ none := by
      obtain ⟨rfl, rfl, rfl⟩ := hrefused
      simp [onWholeNumbers]
    rw [apply_refused hrefused]
    simp [hnone]
  · rw [apply_arithmetical h hrefused]
    cases op.onWholeNumbers a.toInt b.toInt with
    | none => simp
    | some n => simp [checked_ne_divisionByZero n]

theorem apply_eq_overflow_iff (h : op ∈ arithmetical) :
    op.apply (.integer a) (.integer b) = .error .overflow ↔
      (∃ n, op.onWholeNumbers a.toInt b.toInt = some n ∧ ¬Fits n) ∨ RefusedRemainder op a b := by
  by_cases hrefused : RefusedRemainder op a b
  · simp [apply_refused hrefused, hrefused]
  · rw [apply_arithmetical h hrefused]
    cases op.onWholeNumbers a.toInt b.toInt with
    | none => simp [hrefused]
    | some n => simp [hrefused, checked_eq_overflow_iff]

theorem yields_of_fits (h : op ∈ arithmetical) (hn : op.onWholeNumbers a.toInt b.toInt = some n)
    (hfits : Fits n) (hrefused : ¬RefusedRemainder op a b) : op.Yields a b (· = n) := by
  obtain ⟨c, hc, hchecked⟩ := checked_of_fits hfits
  refine ⟨c, ?_, hc⟩
  rw [apply_arithmetical h hrefused, hn, Option.elim_some, hchecked]

theorem onWholeNumbers_of_apply (h : op ∈ arithmetical) {c : Int64}
    (hc : op.apply (.integer a) (.integer b) = .ok (.integer c)) :
    op.onWholeNumbers a.toInt b.toInt = some c.toInt := by
  by_cases hrefused : RefusedRemainder op a b
  · cases (apply_refused hrefused).symm.trans hc
  · rw [apply_arithmetical h hrefused] at hc
    cases hn : op.onWholeNumbers a.toInt b.toInt with
    | none =>
      rw [hn] at hc
      cases hc
    | some n =>
      rw [hn, Option.elim_some] at hc
      rw [toInt_of_checked hc]

theorem div_mod {q r : Int64} (hq : div.apply (.integer a) (.integer b) = .ok (.integer q))
    (hr : mod.apply (.integer a) (.integer b) = .ok (.integer r)) :
    a.toInt = q.toInt * b.toInt + r.toInt ∧ (r.toInt = 0 ∨ r.toInt.sign = a.toInt.sign) := by
  have hdiv := onWholeNumbers_of_apply (by decide) hq
  have hmod := onWholeNumbers_of_apply (by decide) hr
  have hb : b.toInt ≠ 0 := by
    intro hzero
    rw [onWholeNumbers, if_pos hzero] at hdiv
    cases hdiv
  rw [onWholeNumbers_div _ hb, Option.some_inj] at hdiv
  rw [onWholeNumbers_mod _ hb, Option.some_inj] at hmod
  rw [← hdiv, ← hmod]
  exact ⟨(Int.tdiv_mul_add_tmod _ _).symm, or_iff_not_imp_left.mpr sign_tmod_of_ne_zero⟩

end BinaryOperator

/-! ## Shifts -/

theorem toInt_modEq_toNat (a : Int64) : a.toInt ≡ a.toBitVec.toNat [ZMOD 2 ^ 64] := by
  have hbmod : a.toInt = (a.toBitVec.toNat : ℤ).bmod (2 ^ 64) := BitVec.toInt_eq_toNat_bmod _
  rw [hbmod]
  exact Int.bmod_emod

/-- The low six bits are the rest by 64, also of a negative number. -/
theorem toNat_shiftCount (b : Int64) : (shiftCount b).toBitVec.toNat = places b := by
  have hmask : (63 : Int64).toBitVec.toNat = 2 ^ 6 - 1 := rfl
  have hrest : b.toInt % 64 = b.toBitVec.toNat % 64 := (toInt_modEq_toNat b).of_dvd (by decide)
  rw [shiftCount, Int64.toBitVec_and, BitVec.toNat_and, hmask,
    Nat.and_two_pow_sub_one_eq_mod, places]
  omega

/-- A shift reduces its count once more, which changes nothing. -/
theorem toNat_smod_shiftCount (b : Int64) : ((shiftCount b).toBitVec.smod 64).toNat = places b := by
  have hcount := toNat_shiftCount b
  have hlt := places_lt b
  have hpositive : (shiftCount b).toBitVec.msb = false := by
    rw [BitVec.msb_eq_decide, hcount, decide_eq_false_iff_not]
    omega
  have hpositive' : (64 : BitVec 64).msb = false := rfl
  rw [BitVec.smod_eq, hpositive, hpositive']
  simp only [BitVec.umod_eq, BitVec.toNat_umod, hcount]
  exact Nat.mod_eq_of_lt hlt

theorem toInt_shiftLeft (a b : Int64) :
    (a <<< shiftCount b).toInt ≡ a.toInt * 2 ^ places b [ZMOD 2 ^ 64] := by
  have hword : (a <<< shiftCount b).toInt = (a.toBitVec <<< places b).toInt := by
    rw [← toNat_smod_shiftCount, ← BitVec.shiftLeft_eq', ← Int64.toBitVec_shiftLeft]
    rfl
  rw [hword, BitVec.toInt_shiftLeft, Nat.shiftLeft_eq, Nat.cast_mul, Nat.cast_pow, Nat.cast_ofNat]
  exact Int.bmod_emod.trans ((toInt_modEq_toNat a).symm.mul_right _)

theorem floor_div_places (n : ℤ) (b : Int64) : ⌊(n : ℚ) / 2 ^ places b⌋ = n / 2 ^ places b := by
  have hfloor := Rat.floor_intCast_div_natCast n (2 ^ places b)
  rwa [Nat.cast_pow, Nat.cast_pow, Nat.cast_ofNat, Nat.cast_ofNat] at hfloor

theorem toInt_shiftRight (a b : Int64) :
    (a >>> shiftCount b).toInt = ⌊(a.toInt : ℚ) / 2 ^ places b⌋ := by
  have hword : (a >>> shiftCount b).toInt = (a.toBitVec.sshiftRight (places b)).toInt := by
    rw [← toNat_smod_shiftCount, ← BitVec.sshiftRight_eq', ← Int64.toBitVec_shiftRight]
    rfl
  rw [hword, floor_div_places, BitVec.toInt_sshiftRight, Int.shiftRight_eq_div_pow, Nat.cast_pow,
    Nat.cast_ofNat]
  rfl

theorem toInt_unsignedShiftRight (a b : Int64) :
    (unsignedShiftRight a b).toInt ≡ ⌊((a.toInt % 2 ^ 64 : ℤ) : ℚ) / 2 ^ places b⌋
      [ZMOD 2 ^ 64] := by
  have hcount : (shiftCount b).toUInt64.toNat % 64 = places b := by
    have hcount : (shiftCount b).toUInt64.toNat = places b := toNat_shiftCount b
    rw [hcount]
    exact Nat.mod_eq_of_lt (places_lt b)
  have hword : (unsignedShiftRight a b).toBitVec.toNat = a.toBitVec.toNat >>> places b := by
    rw [← hcount]
    exact UInt64.toNat_shiftRight _ _
  have hpattern : a.toInt % 2 ^ 64 = a.toBitVec.toNat := by
    rw [toInt_modEq_toNat a]
    exact Int.emod_eq_of_lt (Int.natCast_nonneg _) (by exact_mod_cast a.toBitVec.isLt)
  refine (toInt_modEq_toNat _).trans ?_
  rw [hword, hpattern, floor_div_places, Nat.shiftRight_eq_div_pow]
  push_cast
  rfl

/-! ## All operators -/

namespace BinaryOperator

theorem apply_relation {op : BinaryOperator} {R : ℤ → ℤ → Prop} (h : op.relation? = some R)
    (a b : Int64) :
    ∃ holds : Bool, op.apply (.integer a) (.integer b) = .ok (.boolean holds) ∧
      (holds = true ↔ R a.toInt b.toInt) := by
  cases op <;> cases h <;> refine ⟨_, rfl, ?_⟩
  case equal.refl => exact beq_iff_eq.trans Int64.toInt_inj.symm
  case notEqual.refl => exact bne_iff_ne.trans Int64.toInt_inj.symm.not
  case less.refl => exact decide_eq_true_iff.trans Int64.lt_iff_toInt_lt
  case lessEqual.refl => exact decide_eq_true_iff.trans Int64.le_iff_toInt_le
  case greater.refl => exact decide_eq_true_iff.trans Int64.lt_iff_toInt_lt
  case greaterEqual.refl => exact decide_eq_true_iff.trans Int64.le_iff_toInt_le

end BinaryOperator

theorem toInt_complement (a : Int64) : (~~~a).toInt = -a.toInt - 1 := by
  have hfits := fits_toInt a
  rw [Int64.toInt_not]
  unfold Fits at hfits
  exact Int.bmod_eq_of_le (by omega) (by omega)

namespace UnaryOperator

theorem negate_eq_overflow_iff (a : Int64) :
    negate.apply (.integer a) = .error .overflow ↔ a = .minValue := by
  have hoverflow : negate.apply (.integer a) = .error .overflow ↔ ¬Fits (-a.toInt) :=
    checked_eq_overflow_iff
  rw [hoverflow, fits_neg_iff, not_not]

theorem negate_yields {a : Int64} (h : a ≠ .minValue) : negate.Yields a (· = -a.toInt) := by
  obtain ⟨c, hc, hchecked⟩ := checked_of_fits ((fits_neg_iff a).mpr h)
  exact ⟨c, hchecked, hc⟩

end UnaryOperator

/-- Operators on integers are exact.  An arithmetical operator gives its result in the whole
numbers, or it says that there is none or that it does not fit; the one remainder that is refused
apart, nothing else happens.  Quotient and remainder go together.  A shift takes its count by 64; to
the left and without sign the result is taken by `2 ^ 64`.  Comparisons are those of whole numbers.
Only the smallest integer has no negative. -/
theorem integer_operators_exact (a b : Int64) :
    (∀ op ∈ BinaryOperator.arithmetical,
      (op.apply (.integer a) (.integer b) = .error .divisionByZero ↔
        (op = .div ∨ op = .mod) ∧ b = 0) ∧
      (op.apply (.integer a) (.integer b) = .error .overflow ↔
        (∃ n, op.onWholeNumbers a.toInt b.toInt = some n ∧ ¬Fits n) ∨ RefusedRemainder op a b) ∧
      ∀ n, op.onWholeNumbers a.toInt b.toInt = some n → Fits n → ¬RefusedRemainder op a b →
        op.Yields a b (· = n)) ∧
    (∀ q r : Int64, BinaryOperator.div.apply (.integer a) (.integer b) = .ok (.integer q) →
      BinaryOperator.mod.apply (.integer a) (.integer b) = .ok (.integer r) →
      a.toInt = q.toInt * b.toInt + r.toInt ∧ (r.toInt = 0 ∨ r.toInt.sign = a.toInt.sign)) ∧
    (∃ k : ℕ, k < 64 ∧ k ≡ b.toInt [ZMOD 64] ∧
      BinaryOperator.shiftLeft.Yields a b (· ≡ a.toInt * 2 ^ k [ZMOD 2 ^ 64]) ∧
      BinaryOperator.shiftRight.Yields a b (· = ⌊(a.toInt : ℚ) / 2 ^ k⌋) ∧
      BinaryOperator.unsignedShiftRight.Yields a b
      (· ≡ ⌊((a.toInt % 2 ^ 64 : ℤ) : ℚ) / 2 ^ k⌋ [ZMOD 2 ^ 64])) ∧
    (∀ (op : BinaryOperator) (R : ℤ → ℤ → Prop), op.relation? = some R → ∃ holds : Bool,
      op.apply (.integer a) (.integer b) = .ok (.boolean holds) ∧
      (holds = true ↔ R a.toInt b.toInt)) ∧
    (UnaryOperator.negate.apply (.integer a) = .error .overflow ↔ a = .minValue) ∧
    (a ≠ .minValue → UnaryOperator.negate.Yields a (· = -a.toInt)) ∧
    UnaryOperator.complement.Yields a (· = -a.toInt - 1) := by
  refine ⟨fun op hop => ⟨?_, ?_, fun n hn hfits hrefused => ?_⟩, fun q r hq hr => ?_,
    ⟨places b, places_lt b, ?_, ?_, ?_, ?_⟩, fun op R hR => BinaryOperator.apply_relation hR a b,
    ?_, fun ha => ?_, ?_⟩
  · exact BinaryOperator.apply_eq_divisionByZero_iff hop
  · exact BinaryOperator.apply_eq_overflow_iff hop
  · exact BinaryOperator.yields_of_fits hop hn hfits hrefused
  · exact BinaryOperator.div_mod hq hr
  · exact places_modEq b
  · exact ⟨_, rfl, toInt_shiftLeft a b⟩
  · exact ⟨_, rfl, toInt_shiftRight a b⟩
  · exact ⟨_, rfl, toInt_unsignedShiftRight a b⟩
  · exact UnaryOperator.negate_eq_overflow_iff a
  · exact UnaryOperator.negate_yields ha
  · exact ⟨_, rfl, toInt_complement a⟩

/-- Minus seven by minus two is three, and minus one is left over. -/
theorem integer_operators_exact_negative :
    BinaryOperator.mod.Yields (-7) (-2) (· = -1) ∧
      (-7 : Int64).toInt = (3 : Int64).toInt * (-2 : Int64).toInt + (-1 : Int64).toInt ∧
      (∃ holds : Bool,
        BinaryOperator.less.apply (.integer (-7)) (.integer (-2)) = .ok (.boolean holds) ∧
        (holds = true ↔ (-7 : Int64).toInt < (-2 : Int64).toInt)) ∧
      UnaryOperator.negate.Yields (-7) (· = -(-7 : Int64).toInt) := by
  obtain ⟨harithmetic, hdivision, -, hcomparison, -, hnegative, -⟩ :=
    integer_operators_exact (-7) (-2)
  have hremainder : BinaryOperator.mod.onWholeNumbers (-7 : Int64).toInt (-2 : Int64).toInt =
      some (-1) :=
    BinaryOperator.onWholeNumbers_mod _ (by decide)
  refine ⟨?_, ?_, hcomparison .less _ rfl, hnegative (by decide)⟩
  · exact (harithmetic .mod (by decide)).2.2 (-1) hremainder (by decide) fun h =>
      absurd h.2.2 (by decide)
  · exact (hdivision 3 (-1) rfl rfl).1

end Replay
