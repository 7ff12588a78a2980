import Replay.Proofs.Lexer
/-!
The pieces of a quoted literal.

The text between two quotes is gone through from left to right, one character or one escape at a
time.  What an escape stands for is in a table, and a byte is given by two hexadecimal digits, the
first of which may be a plus sign.
-/

namespace Replay

/-- What each escape stands for, but for those that give a byte. -/
def escapeTable : List (Char × Char) :=
  [('n', '\n'), ('t', '\t'), ('r', '\r'), ('0', '\x00'), ('a', '\x07'), ('b', '\x08'),
   ('f', '\x0c'), ('v', '\x0b'), (Text.backslash, Text.backslash),
   (Text.singleQuote, Text.singleQuote), (Text.doubleQuote, Text.doubleQuote)]

def HexDigit (c : Char) : Prop :=
  ('0' ≤ c ∧ c ≤ '9') ∨ ('a' ≤ c ∧ c ≤ 'f') ∨ ('A' ≤ c ∧ c ≤ 'F')

instance : DecidablePred HexDigit := fun _ => inferInstanceAs (Decidable (_ ∨ _))

def hexValue (c : Char) : Nat :=
  if c ≤ '9' then c.toNat - '0'.toNat
  else if c ≤ 'F' then c.toNat - 'A'.toNat + 10
  else c.toNat - 'a'.toNat + 10

/-! ## Pieces of a literal -/

/-- `byte` has the characters behind the escape, two of them if there are as many. -/
inductive Piece where
  | plain (c : Char)
  | escape (c : Char)
  | byte (digits : List Char)
  | dangling

namespace Piece

def text : Piece → List Char
  | plain c => [c]
  | escape c => [Text.backslash, c]
  | byte digits => Text.backslash :: 'x' :: digits
  | dangling => [Text.backslash]

def TwoDigits : List Char → Prop
  | [a, b] => HexDigit a ∧ HexDigit b
  | _ => False

/-- What is taken for two digits: the first one may be a plus sign. -/
def Accepted : List Char → Prop
  | [a, b] => (HexDigit a ∨ a = '+') ∧ HexDigit b
  | _ => False

instance : DecidablePred Accepted
  | [] => isFalse id
  | [_] => isFalse id
  | [_, _] => inferInstanceAs (Decidable (_ ∧ _))
  | _ :: _ :: _ :: _ => isFalse id

def meaning : Piece → Char
  | plain c => c
  | escape c => (escapeTable.lookup c).getD c
  | byte [a, b] => Char.ofNat (if a = '+' then hexValue b else 16 * hexValue a + hexValue b)
  | byte _ | dangling => Text.backslash

/-- An escape that is not in the table stands for its character, with a warning. -/
def warnings (m : Mark) : Piece → List Warning
  | escape c => if (escapeTable.lookup c).isNone then [⟨c, m.location⟩] else []
  | plain _ | byte _ | dangling => []

inductive Flaw where
  | byte | dangling
deriving DecidableEq

def flaw? : Piece → Option Flaw
  | plain _ | escape _ => none
  | byte digits => if Accepted digits then none else some .byte
  | dangling => some .dangling

end Piece

def pieces : List Char → List Piece
  | [] => []
  | '\x5c' :: 'x' :: a :: b :: cs => .byte [a, b] :: pieces cs
  | '\x5c' :: 'x' :: cs => [.byte cs]
  | ['\x5c'] => [.dangling]
  | '\x5c' :: c :: cs => .escape c :: pieces cs
  | c :: cs => .plain c :: pieces cs

def warningsFrom (m : Mark) : List Piece → List Warning
  | [] => []
  | p :: ps => p.warnings m ++ warningsFrom (m.along p.text) ps

def firstFlaw? (text : List Char) : Option Piece.Flaw :=
  (pieces text).findSome? Piece.flaw?

theorem pieces_text (text : List Char) : (pieces text).flatMap Piece.text = text := by
  fun_induction pieces text with
  | case1 => rfl
  | case2 a b cs ih => rw [List.flatMap_cons, ih]; rfl
  | case3 cs => exact List.append_nil _
  | case4 => rfl
  | case5 c cs _ _ ih => rw [List.flatMap_cons, ih]; rfl
  | case6 c cs _ _ _ _ ih => rw [List.flatMap_cons, ih]; rfl

/-- A warning is about an escape that is not in the table, and it is where that escape is. -/
theorem mem_warningsFrom {m : Mark} {ps : List Piece} {w : Warning} (h : w ∈ warningsFrom m ps) :
    ∃ earlier later, ps = earlier ++ .escape w.escape :: later ∧
      escapeTable.lookup w.escape = none ∧
      w.location = (m.along (earlier.flatMap Piece.text)).location := by
  induction ps generalizing m with
  | nil => cases h
  | cons p ps ih =>
    rcases List.mem_append.mp h with h | h
    · cases p with
      | escape c =>
        simp only [Piece.warnings] at h
        split at h
        · next hnone =>
          cases List.mem_singleton.mp h
          exact ⟨[], ps, rfl, Option.isNone_iff_eq_none.mp hnone, rfl⟩
        · cases h
      | plain c => cases h
      | byte digits => cases h
      | dangling => cases h
    · obtain ⟨earlier, later, rfl, hlookup, hlocation⟩ := ih h
      refine ⟨p :: earlier, later, rfl, hlookup, ?_⟩
      rw [hlocation, List.flatMap_cons, Mark.along_append]

namespace Lexer

/-! ## Decoding -/

theorem simpleEscape?_eq (c : Char) : simpleEscape? c = escapeTable.lookup c := by
  unfold simpleEscape?
  split
  case h_12 =>
    symm
    rw [List.lookup_eq_none_iff]
    simp_all [escapeTable, Text.backslash, Text.singleQuote, Text.doubleQuote]
  all_goals rfl

theorem isDigit_iff (c : Char) : c.isDigit = true ↔ '0' ≤ c ∧ c ≤ '9' :=
  Char.isDigit_iff_toNat

theorem digitValue?_eq (c : Char) :
    digitValue? c = if HexDigit c then some (hexValue c) else none := by
  have hle (a b : Char) : a ≤ b ↔ a.toNat ≤ b.toNat := Iff.rfl
  unfold digitValue? HexDigit hexValue
  simp only [isDigit_iff, hle, Char.reduceToNat]
  grind

theorem hexValue_lt {c : Char} (h : HexDigit c) : hexValue c < 16 := by
  have hle (a b : Char) : a ≤ b ↔ a.toNat ≤ b.toNat := Iff.rfl
  unfold HexDigit at h
  unfold hexValue
  simp only [hle, Char.reduceToNat] at h ⊢
  grind

theorem natOfDigits?_one (b : Char) :
    natOfDigits? 16 [b] = if HexDigit b then some (hexValue b) else none := by
  by_cases hb : HexDigit b
  · simp [natOfDigits?, digitValue?_eq, hb, hexValue_lt hb]
  · simp [natOfDigits?, digitValue?_eq, hb]

theorem natOfDigits?_two (a b : Char) :
    natOfDigits? 16 [a, b] =
      if HexDigit a ∧ HexDigit b then some (16 * hexValue a + hexValue b) else none := by
  by_cases ha : HexDigit a
  · by_cases hb : HexDigit b
    · simp [natOfDigits?, digitValue?_eq, ha, hb, hexValue_lt ha, hexValue_lt hb, Nat.mul_comm]
    · simp [natOfDigits?, digitValue?_eq, ha, hb, hexValue_lt ha]
  · simp [natOfDigits?, digitValue?_eq, ha]

theorem byteEscape?_eq (a b : Char) :
    byteEscape? a b =
      if Piece.Accepted [a, b] then some (Piece.meaning (.byte [a, b])) else none := by
  unfold byteEscape? Piece.Accepted Piece.meaning
  by_cases ha : a = '+'
  · have hplus : ¬HexDigit '+' := by decide
    subst ha
    by_cases hb : HexDigit b <;> simp [natOfDigits?_one, hb]
  · by_cases hd : HexDigit a ∧ HexDigit b <;> simp [natOfDigits?_two, ha, hd]

def decoded? (m : Mark) (ps : List Piece) : Option (List Char × List Warning) :=
  match ps.findSome? Piece.flaw? with
  | none => some (ps.map Piece.meaning, warningsFrom m ps)
  | some _ => none

theorem decoded?_cons {p : Piece} (hp : p.flaw? = none) (m : Mark) (ps : List Piece) :
    decoded? m (p :: ps) =
      (decoded? (m.along p.text) ps).map fun later =>
      (p.meaning :: later.1, p.warnings m ++ later.2) := by
  unfold decoded?
  rw [List.findSome?_cons, hp]
  cases ps.findSome? Piece.flaw? <;> rfl

theorem decoded?_cons_flaw {p : Piece} {f : Piece.Flaw} (hp : p.flaw? = some f) (m : Mark)
    (ps : List Piece) :
    decoded? m (p :: ps) = none := by
  unfold decoded?
  rw [List.findSome?_cons, hp]

theorem unescape?_eq (m : Mark) (text : List Char) :
    unescape? m text = decoded? m (pieces text) := by
  fun_induction unescape? m text with
  | case1 => rfl
  | case2 m a b cs ih =>
    rw [pieces, byteEscape?_eq]
    by_cases hd : Piece.Accepted [a, b]
    · have hflaw : (Piece.byte [a, b]).flaw? = none := if_pos hd
      have hlater : unescape? _ cs = decoded? (m.along (Piece.byte [a, b]).text) (pieces cs) := ih
      rw [decoded?_cons hflaw, if_pos hd, hlater]
      cases decoded? (m.along (Piece.byte [a, b]).text) (pieces cs) <;> rfl
    · have hflaw : (Piece.byte [a, b]).flaw? = some .byte := if_neg hd
      rw [decoded?_cons_flaw hflaw, if_neg hd]
      rfl
  | case3 m cs hcs =>
    have hflaw : (Piece.byte cs).flaw? = some .byte := by
      cases cs with
      | nil => rfl
      | cons a cs =>
        cases cs with
        | nil => rfl
        | cons b cs => exact absurd rfl (hcs a b cs)
    rw [pieces, decoded?_cons_flaw hflaw]
    exact hcs
  | case4 => rfl
  | case5 m c cs hx hne ih =>
    have hlater : unescape? _ cs = decoded? (m.along (Piece.escape c).text) (pieces cs) := ih
    rw [pieces, decoded?_cons rfl, hlater]
    · have hmeaning : (Piece.escape c).meaning = (simpleEscape? c).getD c := by
        rw [simpleEscape?_eq]
        rfl
      have hwarnings : (Piece.escape c).warnings m =
          if (simpleEscape? c).isNone then [⟨c, m.location⟩] else [] := by
        rw [simpleEscape?_eq]
        rfl
      rw [hmeaning, hwarnings]
      cases decoded? (m.along (Piece.escape c).text) (pieces cs) <;> cases simpleEscape? c <;> rfl
    · exact hx
    · exact hne
  | case6 m c cs _ _ _ _ ih =>
    have hlater : unescape? _ cs = decoded? (m.along (Piece.plain c).text) (pieces cs) := ih
    rw [pieces, decoded?_cons rfl, hlater]
    · cases decoded? (m.along (Piece.plain c).text) (pieces cs) <;> rfl
    all_goals assumption

theorem unescape?_eq_some {m : Mark} {text chars : List Char} {warnings : List Warning}
    (h : unescape? m text = some (chars, warnings)) :
    firstFlaw? text = none ∧ warnings = warningsFrom m (pieces text) := by
  rw [unescape?_eq, decoded?] at h
  unfold firstFlaw?
  cases hflaw : (pieces text).findSome? Piece.flaw? with
  | none =>
    rw [hflaw] at h
    cases h
    exact ⟨rfl, rfl⟩
  | some flaw =>
    rw [hflaw] at h
    cases h

theorem firstFlaw?_ne_none {m : Mark} {text : List Char} (h : unescape? m text = none) :
    firstFlaw? text ≠ none := by
  intro hflaw
  unfold firstFlaw? at hflaw
  rw [unescape?_eq, decoded?, hflaw] at h
  cases h

end Lexer

end Replay
