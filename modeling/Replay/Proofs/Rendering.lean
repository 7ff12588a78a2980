import Replay.Proofs.Lexer
/-!
Reading what was written.

A token can be written in more than one way, but there is a plain one for each: a number in decimal
digits, a text in quotes with no more escapes than it takes.  If tokens are written so, with white
space behind each of them, the lexer finds these tokens and nothing else.  Comments may follow the
white space.
-/

namespace Replay

/-! ## White space and comments -/

inductive Space where
  | space | tab | carriageReturn | formFeed | newline

def Space.char : Space → Char
  | space => ' '
  | tab => '\t'
  | carriageReturn => '\r'
  | formFeed => '\x0c'
  | newline => '\n'

/-- What a line comment says.  It must not end the line, nor the comment. -/
structure Remark where
  text : List Char
  onLine : ∀ c ∈ text, c ≠ '\n' ∧ c ≠ '\r'

inductive Gap where
  | space (s : Space)
  | remark (r : Remark)

def Gap.text : Gap → List Char
  | space s => [s.char]
  | remark r => '/' :: '/' :: (r.text ++ ['\n'])

/-- White space, and then anything that is not a token. -/
structure Separator where
  first : Space
  others : List Gap

def Separator.text (s : Separator) : List Char :=
  s.first.char :: s.others.flatMap Gap.text

/-! ## Tokens -/

def IsNameStart (c : Char) : Prop :=
  ('a' ≤ c ∧ c ≤ 'z') ∨ ('A' ≤ c ∧ c ≤ 'Z') ∨ c = '_'

def IsDigit (c : Char) : Prop :=
  '0' ≤ c ∧ c ≤ '9'

structure Name where
  first : Char
  others : List Char
  starts : IsNameStart first
  parts : ∀ c ∈ others, IsNameStart c ∨ IsDigit c
  free : ∀ k : Keyword, k.spelling.toList ≠ first :: others

def Name.text (name : Name) : List Char := name.first :: name.others

structure Digits where
  first : Char
  others : List Char
  digits : ∀ c ∈ first :: others, IsDigit c

def Digits.text (d : Digits) : List Char := d.first :: d.others

inductive Word where
  | keyword (k : Keyword)
  | punct (p : Punct)
  | identifier (name : Name)
  | integer (n : Int64) (nonnegative : 0 ≤ n)
  | real (whole fraction : Digits)
  | character (c : Char)
  | string (s : String)

/-- A character in a literal.  Line feeds, backslashes and the quote itself need an escape. -/
def escapedIn (quote c : Char) : List Char :=
  if c = '\n' then [Text.backslash, 'n']
  else if c = Text.backslash ∨ c = quote then [Text.backslash, c]
  else [c]

def quotedIn (quote : Char) (text : List Char) : List Char :=
  quote :: (text.flatMap (escapedIn quote) ++ [quote])

namespace Word

def token : Word → Token
  | keyword k => .keyword k
  | punct p => .punct p
  | identifier name => .identifier (String.ofList name.text)
  | integer n _ => .integer n
  | real whole fraction =>
    .real (Float.ofScientific (Nat.ofDigitChars 10 (whole.text ++ fraction.text) 0) true
      fraction.text.length)
  | character c => .character c
  | string s => .string s

def text : Word → List Char
  | keyword k => k.spelling.toList
  | punct p => p.spelling.toList
  | identifier name => name.text
  | integer n _ => Nat.toDigits 10 n.toNatClampNeg
  | real whole fraction => whole.text ++ '.' :: fraction.text
  | character c => quotedIn Text.singleQuote [c]
  | string s => quotedIn Text.doubleQuote s.toList

end Word

/-- Words one after the other, each with what separates it from the next one. -/
def rendered (words : List (Word × Separator)) : List Char :=
  words.flatMap fun w => w.1.text ++ w.2.text

namespace Lexer

/-! ## What pieces start with -/

theorem isDigit_of {c : Char} (h : IsDigit c) : c.isDigit = true := by
  simp only [IsDigit, Char.le_def] at h
  simp only [Char.isDigit, Bool.and_eq_true, decide_eq_true_eq]
  exact h

theorem isAlpha_eq (c : Char) : c.isAlpha =
    (decide (c.val ≥ 'A'.val ∧ c.val ≤ 'Z'.val) ||
      decide (c.val ≥ 'a'.val) && decide (c.val ≤ 'z'.val)) :=
  rfl

theorem isWordStart_of {c : Char} (h : IsNameStart c) : isWordStart c = true := by
  simp only [IsNameStart, Char.le_def] at h
  simp only [isWordStart, isAlpha_eq, Bool.or_eq_true, Bool.and_eq_true, decide_eq_true_eq]
  rcases h with h | h | h
  · exact .inl (.inr h)
  · exact .inl (.inl h)
  · exact .inr h

theorem isWordPart_of {c : Char} (h : IsNameStart c ∨ IsDigit c) : isWordPart c = true := by
  rcases h with h | h
  · have hstart := isWordStart_of h
    simp only [isWordStart, Bool.or_eq_true] at hstart
    simp only [isWordPart, Char.isAlphanum, Bool.or_eq_true]
    rcases hstart with ha | hu
    · exact .inl (.inl ha)
    · exact .inr hu
  · simp only [isWordPart, Char.isAlphanum, isDigit_of h, Bool.or_true, Bool.true_or]

theorem isBlank_cases {c : Char} (h : isBlank c = true) :
    c = ' ' ∨ c = '\t' ∨ c = '\r' ∨ c = '\x0c' := by
  simp only [isBlank, Bool.or_eq_true, decide_eq_true_eq] at h
  simpa only [or_assoc] using h

theorem recognise_blank {c : Char} (h : isBlank c = true) (cs : List Char) :
    recognise c cs = (.trivia .blank, cs.takeWhile isBlank) := by
  rw [recognise, if_pos h]

theorem recognise_digit {c : Char} (h : c.isDigit = true) (cs : List Char) :
    recognise c cs = number c cs := by
  have hblank : isBlank c ≠ true := by
    intro hb
    rcases isBlank_cases hb with rfl | rfl | rfl | rfl <;> cases h
  have hline : c ≠ '\n' := by
    rintro rfl
    cases h
  rw [recognise, if_neg hblank, if_neg hline, if_pos h]

theorem recognise_letter {c : Char} (h : isWordStart c = true) (cs : List Char) :
    recognise c cs = (.word, cs.takeWhile isWordPart) := by
  have hblank : isBlank c ≠ true := by
    intro hb
    rcases isBlank_cases hb with rfl | rfl | rfl | rfl <;> cases h
  have hline : c ≠ '\n' := by
    rintro rfl
    cases h
  have hdigit : c.isDigit ≠ true := by
    intro hd
    simp only [Char.isDigit, Bool.and_eq_true, decide_eq_true_eq, UInt32.le_iff_toNat_le] at hd
    simp only [isWordStart, isAlpha_eq, Bool.or_eq_true, Bool.and_eq_true, decide_eq_true_eq,
      UInt32.le_iff_toNat_le] at h
    rcases h with h | rfl
    · simp at h hd
      omega
    · simp at hd
  rw [recognise, if_neg hblank, if_neg hline, if_neg hdigit, if_pos h]

/-! ## Between words -/

/-- One blank after the other or all at once, the next item is the same. -/
theorem next_blank {c : Char} (h : isBlank c = true) (cs : List Char) (m : Mark)
    (ws : List Warning) :
    next ⟨c :: cs, m, ws⟩ = next ⟨cs, m.along [c], ws⟩ := by
  have hall := next_of_skipped (l := ⟨c :: cs, m, ws⟩) rfl (recognise_blank h cs) rfl
  rw [hall]
  cases cs with
  | nil => rfl
  | cons d ds =>
    by_cases hd : isBlank d = true
    · have hrest :=
        next_of_skipped (l := ⟨d :: ds, m.along [c], ws⟩) rfl (recognise_blank hd ds) rfl
      rw [hrest, List.takeWhile_cons_of_pos hd, List.length_cons, List.drop_succ_cons]
      simp only [markBehind, Pattern.breaks]
      rw [Mark.along_cons]
      rfl
    · rw [List.takeWhile_cons_of_neg hd]
      rfl

theorem next_newline (cs : List Char) (m : Mark) (ws : List Warning) :
    ∃ m', next ⟨'\n' :: cs, m, ws⟩ = next ⟨cs, m', ws⟩ :=
  ⟨_, next_of_skipped (l := ⟨'\n' :: cs, m, ws⟩) rfl rfl rfl⟩

theorem next_space (s : Space) (cs : List Char) (m : Mark) (ws : List Warning) :
    ∃ m', next ⟨s.char :: cs, m, ws⟩ = next ⟨cs, m', ws⟩ := by
  cases s with
  | newline => exact next_newline cs m ws
  | space => exact ⟨_, next_blank rfl cs m ws⟩
  | tab => exact ⟨_, next_blank rfl cs m ws⟩
  | carriageReturn => exact ⟨_, next_blank rfl cs m ws⟩
  | formFeed => exact ⟨_, next_blank rfl cs m ws⟩

theorem next_remark (r : Remark) (cs : List Char) (m : Mark) (ws : List Warning) :
    ∃ m', next ⟨'/' :: '/' :: (r.text ++ '\n' :: cs), m, ws⟩ = next ⟨cs, m', ws⟩ := by
  have htext : lineCommentTail (r.text ++ '\n' :: cs) = r.text := by
    rw [lineCommentTail, List.takeWhile_append_of_pos]
    · simp
    · intro c hc
      simp [r.onLine c hc]
  have hp : recognise '/' ('/' :: (r.text ++ '\n' :: cs)) =
      (.trivia .lineComment, '/' :: r.text) := by
    have hslash : recognise '/' ('/' :: (r.text ++ '\n' :: cs)) =
      (.trivia .lineComment, '/' :: lineCommentTail (r.text ++ '\n' :: cs)) := rfl
    rw [hslash, htext]
  have hcomment := next_of_skipped (l := ⟨'/' :: '/' :: (r.text ++ '\n' :: cs), m, ws⟩) rfl hp rfl
  rw [hcomment, List.length_cons, List.drop_succ_cons, List.drop_left]
  exact next_newline cs _ ws

theorem next_gaps (gaps : List Gap) (cs : List Char) (m : Mark) (ws : List Warning) :
    ∃ m', next ⟨gaps.flatMap Gap.text ++ cs, m, ws⟩ = next ⟨cs, m', ws⟩ := by
  induction gaps generalizing m with
  | nil => exact ⟨m, rfl⟩
  | cons gap gaps ih =>
    rw [List.flatMap_cons, List.append_assoc]
    cases gap with
    | space s =>
      obtain ⟨m', hs⟩ := next_space s (gaps.flatMap Gap.text ++ cs) m ws
      obtain ⟨m'', hrest⟩ := ih m'
      exact ⟨m'', hs.trans hrest⟩
    | remark r =>
      obtain ⟨m', hr⟩ := next_remark r (gaps.flatMap Gap.text ++ cs) m ws
      obtain ⟨m'', hrest⟩ := ih m'
      refine ⟨m'', Eq.trans ?_ (hr.trans hrest)⟩
      simp only [Gap.text, List.cons_append, List.append_assoc, List.nil_append]

theorem next_separator (s : Separator) (cs : List Char) (m : Mark) (ws : List Warning) :
    ∃ m', next ⟨s.text ++ cs, m, ws⟩ = next ⟨cs, m', ws⟩ := by
  obtain ⟨m', hs⟩ := next_space s.first (s.others.flatMap Gap.text ++ cs) m ws
  obtain ⟨m'', hrest⟩ := next_gaps s.others cs m' ws
  exact ⟨m'', hs.trans hrest⟩

/-! ## Words -/

/-- In front of white space the text is one piece, and what it reads as is the token. -/
def Reads (text : List Char) (token : Token) : Prop :=
  ∃ c tail pattern, text = c :: tail ∧
    (∀ (s : Space) (cs : List Char), recognise c (tail ++ s.char :: cs) = (pattern, tail)) ∧
    ∀ m, read m pattern text = .item (.ok token) []

theorem Reads.next {text : List Char} {token : Token} (h : Reads text token) (s : Separator)
    (cs : List Char) (m : Mark)
    (ws : List Warning) : ∃ m', Lexer.next ⟨text ++ (s.text ++ cs), m, ws⟩ =
      (some ⟨m, text, .ok token⟩, ⟨s.text ++ cs, m', ws⟩) := by
  obtain ⟨c, tail, pattern, rfl, hpiece, hread⟩ := h
  have hitem := next_of_item (l := ⟨c :: (tail ++ (s.text ++ cs)), m, ws⟩) rfl
    (hpiece s.first (s.others.flatMap Gap.text ++ cs)) (hread m)
  rw [List.drop_left, List.append_nil] at hitem
  exact ⟨_, hitem⟩

/-- White space goes on neither a word nor a number. -/
theorem space_apart (s : Space) :
    isWordPart s.char = false ∧ s.char.isDigit = false ∧ s.char ≠ 'x' ∧ s.char ≠ 'X' := by
  cases s <;> decide

theorem takeWhile_before {p : Char → Bool} {text : List Char}
    (h : ∀ c ∈ text, p c = true) {c : Char} (hc : p c = false) (cs : List Char) :
    (text ++ c :: cs).takeWhile p = text ∧ (text ++ c :: cs).dropWhile p = c :: cs := by
  constructor
  · rw [List.takeWhile_append_of_pos h, List.takeWhile_cons_of_neg (by simp [hc]), List.append_nil]
  · rw [List.dropWhile_append_of_pos h, List.dropWhile_cons_of_neg (by simp [hc])]

theorem reads_word {c : Char} {tail : List Char} (hc : isWordStart c = true)
    (htail : ∀ d ∈ tail, isWordPart d = true) : Reads (c :: tail) (readWord (c :: tail)) := by
  refine ⟨c, tail, .word, rfl, fun s cs => ?_, fun m => rfl⟩
  rw [recognise_letter hc, (takeWhile_before htail (space_apart s).1 cs).1]

theorem reads_keyword (k : Keyword) : Reads k.spelling.toList (.keyword k) := by
  have hfound : Keyword.ofSpelling? k.spelling = some k := by
    cases k <;> decide +kernel
  have hread : readWord k.spelling.toList = .keyword k := by
    simp only [readWord, String.ofList_toList, hfound]
  have hletters : k.spelling.toList.head?.any isWordStart = true ∧
      k.spelling.toList.all isWordPart = true := by
    cases k <;> decide +kernel
  rw [← hread]
  cases htext : k.spelling.toList with
  | nil =>
    rw [htext] at hletters
    cases hletters.1
  | cons c tail =>
    rw [htext] at hletters
    exact reads_word hletters.1 fun d hd =>
      List.all_eq_true.mp hletters.2 d (List.mem_cons_of_mem c hd)

theorem reads_name (name : Name) : Reads name.text (.identifier (String.ofList name.text)) := by
  have hfree : Keyword.ofSpelling? (String.ofList name.text) = none := by
    rw [Keyword.ofSpelling?, List.find?_eq_none]
    intro k _ hk
    have hspelling : k.spelling = String.ofList name.text := eq_of_beq hk
    exact name.free k (by rw [hspelling, String.toList_ofList]; rfl)
  have hread : readWord name.text = .identifier (String.ofList name.text) := by
    simp only [readWord, hfree]
  rw [← hread]
  exact reads_word (isWordStart_of name.starts) fun c hc => isWordPart_of (name.parts c hc)

theorem reads_punct (p : Punct) : Reads p.spelling.toList (.punct p) := by
  have hsign : ∃ c tail, p.spelling.toList = c :: tail ∧
      ∀ (s : Space) (cs : List Char), recognise c (tail ++ s.char :: cs) = (.punct p, tail) := by
    cases p <;> exact ⟨_, _, rfl, fun s cs => by cases s <;> rfl⟩
  obtain ⟨c, tail, htext, hpiece⟩ := hsign
  exact ⟨c, tail, .punct p, htext, hpiece, fun m => rfl⟩

/-! ## Numbers -/

theorem natOfDigits?_ten (digits : List Char) (h : ∀ c ∈ digits, c.isDigit = true) :
    natOfDigits? 10 digits = some (Nat.ofDigitChars 10 digits 0) := by
  have hfrom : ∀ n, digits.foldlM (fun n c => do
      let d ← digitValue? c
      if d < 10 then some (n * 10 + d) else none) n = some (Nat.ofDigitChars 10 digits n) := by
    induction digits with
    | nil => exact fun n => rfl
    | cons c digits ih =>
      intro n
      have hc := h c List.mem_cons_self
      have hbelow : c.toNat - '0'.toNat < 10 := by
        have hrange := Char.isDigit_iff_toNat.mp hc
        have hzero : '0'.toNat = 48 := rfl
        have hnine : '9'.toNat = 57 := rfl
        omega
      rw [List.foldlM_cons, Nat.ofDigitChars_cons]
      simp only [digitValue?, if_pos hc, Option.bind_eq_bind, Option.bind_some, if_pos hbelow]
      rw [Nat.mul_comm]
      exact ih (fun d hd => h d (List.mem_cons_of_mem c hd)) _
  exact hfrom 0

/-- A number does not start with a zero unless that is all of it. -/
theorem toDigits_cons {n : Nat} (h : 0 < n) : ∃ c cs, Nat.toDigits 10 n = c :: cs ∧ c ≠ '0' := by
  induction n using Nat.strongRecOn with
  | ind n ih =>
    by_cases hn : n < 10
    · refine ⟨n.digitChar, [], Nat.toDigits_of_lt_base hn, ?_⟩
      have hall : ∀ k < 10, 0 < k → k.digitChar ≠ '0' := by decide
      exact hall n hn h
    · have hle : 10 ≤ n := by omega
      obtain ⟨c, cs, hcs, hc⟩ := ih (n / 10) (by omega) (by omega)
      refine ⟨c, cs ++ [(n % 10).digitChar], ?_, hc⟩
      rw [Nat.toDigits_of_base_le (by omega) hle, hcs, List.cons_append]

theorem decimalValue?_toDigits {n : Int64} (h : 0 ≤ n) :
    decimalValue? (Nat.toDigits 10 n.toNatClampNeg) = some n := by
  have hvalue : integerOfDigits? 10 (Nat.toDigits 10 n.toNatClampNeg) = some n := by
    have hdigits := natOfDigits?_ten (Nat.toDigits 10 n.toNatClampNeg)
      fun c hc => Nat.isDigit_of_mem_toDigits (by omega) (by omega) hc
    have hlt : n.toNatClampNeg < 1 <<< 63 := Int64.toNatClampNeg_lt n
    rw [Nat.ofDigitChars_ten_toDigits] at hdigits
    simp only [integerOfDigits?, hdigits, Option.bind_eq_bind, Option.bind_some, if_pos hlt,
      Int64.ofNat_toNatClampNeg n h]
  by_cases hzero : n.toNatClampNeg = 0
  · rw [hzero, Nat.toDigits_zero] at hvalue ⊢
    exact hvalue
  · obtain ⟨c, cs, hcs, hc⟩ := toDigits_cons (Nat.pos_of_ne_zero hzero)
    rw [hcs] at hvalue ⊢
    rw [decimalValue?.eq_def]
    split
    · next heq =>
      cases heq
      exact absurd rfl hc
    · exact hvalue

theorem hexTail?_of_ne {c : Char} (h : c ≠ 'x' ∧ c ≠ 'X') (cs : List Char) :
    hexTail? (c :: cs) = none := by
  simp [hexTail?, h]

theorem ne_x_of_digit {c : Char} (h : c.isDigit = true) : c ≠ 'x' ∧ c ≠ 'X' := by
  constructor <;> rintro rfl <;> cases h

/-- Digits with a character behind them that is no base mark are not hexadecimal. -/
theorem not_hexadecimal (c : Char) {digits : List Char}
    (h : ∀ d ∈ digits, d.isDigit = true) {d : Char} (hd : d ≠ 'x' ∧ d ≠ 'X') (cs : List Char) :
    (if c = '0' then hexTail? (digits ++ d :: cs) else none) = none := by
  have hnone : hexTail? (digits ++ d :: cs) = none := by
    cases digits with
    | nil => exact hexTail?_of_ne hd cs
    | cons e digits => exact hexTail?_of_ne (ne_x_of_digit (h e List.mem_cons_self)) _
  rw [hnone, ite_self]

/-- Nothing but a point can make more of digits than a whole number. -/
theorem number_before (c : Char) {digits : List Char}
    (h : ∀ d ∈ digits, d.isDigit = true) {d : Char}
    (hd : d.isDigit = false) (hx : d ≠ 'x' ∧ d ≠ 'X') (hpoint : d ≠ '.') (cs : List Char) :
    number c (digits ++ d :: cs) = (.decimal, digits) := by
  have hbefore := takeWhile_before h hd cs
  have hfraction : fraction? (d :: cs) = none := by
    unfold fraction?
    split
    · next heq =>
      cases heq
      exact absurd rfl hpoint
    · rfl
  simp only [number, not_hexadecimal c h hx, hbefore.1, hbefore.2, hfraction]

theorem number_point (c : Char) {digits : List Char} (h : ∀ d ∈ digits, d.isDigit = true)
    {first : Char} {others : List Char} (hf : ∀ d ∈ first :: others, d.isDigit = true) (s : Space)
    (cs : List Char) :
    number c (digits ++ '.' :: (first :: others ++ s.char :: cs)) =
      (.real, digits ++ '.' :: first :: others) := by
  have hs := (space_apart s).2.1
  have hbefore :=
    takeWhile_before h (show '.'.isDigit = false by decide) (first :: others ++ s.char :: cs)
  have hfraction : fraction? ('.' :: (first :: others ++ s.char :: cs)) =
      some ('.' :: first :: others) := by
    rw [fraction?, (takeWhile_before hf hs cs).1]
    exact if_pos (hf first List.mem_cons_self)
  simp only [number, not_hexadecimal c h (show '.' ≠ 'x' ∧ '.' ≠ 'X' by decide), hbefore.1,
    hbefore.2, hfraction]

/-- An integer is one piece in front of anything that does not go on with it. -/
theorem integer_before {n : Int64} (h : 0 ≤ n) :
    ∃ c tail, Nat.toDigits 10 n.toNatClampNeg = c :: tail ∧
    (∀ {d : Char}, d.isDigit = false → d ≠ 'x' ∧ d ≠ 'X' → d ≠ '.' →
      ∀ cs, recognise c (tail ++ d :: cs) = (.decimal, tail)) ∧
    ∀ m, read m .decimal (c :: tail) = .item (.ok (.integer n)) [] := by
  have hvalue := decimalValue?_toDigits h
  have hdigits : ∀ c ∈ Nat.toDigits 10 n.toNatClampNeg, c.isDigit = true :=
    fun c hc => Nat.isDigit_of_mem_toDigits (by omega) (by omega) hc
  cases htext : Nat.toDigits 10 n.toNatClampNeg with
  | nil => exact absurd htext Nat.toDigits_ne_nil
  | cons c tail =>
    rw [htext] at hvalue hdigits
    refine ⟨c, tail, rfl, fun hd hx hpoint cs => ?_, fun m => ?_⟩
    · rw [recognise_digit (hdigits c List.mem_cons_self)]
      exact number_before c (fun d hd => hdigits d (List.mem_cons_of_mem c hd)) hd hx hpoint cs
    · simp only [read, readNumber, hvalue]

theorem reads_integer {n : Int64} (h : 0 ≤ n) :
    Reads (Nat.toDigits 10 n.toNatClampNeg) (.integer n) := by
  obtain ⟨c, tail, htext, hpiece, hread⟩ := integer_before h
  rw [htext]
  refine ⟨c, tail, .decimal, rfl, fun s cs => ?_, hread⟩
  exact hpiece (space_apart s).2.1 (space_apart s).2.2 (by cases s <;> decide) cs

theorem reads_real (whole fraction : Digits) :
    Reads (Word.real whole fraction).text (Word.real whole fraction).token := by
  have hwhole : ∀ c ∈ whole.text, c.isDigit = true := fun c hc => isDigit_of (whole.digits c hc)
  have hfraction : ∀ c ∈ fraction.text, c.isDigit = true :=
    fun c hc => isDigit_of (fraction.digits c hc)
  refine ⟨whole.first, whole.others ++ '.' :: fraction.text, .real, rfl, fun s cs => ?_,
    fun m => ?_⟩
  · rw [recognise_digit (hwhole _ List.mem_cons_self), List.append_assoc, List.cons_append]
    exact number_point whole.first (fun d hd => hwhole d (List.mem_cons_of_mem _ hd)) hfraction s cs
  · have hvalue : realValue? (whole.text ++ '.' :: fraction.text) =
        some (Float.ofScientific (Nat.ofDigitChars 10 (whole.text ++ fraction.text) 0) true
            fraction.text.length) := by
      have hpoint := takeWhile_before hwhole (show '.'.isDigit = false by decide) fraction.text
      have hall := natOfDigits?_ten (whole.text ++ fraction.text)
        fun c hc => (List.mem_append.mp hc).elim (hwhole c) (hfraction c)
      simp only [realValue?, hpoint.1, hpoint.2, List.drop_succ_cons, List.drop_zero, hall,
        Option.bind_eq_bind, Option.bind_some]
    simp only [read, readNumber, Word.text, Word.token, hvalue]

/-! ## Quotes -/

/-- A written character is an escape that stands for it, or it is plain. -/
theorem escapedIn_cases {quote : Char} (hquote : simpleEscape? quote = some quote) (c : Char) :
    (∃ e, escapedIn quote c = [Text.backslash, e] ∧ simpleEscape? e = some c) ∨
      (escapedIn quote c = [c] ∧ c ≠ '\n' ∧ c ≠ Text.backslash ∧ c ≠ quote) := by
  by_cases hline : c = '\n'
  · subst hline
    exact .inl ⟨'n', rfl, rfl⟩
  · by_cases hc : c = Text.backslash ∨ c = quote
    · refine .inl ⟨c, ?_, ?_⟩
      · rw [escapedIn, if_neg hline, if_pos hc]
      · rcases hc with rfl | rfl
        · rfl
        · exact hquote
    · refine .inr ⟨?_, hline, fun h => hc (.inl h), fun h => hc (.inr h)⟩
      rw [escapedIn, if_neg hline, if_neg hc]

theorem quotedTail?_escape {quote e : Char} (he : e ≠ '\n') (cs : List Char) :
    quotedTail? quote (Text.backslash :: e :: cs) =
      (quotedTail? quote cs).map (Text.backslash :: e :: ·) := by
  rw [Text.backslash, quotedTail?, if_neg he]

theorem quotedTail?_plain {quote c : Char} (hc : c ≠ '\n' ∧ c ≠ Text.backslash ∧ c ≠ quote)
    (cs : List Char) :
    quotedTail? quote (c :: cs) = (quotedTail? quote cs).map (c :: ·) := by
  rw [quotedTail?, if_neg hc.2.2, if_neg hc.1]
  exact hc.2.1

theorem quotedTail?_written {quote : Char} (hquote : simpleEscape? quote = some quote)
    (hslash : quote ≠ Text.backslash) (text rest : List Char) :
    quotedTail? quote (text.flatMap (escapedIn quote) ++ quote :: rest) =
      some (text.flatMap (escapedIn quote) ++ [quote]) := by
  induction text with
  | nil =>
    show quotedTail? quote (quote :: rest) = some [quote]
    rw [quotedTail?, if_pos rfl]
    exact hslash
  | cons c text ih =>
    rw [List.flatMap_cons, List.append_assoc, List.append_assoc]
    rcases escapedIn_cases hquote c with ⟨e, hc, he⟩ | ⟨hc, hplain⟩
    · have hline : e ≠ '\n' := by
        rintro rfl
        cases he
      rw [hc, List.cons_append, List.singleton_append, quotedTail?_escape hline, ih]
      rfl
    · rw [hc, List.singleton_append, quotedTail?_plain hplain, ih]
      rfl

theorem unescape?_escape {e c : Char} (he : simpleEscape? e = some c) (m : Mark)
    {cs text : List Char} (h : ∀ m, unescape? m cs = some (text, [])) :
    unescape? m (Text.backslash :: e :: cs) = some (c :: text, []) := by
  have hx : e ≠ 'x' := by
    rintro rfl
    cases he
  rw [Text.backslash, unescape?]
  · simp only [h, he, Option.bind_eq_bind, Option.bind_some]
  · exact fun _ _ _ hx' => absurd hx' hx
  · exact hx

theorem unescape?_plain {c : Char} (hc : c ≠ Text.backslash) (m : Mark) {cs text : List Char}
    (h : ∀ m, unescape? m cs = some (text, [])) : unescape? m (c :: cs) = some (c :: text, []) := by
  rw [unescape?]
  · simp only [h, Option.bind_eq_bind, Option.bind_some]
  · exact fun _ _ _ hslash => absurd hslash hc
  · exact fun _ hslash => absurd hslash hc
  · exact fun hslash => absurd hslash hc
  · exact fun _ _ hslash => absurd hslash hc

theorem unescape?_written {quote : Char} (hquote : simpleEscape? quote = some quote)
    (text : List Char) :
    ∀ m, unescape? m (text.flatMap (escapedIn quote)) = some (text, []) := by
  induction text with
  | nil => exact fun m => rfl
  | cons c text ih =>
    intro m
    rw [List.flatMap_cons]
    rcases escapedIn_cases hquote c with ⟨e, hc, he⟩ | ⟨hc, hplain⟩
    · rw [hc]
      exact unescape?_escape he m ih
    · rw [hc]
      exact unescape?_plain hplain.2.1 m ih

theorem reads_quoted {quote : Char} (kind : Pattern) {token : Token} {text : List Char}
    (hquote : simpleEscape? quote = some quote) (hslash : quote ≠ Text.backslash)
    (hstart : ∀ cs, recognise quote cs = quoted quote kind cs)
    (hread : ∀ m, (∀ m, unescape? m (body (quotedIn quote text)) = some (text, [])) →
      read m kind (quotedIn quote text) = .item (.ok token) []) :
    Reads (quotedIn quote text) token := by
  have hbody : body (quotedIn quote text) = text.flatMap (escapedIn quote) := by
    rw [body, quotedIn, List.drop_succ_cons, List.drop_zero, List.dropLast_concat]
  refine ⟨quote, text.flatMap (escapedIn quote) ++ [quote], kind, rfl, fun s cs => ?_,
    fun m => hread m ?_⟩
  · rw [hstart, quoted, List.append_assoc, List.singleton_append, quotedTail?_written hquote hslash]
  · rw [hbody]
    exact unescape?_written hquote text

theorem reads_character (c : Char) : Reads (quotedIn Text.singleQuote [c]) (.character c) := by
  refine reads_quoted .character rfl (by decide) (fun cs => rfl) fun m h => ?_
  simp only [read, readCharacter, h]

theorem reads_string (s : String) : Reads (quotedIn Text.doubleQuote s.toList) (.string s) := by
  refine reads_quoted .string rfl (by decide) (fun cs => rfl) fun m h => ?_
  simp only [read, readString, h, String.ofList_toList]

/-! ## All of it -/

theorem reads (w : Word) : Reads w.text w.token := by
  cases w with
  | keyword k => exact reads_keyword k
  | punct p => exact reads_punct p
  | identifier name => exact reads_name name
  | integer n h => exact reads_integer h
  | real whole fraction => exact reads_real whole fraction
  | character c => exact reads_character c
  | string s => exact reads_string s

/-- What stands in front of the words does not matter if the next item is the same without it. -/
theorem items_rendered (words : List (Word × Separator)) (front : List Char)
    (hfront : ∀ cs m, ∃ m', Lexer.next ⟨front ++ cs, m, []⟩ = Lexer.next ⟨cs, m', []⟩) (m : Mark) :
    (items ⟨front ++ rendered words, m, []⟩).1.map (fun item => (item.text, item.result)) =
        words.map (fun w => (w.1.text, .ok w.1.token)) ∧
      (items ⟨front ++ rendered words, m, []⟩).2.warnings = [] := by
  induction words generalizing front m with
  | nil =>
    obtain ⟨m', hnext⟩ := hfront (rendered []) m
    have hend : next ⟨rendered [], m', []⟩ = (none, ⟨rendered [], m', []⟩) := by rw [next]; rfl
    rw [items_of_next_none (hnext.trans hend)]
    exact ⟨rfl, rfl⟩
  | cons w words ih =>
    have htext : rendered (w :: words) = w.1.text ++ (w.2.text ++ rendered words) := by
      rw [rendered, List.flatMap_cons, List.append_assoc]
      rfl
    obtain ⟨m', hnext⟩ := hfront (rendered (w :: words)) m
    obtain ⟨m'', hword⟩ := (reads w.1).next w.2 (rendered words) m' []
    rw [← htext] at hword
    obtain ⟨hitems, hwarnings⟩ := ih w.2.text (fun cs m => next_separator w.2 cs m []) m''
    rw [items_of_next_some (hnext.trans hword)]
    refine ⟨?_, hwarnings⟩
    rw [List.map_cons, List.map_cons, hitems]

end Lexer

/-- Words that are written one after the other, with separators between them, are read as these
words: each is an item with its own text and its own token, and there are no other items and no
warnings. -/
theorem lexing_undoes_rendering (words : List (Word × Separator)) :
    (Lexer.ofSource (String.ofList (rendered words))).items.1.map
      (fun item => (item.text, item.result)) =
        words.map (fun w => (w.1.text, .ok w.1.token)) ∧
      (Lexer.ofSource (String.ofList (rendered words))).items.2.warnings = [] := by
  rw [Lexer.ofSource, String.toList_ofList]
  exact Lexer.items_rendered words [] (fun cs m => ⟨m, rfl⟩) Mark.start

end Replay
