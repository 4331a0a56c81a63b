import Mathlib.Data.Nat.Digits.Defs
import Lossless.Proofs.LongestLexeme
import Lossless.Proofs.Rounding

/-!
# Numeric literals

What can be written as a number is an integer literal or a fraction literal: a sign or none, digits,
and in a fraction a point with more digits or none behind it. Each has an exact value, whatever the
number of its digits. A lexer in front of a literal takes all of it and nothing more, and the value
decides what comes of it:

* `integer_literal`: an integer of 32 bits, else one of 64 bits, else an error;
* `fraction_literal`: the value rounded to binary32, or to binary64 if it is too large for that, or
  an error if it is too large for both.
-/

namespace Lossless

open Text Lexeme

/-! ## Literals and their values -/

/-- What can stand in front of the digits of a literal. -/
inductive Sign where
  | absent
  | plus
  | minus
deriving DecidableEq, Repr

namespace Sign

def chars : Sign → List Char
  | .absent => []
  | .plus => ['+']
  | .minus => ['-']

def isNegative : Sign → Bool
  | .minus => true
  | .absent | .plus => false

end Sign

/-- Decimal digits in a row. -/
structure Digits where
  chars : List Char
  isDigit : ∀ c ∈ chars, c.isDigit = true
deriving Repr

/-- The number that digits spell, the last of them for the ones. -/
def Digits.value (d : Digits) : ℕ :=
  Nat.ofDigits 10 (d.chars.reverse.map fun c => c.toNat - '0'.toNat)

/-- A sign or none, and digits. -/
structure IntegerLiteral where
  sign : Sign
  digits : Digits
  ne_nil : digits.chars ≠ []
deriving Repr

namespace IntegerLiteral

def chars (lit : IntegerLiteral) : List Char := lit.sign.chars ++ lit.digits.chars

def value (lit : IntegerLiteral) : ℤ :=
  if lit.sign.isNegative then -lit.digits.value else lit.digits.value

end IntegerLiteral

/-- A sign or none, digits, a point, and maybe digits behind it. -/
structure FractionLiteral where
  sign : Sign
  whole : Digits
  places : Digits
  ne_nil : whole.chars ≠ []
deriving Repr

namespace FractionLiteral

def chars (lit : FractionLiteral) : List Char :=
  lit.sign.chars ++ lit.whole.chars ++ '.' :: lit.places.chars

def magnitude (lit : FractionLiteral) : ℚ :=
  lit.whole.value + lit.places.value / 10 ^ lit.places.chars.length

def value (lit : FractionLiteral) : ℚ :=
  if lit.sign.isNegative then -lit.magnitude else lit.magnitude

end FractionLiteral

/-- A number does not go on with this text. -/
def EndsNumber (tail : List Char) : Prop := ∀ c ∈ tail.head?, c.isDigit = false ∧ c ≠ '.'

/-! ## Cutting literals off a text -/

/-- A row of digits ends in front of what is no digit. -/
theorem Digits.run (d : Digits) {r : List Char} (hr : ∀ c ∈ r.head?, c.isDigit = false) :
    (d.chars ++ r).takeWhile Char.isDigit = d.chars ∧
      (d.chars ++ r).dropWhile Char.isDigit = r := by
  have hrest : r.takeWhile Char.isDigit = [] ∧ r.dropWhile Char.isDigit = r := by
    cases r with
    | nil => exact ⟨rfl, rfl⟩
    | cons c r =>
      have hc : c.isDigit = false := hr c rfl
      simp [hc]
  rw [List.takeWhile_append_of_pos d.isDigit, List.dropWhile_append_of_pos d.isDigit, hrest.1,
    hrest.2, List.append_nil]
  exact ⟨rfl, rfl⟩

/-- A sign and digits start a number, and its whole part ends with the digits. -/
theorem Sign.exists_scan (s : Sign) {d : Digits} (hd : d.chars ≠ []) {r : List Char}
    (hr : ∀ c ∈ r.head?, c.isDigit = false) :
    ∃ c cs, s.chars ++ d.chars ++ r = c :: cs ∧ scan c cs = cutNumber c cs ∧
      c :: cs.takeWhile Char.isDigit = s.chars ++ d.chars ∧
      cs.dropWhile Char.isDigit = r := by
  obtain ⟨htake, hdrop⟩ := d.run hr
  rcases d with ⟨chars, hdigits⟩
  cases chars with
  | nil => exact absurd rfl hd
  | cons e ds =>
    have he : e.isDigit = true := hdigits e List.mem_cons_self
    simp only at htake hdrop
    -- A number starts with a digit or with a sign in front of one, so the first character differs.
    cases s with
    | absent =>
      refine ⟨e, ds ++ r, rfl, scan_of_number (by simp [startsNumber, he]), ?_, ?_⟩
      · rw [List.cons_append, List.takeWhile_cons_of_pos he] at htake
        exact htake
      · rw [List.cons_append, List.dropWhile_cons_of_pos he] at hdrop
        exact hdrop
    | plus =>
      refine ⟨'+', e :: ds ++ r, rfl, scan_of_number (by simp [startsNumber, he]), ?_, hdrop⟩
      rw [htake]
      rfl
    | minus =>
      refine ⟨'-', e :: ds ++ r, rfl, scan_of_number (by simp [startsNumber, he]), ?_, hdrop⟩
      rw [htake]
      rfl

/-- The lexer takes all of an integer and nothing of what follows. -/
theorem IntegerLiteral.exists_scan (lit : IntegerLiteral) {tail : List Char}
    (ends : EndsNumber tail) :
    ∃ c cs, lit.chars ++ tail = c :: cs ∧ scan c cs = ⟨.integer, lit.chars, tail⟩ := by
  obtain ⟨c, cs, htext, hscan, htake, hdrop⟩ :=
    lit.sign.exists_scan lit.ne_nil (fun c hc => (ends c hc).1)
  refine ⟨c, cs, htext, ?_⟩
  rw [hscan, cutNumber, hdrop]
  simp only [htake]
  -- What follows does not begin with a point.
  split
  · exact absurd rfl (ends '.' rfl).2
  · rfl

/-- The lexer takes all of a fraction, with its one point, and nothing of what follows. -/
theorem FractionLiteral.exists_scan (lit : FractionLiteral) {tail : List Char}
    (ends : EndsNumber tail) :
    ∃ c cs, lit.chars ++ tail = c :: cs ∧ scan c cs = ⟨.fraction, lit.chars, tail⟩ := by
  have hpoint : ∀ c ∈ ('.' :: (lit.places.chars ++ tail)).head?, c.isDigit = false := by
    rintro c ⟨⟩
    rfl
  obtain ⟨c, cs, htext, hscan, htake, hdrop⟩ := lit.sign.exists_scan lit.ne_nil hpoint
  obtain ⟨hplaces, hrest⟩ := lit.places.run (r := tail) fun c hc => (ends c hc).1
  refine ⟨c, cs, ?_, ?_⟩
  · rw [← htext, FractionLiteral.chars]
    simp
  · rw [hscan, cutNumber, hdrop]
    simp only [hplaces, hrest, htake]
    -- What follows does not begin with a second point.
    split
    · exact absurd rfl (ends '.' rfl).2
    · rfl

/-! ## Reading literals -/

/-- Digits from the left denote what the library's digits from the right denote. -/
theorem Number.ofDigits_eq (ds : List Char) :
    Number.ofDigits ds = Nat.ofDigits 10 (ds.reverse.map fun c => c.toNat - '0'.toNat) := by
  rw [Nat.ofDigits_eq_foldr, List.foldr_map, List.foldr_reverse, Number.ofDigits]
  congr 1
  funext n c
  rw [Nat.cast_id]
  omega

/-- A sign is split off digits. -/
theorem Sign.splitSign_append (s : Sign) {d : Digits} (hd : d.chars ≠ []) (r : List Char) :
    Number.splitSign (s.chars ++ (d.chars ++ r)) = (s.isNegative, d.chars ++ r) := by
  cases s with
  | plus => rfl
  | minus => rfl
  | absent =>
    rcases d with ⟨chars, hdigits⟩
    cases chars with
    | nil => exact absurd rfl hd
    | cons e ds =>
      have he : e.isDigit = true := hdigits e List.mem_cons_self
      -- A digit is no sign.
      simp only [Sign.chars, List.nil_append, List.cons_append, Number.splitSign, Sign.isNegative]
      split
      · rename_i heq
        cases heq
        cases he
      · rename_i heq
        cases heq
        cases he
      · rfl

/-- An integer is read from its characters by its value. -/
theorem IntegerLiteral.readInteger?_chars (lit : IntegerLiteral) :
    Number.readInteger? lit.chars = Number.ofInt? lit.value := by
  have hsplit := lit.sign.splitSign_append lit.ne_nil []
  rw [List.append_nil] at hsplit
  have hdigits : lit.digits.chars.all Char.isDigit = true := List.all_eq_true.2 lit.digits.isDigit
  have hne : lit.digits.chars.isEmpty = false := by simpa using lit.ne_nil
  simp only [Number.readInteger?, chars, hsplit, hdigits, hne, Number.ofDigits_eq, value,
    Digits.value, Bool.not_true, Bool.or_self, Bool.false_eq_true, if_false]

/-- The digits in front of the point and behind it, put together. -/
def FractionLiteral.numerator (lit : FractionLiteral) : ℕ :=
  Number.ofDigits (lit.whole.chars ++ lit.places.chars)

def FractionLiteral.denominator (lit : FractionLiteral) : ℕ := 10 ^ lit.places.chars.length

theorem FractionLiteral.denominator_pos (lit : FractionLiteral) : 0 < lit.denominator :=
  Nat.pow_pos (by decide)

/-- The magnitude as a fraction of naturals. -/
theorem FractionLiteral.magnitude_eq (lit : FractionLiteral) :
    lit.magnitude = lit.numerator / lit.denominator := by
  have hpow : (10 : ℚ) ^ lit.places.chars.length ≠ 0 := pow_ne_zero _ (by norm_num)
  simp only [magnitude, numerator, denominator, Number.ofDigits_eq, List.reverse_append,
    List.map_append, Nat.ofDigits_append, Digits.value, List.length_map, List.length_reverse]
  push_cast
  field_simp
  ring

/-- A fraction is read from its characters as its digits over a power of ten. -/
theorem FractionLiteral.readFraction?_chars (lit : FractionLiteral) :
    Number.readFraction? lit.chars =
      Number.ofFraction? lit.sign.isNegative lit.numerator lit.denominator := by
  have hsplit := lit.sign.splitSign_append lit.ne_nil ('.' :: lit.places.chars)
  rw [← List.append_assoc] at hsplit
  -- The point is found because it is no digit.
  have hpoint : ∀ c ∈ lit.whole.chars, (c != '.') = true := by
    intro c hc
    have hdigit := lit.whole.isDigit c hc
    rw [bne_iff_ne]
    rintro rfl
    cases hdigit
  have hwhole : (lit.whole.chars ++ '.' :: lit.places.chars).takeWhile (· != '.') =
      lit.whole.chars := by
    rw [List.takeWhile_append_of_pos hpoint]
    simp
  have hplaces : ((lit.whole.chars ++ '.' :: lit.places.chars).dropWhile (· != '.')).drop 1 =
      lit.places.chars := by
    rw [List.dropWhile_append_of_pos hpoint]
    simp
  have hdigits : (lit.whole.chars ++ lit.places.chars).all Char.isDigit = true := by
    rw [List.all_eq_true]
    intro c hc
    rcases List.mem_append.1 hc with hc | hc
    · exact lit.whole.isDigit c hc
    · exact lit.places.isDigit c hc
  have hne : (lit.whole.chars ++ lit.places.chars).isEmpty = false := by
    simp [lit.ne_nil]
  -- What is read are the digits on both sides, over as many tens as there are places.
  simp only [Number.readFraction?, chars, hsplit, hwhole, hplaces, hdigits, hne, Bool.not_true,
    Bool.or_self, Bool.false_eq_true, if_false, Nat.pow_eq]
  rfl

/-! ## The type of a value -/

namespace Number

/-- An integer is kept in 32 bits, or else in 64 bits, or else not at all. -/
theorem ofInt?_cases (z : ℤ) :
    ((-2 ^ 31 ≤ z ∧ z < 2 ^ 31) ∧ ∃ v : Int32, v.toInt = z ∧ ofInt? z = some (.int v)) ∨
    ((¬(-2 ^ 31 ≤ z ∧ z < 2 ^ 31) ∧ -2 ^ 63 ≤ z ∧ z < 2 ^ 63) ∧
      ∃ v : Int64, v.toInt = z ∧ ofInt? z = some (.long v)) ∨
    (¬(-2 ^ 63 ≤ z ∧ z < 2 ^ 63) ∧ ofInt? z = none) := by
  rw [ofInt?]
  by_cases hshort : -2 ^ 31 ≤ z ∧ z < 2 ^ 31
  · left
    exact ⟨hshort, Int32.ofInt z, Int32.toInt_ofInt_of_le hshort.1 hshort.2, if_pos hshort⟩
  · right
    by_cases hlong : -2 ^ 63 ≤ z ∧ z < 2 ^ 63
    · left
      refine ⟨⟨hshort, hlong⟩, Int64.ofInt z, Int64.toInt_ofInt_of_le hlong.1 hlong.2, ?_⟩
      exact (if_neg hshort).trans (if_pos hlong)
    · right
      exact ⟨hlong, (if_neg hshort).trans (if_neg hlong)⟩

open BinaryFormat

/-- The pattern of a rounded number fits the words of its format. -/
theorem lt_of_rounds {f : BinaryFormat} {size : ℕ} (hsize : 2 * f.signBit = size)
    {negative : Bool} {q : ℚ} {bits : ℕ} (h : f.Rounds negative q bits) : bits < size := by
  rw [← hsize]
  exact h.finite.1

-- As an equation of functions: between their values, the kernel would compute patterns of unknown
-- numbers to find the case that applies.
/-- A fraction becomes a number of 32 bits if it can, and of 64 bits otherwise. -/
theorem ofFraction?_eq : ofFraction? = fun negative num den =>
    match binary32.signedBits? negative num den with
    | some bits => some (.float (UInt32.ofNat bits))
    | none =>
      (binary64.signedBits? negative num den).map fun bits => .double (UInt64.ofNat bits) := rfl

/-- A fraction with a sign is rounded to binary32, or else to binary64, or else not at all. -/
theorem ofFraction?_cases (negative : Bool) (num : ℕ) {den : ℕ} (hden : 0 < den) :
    ((num / den : ℚ) < binary32.limit ∧
      ∃ x : UInt32, (∀ bits, binary32.Rounds negative (withSign negative (num / den)) bits ↔
        bits = x.toNat) ∧ ofFraction? negative num den = some (.float x)) ∨
    ((binary32.limit ≤ (num / den : ℚ) ∧ (num / den : ℚ) < binary64.limit) ∧
      ∃ x : UInt64, (∀ bits, binary64.Rounds negative (withSign negative (num / den)) bits ↔
        bits = x.toNat) ∧ ofFraction? negative num den = some (.double x)) ∨
    ((binary32.limit ≤ (num / den : ℚ) ∧ binary64.limit ≤ (num / den : ℚ)) ∧
      ofFraction? negative num den = none) := by
  have hshort := isSome_signedBits? wellFormed_binary32 negative num hden
  have hlong := isSome_signedBits? wellFormed_binary64 negative num hden
  rw [ofFraction?_eq]
  beta_reduce
  -- The short format is tried first, and a format fails only at its limit.
  cases h32 : binary32.signedBits? negative num den with
  | some b =>
    left
    have hrounds := rounds_iff_of_signedBits? wellFormed_binary32 hden h32
    have hword : (UInt32.ofNat b).toNat = b :=
      UInt32.toNat_ofNat_of_lt' (lt_of_rounds (by decide) ((hrounds b).2 rfl))
    rw [h32] at hshort
    refine ⟨hshort.1 rfl, UInt32.ofNat b, ?_, rfl⟩
    rw [hword]
    exact hrounds
  | none =>
    right
    rw [h32, Option.isSome_none, Bool.false_eq_true, false_iff, not_lt] at hshort
    cases h64 : binary64.signedBits? negative num den with
    | some b =>
      left
      have hrounds := rounds_iff_of_signedBits? wellFormed_binary64 hden h64
      have hword : (UInt64.ofNat b).toNat = b :=
        UInt64.toNat_ofNat_of_lt' (lt_of_rounds (by decide) ((hrounds b).2 rfl))
      rw [h64] at hlong
      refine ⟨⟨hshort, hlong.1 rfl⟩, UInt64.ofNat b, ?_, rfl⟩
      rw [hword]
      exact hrounds
    | none =>
      right
      rw [h64, Option.isSome_none, Bool.false_eq_true, false_iff, not_lt] at hlong
      exact ⟨⟨hshort, hlong⟩, rfl⟩

end Number

theorem FractionLiteral.value_eq (lit : FractionLiteral) :
    lit.value = BinaryFormat.withSign lit.sign.isNegative (lit.numerator / lit.denominator) := by
  rw [← lit.magnitude_eq]
  rfl

/-- The sign of a fraction plays no part in its size. -/
theorem FractionLiteral.abs_value (lit : FractionLiteral) :
    |lit.value| = lit.numerator / lit.denominator := by
  have hpos : (0 : ℚ) ≤ lit.numerator / lit.denominator := by positivity
  rw [lit.value_eq, BinaryFormat.withSign]
  split
  · rw [abs_neg, abs_of_nonneg hpos]
  · exact abs_of_nonneg hpos

/-! ## Literals in front of a lexer -/

namespace Lexer

/-- The lexer takes these characters for a number of this value and goes on behind them. -/
def ReadsNumber (l : Lexer) (chars tail : List Char) (value : Number) : Prop :=
  l.next = (.ok ⟨.numberLit, ⟨l.start, l.start + width chars⟩, chars, some value⟩,
    fresh (l.start + width chars) tail)

/-- The lexer takes these characters and fails with a message about them. -/
def RejectsNumber (l : Lexer) (chars tail : List Char) (message : String) : Prop :=
  ∃ fault : Fault, fault.diagnostic = ⟨message, ⟨l.start, l.start + width chars⟩⟩ ∧
    l.next = (.error fault, ⟨l.start, chars, tail⟩)

/-- A literal that is cut off the text stands there, and is read as the number that its characters
give, or rejected if they give none. -/
theorem AtStart.next_number {text chars tail : List Char} {l : Lexer} {shape : Shape}
    {cause : LexicalCause} {outcome : Option Number} (start : AtStart text l)
    (hrest : l.rest = chars ++ tail)
    (hscan : ∃ c cs, chars ++ tail = c :: cs ∧ scan c cs = ⟨shape, chars, tail⟩)
    (heval : evaluate shape chars =
      match outcome with
      | some value => .ok (.numberLit, some value)
      | none => .error cause) :
    Span.Covers text ⟨l.start, l.start + width chars⟩ chars ∧
      (∀ value, l.ReadsNumber chars tail value ↔ outcome = some value) ∧
      (l.RejectsNumber chars tail cause.message ↔ outcome = none) := by
  obtain ⟨c, cs, htext, hcut⟩ := hscan
  have hne : chars ≠ [] := by
    have htaken := scan_taken_ne_nil c cs
    rw [hcut] at htaken
    exact htaken
  -- At the start of a lexeme nothing is held back, so the lexer does what a new one does there.
  have hfresh : l = fresh l.start (c :: cs) := by
    have hmore : l.rest ≠ [] := by
      rw [hrest, htext]
      exact List.cons_ne_nil c cs
    rw [← htext, ← hrest]
    exact start.eq_fresh hmore
  refine ⟨start.covers hrest hne, ?_⟩
  -- The lexer answers once, so it reads one number and rejects nothing, or the other way round.
  cases outcome with
  | some value =>
    have hread : evaluate (scan c cs).shape (scan c cs).taken = .ok (.numberLit, some value) := by
      rw [hcut]
      exact heval
    have hnext := next_fresh_of_ok (p := l.start) hread
    rw [← hfresh, hcut] at hnext
    constructor
    · intro other
      simp [ReadsNumber, hnext]
    · simp [RejectsNumber, hnext]
  | none =>
    have hfailed : evaluate (scan c cs).shape (scan c cs).taken = .error cause := by
      rw [hcut]
      exact heval
    have hnext := next_fresh_of_error (p := l.start) hfailed
    rw [← hfresh, hcut] at hnext
    constructor
    · intro other
      simp [ReadsNumber, hnext]
    · simp only [iff_true]
      exact ⟨_, rfl, hnext⟩

end Lexer

/-- At the start of a lexeme, an integer literal of any length is read as an integer of 32 bits if
its value is one, or else as one of 64 bits, or else it is rejected. -/
theorem integer_literal {text tail : List Char} {l : Lexer} (start : Lexer.AtStart text l)
    (lit : IntegerLiteral) (hrest : l.rest = lit.chars ++ tail) (ends : EndsNumber tail) :
    Span.Covers text ⟨l.start, l.start + width lit.chars⟩ lit.chars ∧
    (-2 ^ 31 ≤ lit.value ∧ lit.value < 2 ^ 31 ↔
      ∃ v : Int32, v.toInt = lit.value ∧ l.ReadsNumber lit.chars tail (.int v)) ∧
    (¬(-2 ^ 31 ≤ lit.value ∧ lit.value < 2 ^ 31) ∧ -2 ^ 63 ≤ lit.value ∧ lit.value < 2 ^ 63 ↔
      ∃ v : Int64, v.toInt = lit.value ∧ l.ReadsNumber lit.chars tail (.long v)) ∧
    (¬(-2 ^ 63 ≤ lit.value ∧ lit.value < 2 ^ 63) ↔
      l.RejectsNumber lit.chars tail "unsupported integer numeric literal") := by
  obtain ⟨hcovers, hreads, hrejects⟩ := start.next_number hrest (lit.exists_scan ends) rfl
  rw [show "unsupported integer numeric literal" = LexicalCause.integerOutOfRange.message from rfl,
    hrejects]
  simp only [hreads, lit.readInteger?_chars]
  refine ⟨hcovers, ?_⟩
  -- The three ranges exclude each other, and in each of them the outcome is known.
  rcases Number.ofInt?_cases lit.value with ⟨hz, v, hv, hof⟩ | ⟨hz, v, hv, hof⟩ | ⟨hz, hof⟩
  · rw [hof]
    exact ⟨iff_of_true hz ⟨v, hv, rfl⟩, iff_of_false (fun h => h.1 hz) (by simp),
      iff_of_false (by omega) (by simp)⟩
  · rw [hof]
    exact ⟨iff_of_false hz.1 (by simp), iff_of_true hz ⟨v, hv, rfl⟩,
      iff_of_false (fun h => h hz.2) (by simp)⟩
  · rw [hof]
    exact ⟨iff_of_false (by omega) (by simp), iff_of_false (fun h => hz h.2) (by simp),
      iff_of_true hz rfl⟩

/-- The smallest integer of 64 bits, with leading zeros. -/
def smallestLong : IntegerLiteral :=
  ⟨.minus, ⟨"0009223372036854775808".toList, List.all_eq_true.1 (by decide)⟩, by decide⟩

/-- The smallest integer that 64 bits hold, between a semicolon and a space. -/
theorem integer_literal_smallestLong :
    ∃ l v, Lexer.AtStart (';' :: smallestLong.chars ++ [' ']) l ∧
      l.rest = smallestLong.chars ++ [' '] ∧ EndsNumber [' '] ∧ smallestLong.value = -2 ^ 63 ∧
      Int64.toInt v = -2 ^ 63 ∧ l.ReadsNumber smallestLong.chars [' '] (.long v) := by
  have hread : (Lexer.new (';' :: smallestLong.chars ++ [' '])).nth 0 =
      .ok ⟨.semicolon, ⟨0, 1⟩, [';'], none⟩ := rfl
  have hstart := Lexer.AtStart.of_new hread
  have hends : EndsNumber [' '] := by
    rintro c ⟨⟩
    decide
  have hvalue : smallestLong.value = -2 ^ 63 := by decide +kernel
  have hrest : ((Lexer.new (';' :: smallestLong.chars ++ [' '])).skip 1).rest =
      smallestLong.chars ++ [' '] := rfl
  obtain ⟨-, -, hlong, -⟩ := integer_literal hstart smallestLong hrest hends
  rw [hvalue] at hlong
  obtain ⟨v, hv, hreads⟩ := hlong.1 (by decide)
  exact ⟨_, v, hstart, hrest, hends, hvalue, hv, hreads⟩

/-- At the start of a lexeme, a fraction literal of any length is rounded to binary32 if that gives
a finite number, or else to binary64, or else it is rejected. The pattern is the only one to which
the exact value is rounded. -/
theorem fraction_literal {text tail : List Char} {l : Lexer} (start : Lexer.AtStart text l)
    (lit : FractionLiteral) (hrest : l.rest = lit.chars ++ tail) (ends : EndsNumber tail) :
    Span.Covers text ⟨l.start, l.start + width lit.chars⟩ lit.chars ∧
    (|lit.value| < 2 ^ 128 - 2 ^ 103 ↔
      ∃ x : UInt32, (∀ bits, BinaryFormat.binary32.Rounds lit.sign.isNegative lit.value bits ↔
        bits = x.toNat) ∧ l.ReadsNumber lit.chars tail (.float x)) ∧
    (2 ^ 128 - 2 ^ 103 ≤ |lit.value| ∧ |lit.value| < 2 ^ 1024 - 2 ^ 970 ↔
      ∃ y : UInt64, (∀ bits, BinaryFormat.binary64.Rounds lit.sign.isNegative lit.value bits ↔
        bits = y.toNat) ∧ l.ReadsNumber lit.chars tail (.double y)) ∧
    (2 ^ 1024 - 2 ^ 970 ≤ |lit.value| ↔
      l.RejectsNumber lit.chars tail "unsupported floating point numeric literal") := by
  obtain ⟨hcovers, hreads, hrejects⟩ := start.next_number hrest (lit.exists_scan ends) rfl
  rw [show "unsupported floating point numeric literal" =
      LexicalCause.fractionOutOfRange.message from rfl, hrejects, ← BinaryFormat.limit_binary32,
    ← BinaryFormat.limit_binary64, lit.abs_value, lit.value_eq]
  simp only [hreads, lit.readFraction?_chars]
  refine ⟨hcovers, ?_⟩
  -- The limits grow with the format, so the three ranges exclude each other.
  have hlimits := BinaryFormat.limit_binary32_lt
  rcases Number.ofFraction?_cases lit.sign.isNegative lit.numerator lit.denominator_pos with
    ⟨hq, x, hx, hof⟩ | ⟨hq, y, hy, hof⟩ | ⟨hq, hof⟩
  · rw [hof]
    exact ⟨iff_of_true hq ⟨x, hx, rfl⟩, iff_of_false (fun h => h.1.not_gt hq) (by simp),
      iff_of_false (hq.trans hlimits).not_ge (by simp)⟩
  · rw [hof]
    exact ⟨iff_of_false hq.1.not_gt (by simp), iff_of_true hq ⟨y, hy, rfl⟩,
      iff_of_false hq.2.not_ge (by simp)⟩
  · rw [hof]
    exact ⟨iff_of_false hq.1.not_gt (by simp), iff_of_false (fun h => hq.2.not_gt h.2) (by simp),
      iff_of_true hq.2 rfl⟩

/-- Minus the number from which on binary32 has only infinity, with places. -/
def firstDouble : FractionLiteral :=
  ⟨.minus, ⟨"340282356779733661637539395458142568448".toList, List.all_eq_true.1 (by decide)⟩,
    ⟨"000".toList, List.all_eq_true.1 (by decide)⟩, by decide⟩

/-- The first fraction below zero that 32 bits cannot hold any more, between parentheses. -/
theorem fraction_literal_firstDouble :
    ∃ l y, Lexer.AtStart ('(' :: firstDouble.chars ++ [')']) l ∧
      l.rest = firstDouble.chars ++ [')'] ∧ EndsNumber [')'] ∧
      firstDouble.value = -(2 ^ 128 - 2 ^ 103) ∧
      (∀ bits, BinaryFormat.binary64.Rounds true firstDouble.value bits ↔
        bits = UInt64.toNat y) ∧ l.ReadsNumber firstDouble.chars [')'] (.double y) := by
  have hread : (Lexer.new ('(' :: firstDouble.chars ++ [')'])).nth 0 =
      .ok ⟨.leftParen, ⟨0, 1⟩, ['('], none⟩ := rfl
  have hstart := Lexer.AtStart.of_new hread
  have hends : EndsNumber [')'] := by
    rintro c ⟨⟩
    decide
  have hwhole : firstDouble.whole.value = 2 ^ 128 - 2 ^ 103 := by decide +kernel
  have hplaces : firstDouble.places.value = 0 := by decide +kernel
  have hvalue : firstDouble.value = -(2 ^ 128 - 2 ^ 103) := by
    rw [FractionLiteral.value, FractionLiteral.magnitude, hwhole, hplaces]
    norm_num [firstDouble, Sign.isNegative]
  have hrest : ((Lexer.new ('(' :: firstDouble.chars ++ [')'])).skip 1).rest =
      firstDouble.chars ++ [')'] := rfl
  obtain ⟨-, -, hdouble, -⟩ := fraction_literal hstart firstDouble hrest hends
  -- The value is the limit of the short format itself, which is the first that is too large.
  have hbounds : (2 ^ 128 - 2 ^ 103 : ℚ) ≤ |firstDouble.value| ∧
      |firstDouble.value| < 2 ^ 1024 - 2 ^ 970 := by
    rw [hvalue, abs_neg, ← BinaryFormat.limit_binary32, ← BinaryFormat.limit_binary64,
      abs_of_nonneg]
    · exact ⟨le_refl _, BinaryFormat.limit_binary32_lt⟩
    · rw [BinaryFormat.limit_binary32]
      norm_num
  obtain ⟨y, hy, hreads⟩ := hdouble.1 hbounds
  exact ⟨_, y, hstart, hrest, hends, hvalue, hy, hreads⟩

end Lossless
