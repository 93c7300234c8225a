import SyntaxChart.Proofs.Parsing
import SyntaxChart.Proofs.Rounding
import Mathlib.Tactic.FieldSimp

/-!
# What a numeral stands for

A numeral is a sign if any, digits with a point among, before or behind them, and an exponent if any
(`Numeral`). Its text is read as the decimal it writes, and no other text is read
(`Decimal.ofNumeral?_eq_some_iff`). A word is a number exactly if it is the text of a numeral in
range, and the number is the nearest one with the sign of the text
(`Binary64.ofNumeral?_rounds_exactly`).
-/

namespace SyntaxChart

/-- What stands in front of digits. -/
inductive Sign where
  | absent | plus | minus

namespace Sign

def text : Sign → List Char
  | absent => []
  | plus => ['+']
  | minus => ['-']

def negative : Sign → Bool
  | absent | plus => false
  | minus => true

end Sign

/-- Decimal digits, perhaps none. -/
structure Digits where
  text : List Char
  isDigit : ∀ c ∈ text, c.isDigit

/-- The natural number that digits write. -/
def Digits.number (ds : Digits) : Nat :=
  Nat.ofDigitChars 10 ds.text 0

/-- A letter, a sign if any, and at least one digit. -/
structure Exponent where
  letter : Char
  sign : Sign
  digits : Digits
  letter_eq : letter = 'e' ∨ letter = 'E'
  digits_ne_nil : digits.text ≠ []

namespace Exponent

def text (e : Exponent) : List Char :=
  e.letter :: (e.sign.text ++ e.digits.text)

def value (e : Exponent) : Int :=
  if e.sign.negative then -(e.digits.number : Int) else e.digits.number

end Exponent

/-- A text that writes a number. Where there is a point, the fraction is the digits behind it; at
least one digit stands before or behind it. -/
structure Numeral where
  sign : Sign
  whole : Digits
  fraction : Option Digits
  exponent : Option Exponent
  exists_digit : whole.text ≠ [] ∨ ∃ ds ∈ fraction, ds.text ≠ []

namespace Numeral

def pointText (fraction : Option Digits) : List Char :=
  fraction.elim [] fun ds => '.' :: ds.text

def exponentText (exponent : Option Exponent) : List Char :=
  exponent.elim [] Exponent.text

def text (n : Numeral) : List Char :=
  n.sign.text ++ (n.whole.text ++ (pointText n.fraction ++ exponentText n.exponent))

def fractionValue (fraction : Option Digits) : ℚ :=
  fraction.elim 0 fun ds => ds.number / 10 ^ ds.text.length

def exponentValue (exponent : Option Exponent) : Int :=
  exponent.elim 0 Exponent.value

/-- The number that a numeral writes. -/
def value (n : Numeral) : ℚ :=
  signum n.sign.negative
    * ((n.whole.number + fractionValue n.fraction) * 10 ^ exponentValue n.exponent)

def fractionDigits (fraction : Option Digits) : List Char :=
  fraction.elim [] Digits.text

/-- The decimal as which a numeral is read. -/
def decimal (n : Numeral) : Decimal where
  negative := n.sign.negative
  digits := Nat.ofDigitChars 10 (n.whole.text ++ fractionDigits n.fraction) 0
  exponent := exponentValue n.exponent - (fractionDigits n.fraction).length

theorem value_decimal (n : Numeral) : n.decimal.value = n.value := by
  have hten : (10 : ℚ) ≠ 0 := by norm_num
  rw [Decimal.value, value, decimal, Nat.ofDigitChars_append, Nat.ofDigitChars_eq_ofDigitChars_zero,
    zpow_sub₀ hten, zpow_natCast, ← Digits.number]
  congr 1
  cases n.fraction with
  | none => simp [fractionDigits, fractionValue]
  | some ds =>
    simp only [fractionDigits, fractionValue, Option.elim_some, Digits.number]
    push_cast
    field_simp

end Numeral

/-! ## Reading a numeral -/

namespace Decimal

open Numeral

theorem splitSign_append (s : Sign) {cs : List Char} (h : ∀ c ∈ cs.head?, c ≠ '-' ∧ c ≠ '+') :
    splitSign (s.text ++ cs) = (s.negative, cs) := by
  cases s with
  | plus | minus => rfl
  | absent =>
    rcases cs with _ | ⟨c, cs⟩
    · rfl
    · obtain ⟨hminus, hplus⟩ := h c rfl
      simp [splitSign, Sign.text, Sign.negative, hminus, hplus]

theorem exists_sign (cs : List Char) :
    ∃ s : Sign, s.text ++ (splitSign cs).2 = cs ∧ s.negative = (splitSign cs).1 := by
  unfold splitSign
  split
  · exact ⟨.minus, rfl, rfl⟩
  · exact ⟨.plus, rfl, rfl⟩
  · exact ⟨.absent, rfl, rfl⟩

theorem not_sign_of_isDigit {c : Char} (h : c.isDigit) : c ≠ '-' ∧ c ≠ '+' := by
  constructor <;> rintro rfl <;> revert h <;> decide

/-- The digits in front are taken as far as they go. -/
theorem span_digits (ds : Digits) {cs : List Char} (h : ∀ c ∈ cs.head?, ¬c.isDigit) :
    (ds.text ++ cs).takeWhile Char.isDigit = ds.text
      ∧ (ds.text ++ cs).dropWhile Char.isDigit = cs := by
  rw [List.takeWhile_append_of_pos ds.isDigit, List.dropWhile_append_of_pos ds.isDigit]
  rcases cs with _ | ⟨c, cs⟩
  · simp
  · simp [h c rfl]

theorem exists_digits (cs : List Char) :
    ∃ ds : Digits, ds.text = cs.takeWhile Char.isDigit :=
  ⟨⟨cs.takeWhile Char.isDigit, List.all_eq_true.1 List.all_takeWhile⟩, rfl⟩

theorem readInteger?_append (s : Sign) (ds : Digits) (hne : ds.text ≠ []) :
    readInteger? (s.text ++ ds.text)
      = some (if s.negative then -ds.number else ds.number : Int) := by
  have hhead : ∀ c ∈ ds.text.head?, c ≠ '-' ∧ c ≠ '+' := fun c hc =>
    not_sign_of_isDigit (ds.isDigit c (List.mem_of_mem_head? hc))
  have hall : ds.text.all Char.isDigit := List.all_eq_true.2 ds.isDigit
  simp only [readInteger?, splitSign_append s hhead]
  rw [if_pos ⟨hne, hall⟩, Digits.number]

theorem exists_of_readInteger? {cs : List Char} {k : Int} (h : readInteger? cs = some k) :
    ∃ (s : Sign) (ds : Digits), ds.text ≠ [] ∧ s.text ++ ds.text = cs
      ∧ (if s.negative then -ds.number else ds.number : Int) = k := by
  obtain ⟨s, hcs, hs⟩ := exists_sign cs
  simp only [readInteger?] at h
  by_cases hds : (splitSign cs).2 ≠ [] ∧ (splitSign cs).2.all Char.isDigit
  · rw [if_pos hds, ← hs, Option.some_inj] at h
    exact ⟨s, ⟨_, List.all_eq_true.1 hds.2⟩, hds.1, hcs, h⟩
  · rw [if_neg hds] at h
    cases h

theorem readExponent?_eq_some_iff {cs : List Char} {k : Int} :
    readExponent? cs = some k ↔
      ∃ e : Option Exponent, exponentText e = cs ∧ exponentValue e = k := by
  constructor
  · cases cs with
    | nil =>
      rintro ⟨⟩
      exact ⟨none, rfl, rfl⟩
    | cons c cs =>
      rw [readExponent?]
      split_ifs with hc
      · intro h
        obtain ⟨s, ds, hne, rfl, rfl⟩ := exists_of_readInteger? h
        exact ⟨some ⟨c, s, ds, hc, hne⟩, rfl, rfl⟩
      · rintro ⟨⟩
  · rintro ⟨_ | e, rfl, rfl⟩
    · rfl
    · rw [exponentText, Option.elim_some, Exponent.text, readExponent?, if_pos e.letter_eq,
        readInteger?_append e.sign e.digits e.digits_ne_nil]
      rfl

/-- What an exponent begins with is neither a digit nor a point. -/
theorem exponentText_head (e : Option Exponent) :
    ∀ c ∈ (exponentText e).head?, ¬c.isDigit ∧ c ≠ '.' := by
  rcases e with _ | ⟨letter, s, ds, h, -⟩
  · simp [exponentText]
  · rcases h with rfl | rfl <;> simp [exponentText, Exponent.text]

theorem splitFraction_append (fraction : Option Digits) (e : Option Exponent) :
    splitFraction (pointText fraction ++ exponentText e)
      = (fractionDigits fraction, exponentText e) := by
  cases fraction with
  | some ds =>
    obtain ⟨htake, hdrop⟩ := span_digits ds fun c hc => (exponentText_head e c hc).1
    simp [splitFraction, pointText, fractionDigits, htake, hdrop]
  | none =>
    have hhead := exponentText_head e
    simp only [pointText, fractionDigits, Option.elim_none, List.nil_append]
    generalize exponentText e = cs at hhead ⊢
    rcases cs with _ | ⟨c, cs⟩
    · rfl
    · have := (hhead c rfl).2
      simp [splitFraction, this]

theorem exists_fraction (cs : List Char) :
    ∃ fraction : Option Digits, pointText fraction ++ (splitFraction cs).2 = cs
      ∧ fractionDigits fraction = (splitFraction cs).1 := by
  unfold splitFraction
  split
  · rename_i cs
    obtain ⟨ds, hds⟩ := exists_digits cs
    refine ⟨some ds, ?_, hds⟩
    simp [pointText, hds]
  · exact ⟨none, rfl, rfl⟩

/-- No digit follows the digits in front. -/
theorem not_isDigit_of_mem_head? (fraction : Option Digits) (e : Option Exponent) :
    ∀ c ∈ (pointText fraction ++ exponentText e).head?, ¬c.isDigit := by
  cases fraction with
  | none => exact fun c hc => (exponentText_head e c hc).1
  | some ds => simp [pointText]

theorem not_sign_of_mem_head? (n : Numeral) :
    ∀ c ∈ (n.whole.text ++ (pointText n.fraction ++ exponentText n.exponent)).head?,
      c ≠ '-' ∧ c ≠ '+' := by
  intro c hc
  by_cases hwhole : n.whole.text = []
  · obtain ⟨ds, hds, -⟩ := n.exists_digit.resolve_left (not_not_intro hwhole)
    obtain rfl : '.' = c := by simpa [hwhole, Option.mem_def.1 hds, pointText] using hc
    decide
  · rw [List.head?_append_of_ne_nil _ hwhole] at hc
    exact not_sign_of_isDigit (n.whole.isDigit c (List.mem_of_mem_head? hc))

theorem exists_digit_iff {whole : Digits} {fraction : Option Digits} :
    (whole.text ≠ [] ∨ ∃ ds ∈ fraction, ds.text ≠ []) ↔
      ¬(whole.text = [] ∧ fractionDigits fraction = []) := by
  rw [not_and_or]
  cases fraction <;> simp [fractionDigits]

theorem ofNumeral?_text (n : Numeral) : ofNumeral? n.text = some n.decimal := by
  have hsign := splitSign_append n.sign (not_sign_of_mem_head? n)
  have hwhole := span_digits n.whole (not_isDigit_of_mem_head? n.fraction n.exponent)
  have hexponent := readExponent?_eq_some_iff.2 ⟨n.exponent, rfl, rfl⟩
  rw [Numeral.text, ofNumeral?, hsign]
  simp only [hwhole, splitFraction_append, if_neg (exists_digit_iff.1 n.exists_digit), hexponent]
  rfl

/-- Exactly the texts of numerals are read. -/
theorem ofNumeral?_eq_some_iff {cs : List Char} {d : Decimal} :
    ofNumeral? cs = some d ↔ ∃ n : Numeral, n.text = cs ∧ n.decimal = d := by
  constructor
  · intro h
    obtain ⟨s, hsign, hs⟩ := exists_sign cs
    obtain ⟨whole, hwhole⟩ := exists_digits (splitSign cs).2
    obtain ⟨fraction, hfraction, hdigits⟩ :=
      exists_fraction ((splitSign cs).2.dropWhile Char.isDigit)
    simp only [ofNumeral?, ← hwhole, ← hdigits, ← hs] at h
    by_cases hnone : whole.text = [] ∧ fractionDigits fraction = []
    · rw [if_pos hnone] at h
      cases h
    · rw [if_neg hnone, Option.map_eq_some_iff] at h
      obtain ⟨k, hk, rfl⟩ := h
      obtain ⟨e, he, rfl⟩ := readExponent?_eq_some_iff.1 hk
      have hrest : whole.text ++ (pointText fraction ++ exponentText e) = (splitSign cs).2 := by
        rw [he, hfraction, hwhole, List.takeWhile_append_dropWhile]
      refine ⟨⟨s, whole, fraction, e, exists_digit_iff.2 hnone⟩, ?_, rfl⟩
      exact (congrArg (s.text ++ ·) hrest).trans hsign
  · rintro ⟨n, rfl, rfl⟩
    exact ofNumeral?_text n

end Decimal

/-! ## Numbers -/

namespace Numeral

theorem exists_isDigit (n : Numeral) : ∃ c ∈ n.text, c.isDigit := by
  rcases n.exists_digit with h | ⟨ds, hds, h⟩
  · obtain ⟨c, hc⟩ := List.exists_mem_of_ne_nil _ h
    exact ⟨c, by simp [text, hc], n.whole.isDigit c hc⟩
  · obtain ⟨c, hc⟩ := List.exists_mem_of_ne_nil _ h
    exact ⟨c, by simp [text, Option.mem_def.1 hds, pointText, hc], ds.isDigit c hc⟩

end Numeral

namespace Binary64

theorem ofNumeral?_eq_ofDecimal? {word : String} {n : Numeral} (h : n.text = word.toList) :
    ofNumeral? word = ofDecimal? n.decimal := by
  rw [ofNumeral?, ← h, Decimal.ofNumeral?_text, Option.bind_some]

theorem exists_numeral_of_isSome {word : String} (h : (ofNumeral? word).isSome) :
    ∃ n : Numeral, n.text = word.toList := by
  obtain ⟨x, hx⟩ := Option.isSome_iff_exists.1 h
  obtain ⟨d, hd, -⟩ := Option.bind_eq_some_iff.1 hx
  obtain ⟨n, hn, -⟩ := Decimal.ofNumeral?_eq_some_iff.1 hd
  exact ⟨n, hn⟩

/-- A word is a number exactly if it is the text of a numeral in range, and it is then the nearest
number with the sign of the text, also where this is zero. A word without a digit is none. What is a
number is no name, and stands for the number both as an expression and behind a quote. -/
theorem ofNumeral?_rounds_exactly (word : String) :
    ((ofNumeral? word).isSome ↔
        ∃ n : Numeral, n.text = word.toList ∧ |n.value| < 2 ^ 1024 - 2 ^ 970)
      ∧ (∀ n : Numeral, n.text = word.toList → ∀ x : Binary64, ofNumeral? word = some x ↔
        |n.value| < 2 ^ 1024 - 2 ^ 970 ∧ x.IsNearest n.value ∧ x.negative = n.sign.negative)
      ∧ ((ofNumeral? word).isSome → (∃ c ∈ word.toList, c.isDigit)
        ∧ Expr.boundName (.atom word) ≠ .ok word ∧ Expr.targetName (.atom word) ≠ .ok word)
      ∧ ∀ x : Binary64, (Expr.parse (.atom word) = .ok (.number x) ↔ ofNumeral? word = some x)
        ∧ (Datum.ofSExpr (.atom word) = .number x ↔ ofNumeral? word = some x) := by
  refine ⟨⟨fun h => ?_, ?_⟩, fun n hn x => ?_, fun h => ⟨?_, fun hname => ?_, fun hname => ?_⟩,
    fun x => ⟨?_, ?_⟩⟩
  · obtain ⟨n, hn⟩ := exists_numeral_of_isSome h
    rw [ofNumeral?_eq_ofDecimal? hn, ofDecimal?_isSome_iff, n.value_decimal] at h
    exact ⟨n, hn, h⟩
  · rintro ⟨n, hn, hrange⟩
    rwa [ofNumeral?_eq_ofDecimal? hn, ofDecimal?_isSome_iff, n.value_decimal]
  · rw [ofNumeral?_eq_ofDecimal? hn, ofDecimal?_eq_some_iff, n.value_decimal, Numeral.decimal]
  · obtain ⟨n, hn⟩ := exists_numeral_of_isSome h
    exact hn ▸ n.exists_isDigit
  · simp [(Expr.boundName_eq_ok_iff.1 hname).2.not_numeral] at h
  · simp [(Expr.targetName_eq_ok_iff.1 hname).2.not_numeral] at h
  · rw [Expr.parse_eq_ok_iff]
    exact ⟨fun | .number h => h, .number⟩
  · rw [Datum.ofSExpr_eq_iff]
    exact ⟨fun | .number h => h, .number⟩

/-- What is too small keeps its sign. -/
theorem ofNumeral?_rounds_exactly_underflow :
    ofNumeral? "-1e-400" = some ⟨true, 0, by decide⟩
      ∧ (⟨true, 0, by decide⟩ : Binary64).IsNearest (-1 * ((1 + 0) * 10 ^ (-400 : Int))) := by
  have hzero : ofNumeral? "-1e-400" = some ⟨true, 0, by decide⟩ := by decide +kernel
  refine ⟨hzero, ?_⟩
  have h := ((ofNumeral?_rounds_exactly "-1e-400").2.1
    ⟨.minus, ⟨['1'], by simp⟩, none,
      some ⟨'e', .minus, ⟨['4', '0', '0'], by simp⟩, .inl rfl, by simp⟩, .inl (by simp)⟩
    rfl _).1 hzero
  exact h.2.1

/-- The greatest finite number, and what is just out of range. -/
example :
    ofNumeral? "1.7976931348623158e308" = some ⟨false, infinityMagnitude - 1, by decide⟩
      ∧ ofNumeral? "1.7976931348623159E+308" = none := by
  decide +kernel

end Binary64

end SyntaxChart
