import SyntaxChart.Proofs.Classifying
import SyntaxChart.Proofs.Legibility
import SyntaxChart.Proofs.Numerals
import Mathlib.Data.List.DropRight

/-!
# Printed numbers read back

The positional text of a decimal is a numeral without an exponent, which writes the number that the
decimal is (`Decimal.exists_numeral`). The shortest decimal of a finite number is rounded to it again
(`Binary64.ofDecimal?_shortest`). So the text in the label of a number is one word, and reading this
word gives the number (`Binary64.label_reads_back`).
-/

namespace SyntaxChart

/-! ## Positional texts -/

namespace Decimal

open Numeral

theorem ofDigitChars_paddedDigits (width n : Nat) :
    Nat.ofDigitChars 10 (paddedDigits width n) 0 = n := by
  rw [paddedDigits, Nat.ofDigitChars_append, Nat.ofDigitChars_replicate_zero, Nat.mul_zero,
    Nat.ofDigitChars_ten_toDigits]

theorem length_paddedDigits {width n : Nat} (hwidth : 0 < width) (hn : n < 10 ^ width) :
    (paddedDigits width n).length = width := by
  have hlength := (Nat.length_toDigits_le_iff (by decide) hwidth).2 hn
  rw [paddedDigits, List.length_append, List.length_replicate, Nat.sub_add_cancel hlength]

theorem exists_append_replicate (cs : List Char) :
    ∃ k, dropFinalZeros cs ++ List.replicate k '0' = cs := by
  have hzeros : ∀ c ∈ cs.rtakeWhile (· == '0'), c = '0' := fun c hc => by
    simpa using List.mem_rtakeWhile_imp hc
  refine ⟨(cs.rtakeWhile (· == '0')).length, ?_⟩
  rw [← List.eq_replicate_of_mem hzeros]
  exact List.rdropWhile_append_rtakeWhile

/-- The zeros left out at the end do not change the fraction. -/
theorem ofDigitChars_dropFinalZeros {places n : Nat} (hplaces : 0 < places)
    (hn : n < 10 ^ places) :
    (Nat.ofDigitChars 10 (dropFinalZeros (paddedDigits places n)) 0
        / 10 ^ (dropFinalZeros (paddedDigits places n)).length : ℚ) = n / 10 ^ places := by
  obtain ⟨k, hk⟩ := exists_append_replicate (paddedDigits places n)
  generalize dropFinalZeros (paddedDigits places n) = cs at hk
  have hvalue : 10 ^ k * Nat.ofDigitChars 10 cs 0 = n := by
    rw [← Nat.ofDigitChars_replicate_zero, ← Nat.ofDigitChars_append, hk,
      ofDigitChars_paddedDigits]
  have hlength : cs.length + k = places := by
    rw [← length_paddedDigits hplaces hn, ← hk, List.length_append, List.length_replicate]
  rw [← hvalue, ← hlength, pow_add, Nat.cast_mul, Nat.cast_pow, Nat.cast_ofNat, mul_comm,
    mul_div_mul_right _ _ (by positivity)]

theorem exists_fraction_of_lt {places n : Nat} (hplaces : 0 < places) (hn : n < 10 ^ places) :
    ∃ fraction : Option Digits, pointText fraction = fractionText places n
      ∧ fractionValue fraction = n / 10 ^ places := by
  have hdigits : ∀ c ∈ dropFinalZeros (paddedDigits places n), c.isDigit := fun c hc =>
    isDigit_of_mem_paddedDigits (mem_of_mem_dropFinalZeros hc)
  have hvalue := ofDigitChars_dropFinalZeros hplaces hn
  rw [fractionText, ← hvalue]
  generalize dropFinalZeros (paddedDigits places n) = cs at hdigits
  cases cs with
  | nil => exact ⟨none, rfl, by simp [fractionValue]⟩
  | cons c cs => exact ⟨some ⟨c :: cs, hdigits⟩, rfl, rfl⟩

theorem exists_whole (n : Nat) :
    ∃ whole : Digits, whole.text = Nat.toDigits 10 n ∧ whole.text ≠ [] ∧ whole.number = n :=
  ⟨⟨Nat.toDigits 10 n, fun _ hc => Nat.isDigit_of_mem_toDigits (by decide) (by decide) hc⟩, rfl,
    Nat.toDigits_ne_nil, Nat.ofDigitChars_ten_toDigits⟩

theorem exists_magnitude (digits : Nat) (exponent : Int) :
    ∃ (whole : Digits) (fraction : Option Digits), whole.text ≠ []
      ∧ whole.text ++ pointText fraction = magnitudeText digits exponent
      ∧ (whole.number + fractionValue fraction : ℚ) = digits * 10 ^ exponent := by
  cases exponent with
  | ofNat zeros =>
    obtain ⟨whole, htext, hne, hnumber⟩ := exists_whole (digits * Nat.pow 10 zeros)
    refine ⟨whole, none, hne, ?_, ?_⟩
    · rw [htext, magnitudeText, pointText, Option.elim_none, List.append_nil]
    · simp [hnumber, fractionValue]
  | negSucc n =>
    have hpos : 0 < 10 ^ (n + 1) := Nat.pow_pos (by decide)
    obtain ⟨whole, htext, hne, hnumber⟩ := exists_whole (digits / Nat.pow 10 (n + 1))
    obtain ⟨fraction, hfraction, hvalue⟩ :=
      exists_fraction_of_lt n.succ_pos (Nat.mod_lt digits hpos)
    refine ⟨whole, fraction, hne, ?_, ?_⟩
    · rw [htext, hfraction, magnitudeText, Nat.pow_eq]
    · rw [hnumber, hvalue, zpow_negSucc, ← div_eq_mul_inv, eq_div_iff (by positivity), add_mul,
        div_mul_cancel₀ _ (by positivity)]
      exact_mod_cast Nat.div_add_mod' digits (10 ^ (n + 1))

/-- The positional text writes the number that the decimal is. -/
theorem exists_numeral (d : Decimal) :
    ∃ n : Numeral, n.text = d.positional ∧ n.exponent = none ∧ n.value = d.value
      ∧ n.sign.negative = d.negative := by
  obtain ⟨whole, fraction, hne, htext, hvalue⟩ := exists_magnitude d.digits d.exponent
  obtain ⟨s, hs, hsign⟩ : ∃ s : Sign, s.text = (if d.negative then ['-'] else [])
      ∧ s.negative = d.negative := by
    cases d.negative
    · exact ⟨.absent, rfl, rfl⟩
    · exact ⟨.minus, rfl, rfl⟩
  refine ⟨⟨s, whole, fraction, none, .inl hne⟩, ?_, rfl, ?_, hsign⟩
  · rw [Numeral.text, exponentText, Option.elim_none, List.append_nil, hs, htext, positional]
  · rw [Numeral.value, exponentValue, Option.elim_none, zpow_zero, mul_one, hsign, hvalue,
      Decimal.value]

end Decimal

/-! ## Shortest decimals -/

namespace Binary64

theorem abs_value_lt {x : Binary64} (hx : x.IsFinite) : |x.value| < 2 ^ 1024 - 2 ^ 970 := by
  have hpos : (0 : ℚ) < 2 ^ 1074 := by positivity
  have hle : (units x.magnitude : ℚ) ≤ units (infinityMagnitude - 1) :=
    units_le_units_iff.2 (Nat.le_sub_one_of_lt hx)
  have hlt : (units x.magnitude : ℚ) < units infinityMagnitude := units_lt_units_iff.2 hx
  rw [value, abs_signum_mul, abs_of_nonneg (div_nonneg (Nat.cast_nonneg _) hpos.le),
    div_lt_iff₀ hpos]
  refine lt_of_mul_lt_mul_left ?_ zero_le_two
  rw [mul_left_comm, ← pow_succ', ← units_add_units_infinityMagnitude]
  linarith

theorem IsFinite.isNearest {x : Binary64} (hx : x.IsFinite) : x.IsNearest x.value := by
  refine ⟨hx, fun y _ => ?_, fun y _ hne htie => ?_⟩
  · rw [sub_self, abs_zero]
    exact abs_nonneg _
  · rw [sub_self, abs_zero, eq_comm, abs_eq_zero, sub_eq_zero] at htie
    exact absurd htie hne

theorem mul_five_pow_mul_zpow (m k : Nat) :
    ((m * 5 ^ k : Nat) : ℚ) * 10 ^ (-(k : Int)) = m / 2 ^ k := by
  rw [zpow_neg, zpow_natCast, ← div_eq_mul_inv, show (10 : ℚ) = 2 * 5 by norm_num, mul_pow]
  push_cast
  exact mul_div_mul_right _ _ (by positivity)

theorem value_decimalUnits (x : Binary64) :
    Decimal.value ⟨x.negative, x.decimalUnits, -1074⟩ = x.value := by
  have hexponent : (-1074 : Int) = -((1074 : Nat) : Int) := rfl
  rw [Decimal.value, value, decimalUnits, hexponent]
  -- with the number in its place, unification would compute the powers
  generalize 1074 = k
  exact congrArg _ (mul_five_pow_mul_zpow _ _)

theorem ofDecimal?_of_onGrid? {x : Binary64} {step : Nat} {d : Decimal}
    (h : x.onGrid? step = some d) : ofDecimal? d = some x := by
  simp only [onGrid?] at h
  split at h
  · split_ifs at h <;> cases h <;> simp_all
  · cases h
    simp_all
  · cases h
    simp_all
  · cases h

theorem ofDecimal?_shortest {x : Binary64} (hx : x.IsFinite) : ofDecimal? x.shortest = some x := by
  rw [shortest]
  generalize hfound : List.findSome? _ _ = found
  cases found with
  | some d =>
    obtain ⟨n, -, hn⟩ := List.exists_of_findSome?_eq_some hfound
    exact ofDecimal?_of_onGrid? hn
  | none =>
    rw [Option.getD_none, ofDecimal?_eq_some_iff, value_decimalUnits]
    exact ⟨abs_value_lt hx, hx.isNearest, rfl⟩

theorem exists_numeral_text {x : Binary64} (hx : x.IsFinite) :
    ∃ n : Numeral, n.text = x.text.toList ∧ n.exponent = none ∧ n.value = x.shortest.value
      ∧ n.sign.negative = x.shortest.negative := by
  rw [text, if_pos hx, String.toList_ofList]
  exact x.shortest.exists_numeral

theorem ofNumeral?_text {x : Binary64} (hx : x.IsFinite) : ofNumeral? x.text = some x := by
  obtain ⟨n, htext, -, hvalue, hsign⟩ := exists_numeral_text hx
  rw [ofNumeral?_eq_ofDecimal? htext, ofDecimal?_congr hsign (n.value_decimal.trans hvalue),
    ofDecimal?_shortest hx]

end Binary64

/-! ## Texts as words -/

namespace SExpr

open Grammar

theorem Grammar.wordChar_of_isDigit {c : Char} (h : c.isDigit) : WordChar c := by
  have hrange : 48 ≤ c.toNat ∧ c.toNat ≤ 57 := by
    simpa [Char.isDigit, UInt32.le_iff_toNat_le] using h
  constructor
  · simp [Text.isBlank, Text.blankRanges]
    omega
  · intro hm
    simp only [List.mem_cons, List.not_mem_nil, or_false] at hm
    rcases hm with rfl | rfl | rfl | rfl | rfl <;> simp at h

theorem read_word {word : String} (hne : word ≠ "") (hword : ∀ c ∈ word.toList, WordChar c) :
    read word = .ok (.atom word) := by
  have hw : Word word.toList word.toList [] :=
    ⟨(List.append_nil _).symm, by simpa using hne, hword, by simp⟩
  have hdatum := Datum.word hw
  rw [String.ofList_toList] at hdatum
  exact Document.reads ⟨_, _, .none _, hdatum, .none _⟩

end SExpr

theorem Category.labelWith_inj {c : Category} {text text' : String} :
    c.labelWith text = c.labelWith text' ↔ text = text' := by
  simp [labelWith]

namespace Binary64

theorem wordChar_of_mem_text {x : Binary64} (hx : x.IsFinite) :
    ∀ c ∈ x.text.toList, SExpr.Grammar.WordChar c := by
  intro c hc
  rw [text, if_pos hx, String.toList_ofList] at hc
  rcases Decimal.isDigit_or_of_mem_positional hc with h | rfl | rfl
  · exact SExpr.Grammar.wordChar_of_isDigit h
  · exact SExpr.Grammar.isWordChar_iff.1 (by decide)
  · exact SExpr.Grammar.isWordChar_iff.1 (by decide)

theorem read_text {x : Binary64} (hx : x.IsFinite) : SExpr.read x.text = .ok (.atom x.text) := by
  obtain ⟨n, htext, -⟩ := exists_numeral_text hx
  obtain ⟨c, hc, -⟩ := n.exists_isDigit
  refine SExpr.read_word (fun hempty => ?_) (wordChar_of_mem_text hx)
  rw [htext, hempty] at hc
  cases hc

theorem text_inj {x y : Binary64} (hx : x.IsFinite) (hy : y.IsFinite) (h : x.text = y.text) :
    x = y := by
  have hread := ofNumeral?_text hx
  rw [h, ofNumeral?_text hy] at hread
  exact (Option.some_inj.1 hread).symm

/-- The text between the parentheses of a number's label reads back as the number, so different
numbers have different labels. -/
theorem label_reads_back {x : Binary64} (hx : x.IsFinite) :
    (Expr.number x).outline.label = "NumExp(" ++ x.text ++ ")"
      ∧ (Datum.number x).outline.label = "number(" ++ x.text ++ ")"
      ∧ (∃ n : Numeral, n.text = x.text.toList ∧ n.exponent = none)
      ∧ SExpr.read x.text = .ok (.atom x.text)
      ∧ ofNumeral? x.text = some x
      ∧ Script.ofText x.text = .ok (.form (.expression (.number x)))
      ∧ ∀ y : Binary64, y.IsFinite → y ≠ x →
        (Expr.number y).outline.label ≠ (Expr.number x).outline.label
          ∧ (Datum.number y).outline.label ≠ (Datum.number x).outline.label := by
  have hnumber := ofNumeral?_text hx
  have hread := read_text hx
  obtain ⟨n, htext, hexponent, -⟩ := exists_numeral_text hx
  have hform : Form.parse (.atom x.text) = .ok (.expression (.number x)) :=
    Form.parse_eq_ok_iff.2 (.expression (.number hnumber))
  refine ⟨rfl, rfl, ⟨n, htext, hexponent⟩, hread, hnumber,
    Script.ofText_eq_ok_iff.2 ⟨_, hread, .form hform⟩, fun y hy hne => ?_⟩
  have htexts : y.text ≠ x.text := fun h => hne (text_inj hy hx h)
  exact ⟨mt Category.labelWith_inj.1 htexts, mt Category.labelWith_inj.1 htexts⟩

theorem label_reads_back_negativeZero :
    (⟨true, 0, by decide⟩ : Binary64).text = "-0"
      ∧ Script.ofText "-0" = .ok (.form (.expression (.number ⟨true, 0, by decide⟩))) := by
  have htext : (⟨true, 0, by decide⟩ : Binary64).text = "-0" := by decide +kernel
  obtain ⟨-, -, -, -, -, hparse, -⟩ := label_reads_back (x := ⟨true, 0, by decide⟩) (by decide)
  rw [htext] at hparse
  exact ⟨htext, hparse⟩

end Binary64

end SyntaxChart
