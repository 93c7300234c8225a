import SyntaxChart.Binary64.Nearest
import Mathlib.Algebra.Order.Field.Rat
import Mathlib.Order.Monotone.Basic
import Mathlib.Tactic.GCongr
import Mathlib.Tactic.Linarith
import Mathlib.Tactic.NormNum
import Mathlib.Tactic.Positivity
import Mathlib.Tactic.Ring
import Mathlib.Tactic.SplitIfs

/-!
# Rounding to a magnitude

Neighbouring magnitudes stand for neighbouring numbers of units (`Binary64.strictMono_units`), also
beyond the greatest finite one. So a rounded number is known from where it lies against the middles
between neighbours (`Binary64.NotAbove`): it is rounded to a magnitude or to one below it exactly if
it is less than the middle above this magnitude, or is this middle and the magnitude is even
(`Binary64.nearestMagnitude_le_iff`). For a decimal number this holds of the finite magnitudes, since
the bounds on its exponent change what is out of range only (`Binary64.decimalMagnitude_le_iff`).
-/

namespace SyntaxChart.Binary64

/-! ## Units -/

/-- Within one binade, its upper end included, magnitudes are `2 ^ s` units apart. -/
theorem units_eq {s k : Nat} (hs : s = 0 ∨ binade ≤ k) (hk : k ≤ 2 * binade) :
    units (s * binade + k) = k * 2 ^ s := by
  rw [units, Nat.pow_eq]
  simp only [binade] at hs hk ⊢
  split_ifs with h
  · obtain rfl : s = 0 := by omega
    omega
  rcases Nat.lt_or_eq_of_le hk with hk | rfl
  · have hdiv : (s * 0x10000000000000 + k) / 0x10000000000000 = s + 1 := by omega
    have hmod : 0x10000000000000 + (s * 0x10000000000000 + k) % 0x10000000000000 = k := by omega
    rw [hdiv, hmod, Nat.add_sub_cancel]
  · have hdiv : (s * 0x10000000000000 + 2 * 0x10000000000000) / 0x10000000000000 = s + 1 + 1 := by
      omega
    have hmod : (s * 0x10000000000000 + 2 * 0x10000000000000) % 0x10000000000000 = 0 := by omega
    rw [hdiv, hmod, Nat.add_sub_cancel, Nat.pow_succ]
    ring

theorem exists_binade (m : Nat) :
    ∃ s k, m = s * binade + k ∧ (s = 0 ∨ binade ≤ k) ∧ k < 2 * binade := by
  simp only [binade]
  exact ⟨m / 0x10000000000000 - 1, m - (m / 0x10000000000000 - 1) * 0x10000000000000,
    by omega, by omega, by omega⟩

theorem strictMono_units : StrictMono units := by
  refine strictMono_nat_of_lt_succ fun m => ?_
  obtain ⟨s, k, rfl, hs, hk⟩ := exists_binade m
  rw [Nat.add_assoc, units_eq hs hk.le, units_eq (by omega) (by omega)]
  exact Nat.mul_lt_mul_of_pos_right (Nat.lt_succ_self k) (Nat.two_pow_pos s)

/-! ## Nearest magnitudes -/

/-- Rounding a number of units gives the magnitude `m` or one below it: the number is less than the
middle of the step above `m`, or it is this middle and `m` is even. -/
def NotAbove (v : ℚ) (m : Nat) : Prop :=
  2 * v < units m + units (m + 1) ∨ 2 * v = units m + units (m + 1) ∧ m % 2 = 0

/-- A number of units is above every magnitude below one that it reaches. -/
theorem not_notAbove_of_units_le {v : ℚ} {m n : Nat} (hmn : m < n) (hv : units n ≤ v) :
    ¬NotAbove v m := by
  have hlt : (units m : ℚ) < units n := by exact_mod_cast strictMono_units hmn
  have hle : (units (m + 1) : ℚ) ≤ units n := by exact_mod_cast strictMono_units.monotone hmn
  rintro (h | ⟨h, -⟩) <;> linarith

theorem roundHalfEven_eq (num den : Nat) :
    roundHalfEven num den =
      if 2 * num < (2 * (num / den) + 1) * den
        ∨ 2 * num = (2 * (num / den) + 1) * den ∧ num / den % 2 = 0
      then num / den else num / den + 1 := by
  have hsplit := Nat.div_add_mod num den
  have hexpand : (2 * (num / den) + 1) * den = 2 * (den * (num / den)) + den := by ring
  rw [roundHalfEven, hexpand]
  congr 1
  apply propext
  constructor <;> omega

/-- The step between magnitudes in which a number of units lies, by its binade. -/
theorem exists_quotient (num den : Nat) :
    ∃ s, nearestMagnitude num den = s * binade + roundHalfEven num (den * 2 ^ s)
      ∧ (s = 0 ∨ binade ≤ num / (den * 2 ^ s)) ∧ num / (den * 2 ^ s) < 2 * binade := by
  refine ⟨(num / den).log2 - 52, rfl, ?_⟩
  generalize hs : (num / den).log2 - 52 = s
  rw [← Nat.div_div_eq_div_mul]
  have hlt := Nat.lt_log2_self (n := num / den)
  constructor
  · rcases Nat.eq_zero_or_pos s with h | h
    · exact .inl h
    have hq : num / den ≠ 0 := by
      intro h0
      rw [h0] at hs
      simp at hs
      omega
    have hle := Nat.log2_self_le hq
    rw [show (num / den).log2 = 52 + s by omega, Nat.pow_add] at hle
    exact .inr ((Nat.le_div_iff_mul_le (Nat.two_pow_pos s)).2 hle)
  · have hpow : 2 ^ ((num / den).log2 + 1) ≤ 2 ^ (53 + s) :=
      Nat.pow_le_pow_right Nat.two_pos (by omega)
    have hsplit : 2 ^ (53 + s) = 2 * binade * 2 ^ s := Nat.pow_add 2 53 s
    exact (Nat.div_lt_iff_lt_mul (Nat.two_pow_pos s)).2 (hsplit ▸ hlt.trans_le hpow)

theorem notAbove_div_iff {num den m : Nat} (hden : 0 < den) :
    NotAbove (num / den) m ↔ 2 * num < (units m + units (m + 1)) * den
      ∨ 2 * num = (units m + units (m + 1)) * den ∧ m % 2 = 0 := by
  have hpos : (0 : ℚ) < den := by exact_mod_cast hden
  rw [NotAbove, ← mul_div_assoc, div_lt_iff₀ hpos, div_eq_iff hpos.ne']
  norm_cast

/-- Rounding takes the lower or the upper end of the step in which the number lies. -/
theorem exists_step (num : Nat) {den : Nat} (hden : 0 < den) :
    ∃ m : Nat, units m ≤ (num / den : ℚ) ∧ (num / den : ℚ) < units (m + 1)
      ∧ (NotAbove (num / den) m → nearestMagnitude num den = m)
      ∧ (¬NotAbove (num / den) m → nearestMagnitude num den = m + 1) := by
  obtain ⟨s, hnearest, hs, hk⟩ := exists_quotient num den
  have hpos : (0 : ℚ) < den := by exact_mod_cast hden
  have hsplit := Nat.div_add_mod num (den * 2 ^ s)
  have hmod := Nat.mod_lt num (Nat.mul_pos hden (Nat.two_pow_pos s))
  rw [roundHalfEven_eq] at hnearest
  generalize num / (den * 2 ^ s) = k at hnearest hs hk hsplit
  have hlower : units (s * binade + k) = k * 2 ^ s := units_eq hs hk.le
  have hupper : units (s * binade + k + 1) = (k + 1) * 2 ^ s := by
    rw [Nat.add_assoc, units_eq (by omega) (by omega)]
  have hmiddle : (units (s * binade + k) + units (s * binade + k + 1)) * den
      = (2 * k + 1) * (den * 2 ^ s) := by
    rw [hlower, hupper]
    ring
  have hparity : (s * binade + k) % 2 = k % 2 := by simp only [binade]; omega
  refine ⟨s * binade + k, ?_, ?_, ?_⟩
  · rw [hlower, le_div_iff₀ hpos]
    norm_cast
    rw [← hsplit]
    exact Nat.le_add_right_of_le (by ring_nf; rfl)
  · rw [hupper, div_lt_iff₀ hpos]
    norm_cast
    calc num = den * 2 ^ s * k + num % (den * 2 ^ s) := hsplit.symm
      _ < den * 2 ^ s * k + den * 2 ^ s := Nat.add_lt_add_left hmod _
      _ = (k + 1) * 2 ^ s * den := by ring
  · rw [notAbove_div_iff hden, hmiddle, hparity, hnearest]
    exact ⟨fun h => by rw [if_pos h], fun h => by rw [if_neg h, Nat.add_assoc]⟩

theorem nearestMagnitude_le_iff {num den m : Nat} (hden : 0 < den) :
    nearestMagnitude num den ≤ m ↔ NotAbove (num / den) m := by
  obtain ⟨n, hle, hlt, hdown, hup⟩ := exists_step num hden
  have hrange : n ≤ nearestMagnitude num den ∧ nearestMagnitude num den ≤ n + 1 := by
    by_cases h : NotAbove (num / den) n
    · rw [hdown h]; omega
    · rw [hup h]; omega
  have hmono {i j : Nat} (h : i ≤ j) : (units i : ℚ) ≤ units j := by
    exact_mod_cast strictMono_units.monotone h
  rcases Nat.lt_trichotomy m n with h | rfl | h
  · -- both ends of the step above `m` lie at or below the number
    exact iff_of_false (by omega) (not_notAbove_of_units_le h hle)
  · by_cases h : NotAbove (num / den) m
    · exact iff_of_true (hdown h).le h
    · exact iff_of_false (by rw [hup h]; omega) h
  · -- the number lies below both ends of that step
    have hnext := hmono (show n + 1 ≤ m from h)
    have hlast := hmono (Nat.le_succ m)
    exact iff_of_true (by omega) (.inl (by linarith))

/-! ## Decimal numbers -/

theorem two_pow_mul_two_pow {i j k l : Nat} (h : i + j = k + l) :
    2 ^ i * 2 ^ j = 2 ^ k * 2 ^ l := by
  rw [← Nat.pow_add, ← Nat.pow_add, h]

theorem units_infinityMagnitude : units infinityMagnitude = 2 ^ 1024 * 2 ^ 1074 := by
  have hsplit : infinityMagnitude = 2046 * binade + binade := rfl
  have hbinade : binade = 2 ^ 52 := rfl
  rw [hsplit, units_eq (.inr (Nat.le_refl _)) (by omega), hbinade]
  exact two_pow_mul_two_pow rfl

/-- What is too large is not rounded to a finite magnitude. -/
theorem not_notAbove {v : ℚ} {m : Nat} (hm : m < infinityMagnitude)
    (hv : (2 : ℚ) ^ 1024 ≤ v) : ¬NotAbove (v * 2 ^ 1074) m := by
  refine not_notAbove_of_units_le hm ?_
  rw [units_infinityMagnitude, Nat.cast_mul, Nat.cast_pow, Nat.cast_pow, Nat.cast_ofNat]
  exact mul_le_mul_of_nonneg_right hv (pow_nonneg zero_le_two _)

/-- What is less than half a unit is rounded to zero. -/
theorem notAbove_of_small {v : ℚ} (hv : 2 * v < 1) (m : Nat) : NotAbove v m := by
  have hone : (1 : ℚ) ≤ units (m + 1) := by
    exact_mod_cast (strictMono_units m.succ_pos).trans_le' (Nat.zero_le _)
  have hzero : (0 : ℚ) ≤ units m := Nat.cast_nonneg _
  exact .inl (by linarith)

theorem two_pow_le_ten_pow {i j : Nat} (h : i ≤ j) : (2 : ℚ) ^ i ≤ 10 ^ j :=
  (pow_le_pow_left₀ zero_le_two (by norm_num) i).trans (pow_le_pow_right₀ (by norm_num) h)

/-- The upper bound on the exponent changes nothing for a finite magnitude. -/
theorem notAbove_min_iff {digits n m : Nat} (hm : m < infinityMagnitude) :
    NotAbove (digits * 10 ^ min n 400 * 2 ^ 1074) m ↔ NotAbove (digits * 10 ^ n * 2 ^ 1074) m := by
  rcases Nat.le_total n 400 with hn | hn
  · rw [Nat.min_eq_left hn]
  rw [Nat.min_eq_right hn]
  rcases Nat.eq_zero_or_pos digits with rfl | hd
  · simp
  have hlarge {k : Nat} (hk : 400 ≤ k) : (2 : ℚ) ^ 1024 ≤ digits * 10 ^ k := by
    have hone : (1 : ℚ) ≤ digits := by exact_mod_cast hd
    calc (2 : ℚ) ^ 1024 ≤ (2 ^ 3) ^ 400 := by
          rw [← pow_mul]
          exact pow_le_pow_right₀ one_le_two (by norm_num)
      _ ≤ 10 ^ 400 := pow_le_pow_left₀ (by norm_num) (by norm_num) _
      _ ≤ 10 ^ k := pow_le_pow_right₀ (by norm_num) hk
      _ ≤ digits * 10 ^ k := le_mul_of_one_le_left (by positivity) hone
  exact iff_of_false (not_notAbove hm (hlarge (Nat.le_refl _))) (not_notAbove hm (hlarge hn))

/-- Nor does the lower bound. -/
theorem notAbove_div_min_iff {digits n m : Nat} :
    NotAbove (digits * 2 ^ 1074 / 10 ^ min n (digits.log2 + 1100)) m
      ↔ NotAbove (digits * 2 ^ 1074 / 10 ^ n) m := by
  rcases Nat.le_total n (digits.log2 + 1100) with hn | hn
  · rw [Nat.min_eq_left hn]
  rw [Nat.min_eq_right hn]
  have hsmall {k : Nat} (hk : digits.log2 + 1100 ≤ k) :
      2 * ((digits : ℚ) * 2 ^ 1074 / 10 ^ k) < 1 := by
    have hdigits : (digits : ℚ) < 2 ^ (digits.log2 + 1) := by exact_mod_cast Nat.lt_log2_self
    rw [← mul_div_assoc, div_lt_one (by positivity)]
    calc (2 : ℚ) * (digits * 2 ^ 1074) = digits * 2 ^ 1075 := by
          rw [mul_left_comm, ← pow_succ']
      _ < 2 ^ (digits.log2 + 1) * 2 ^ 1075 := by gcongr
      _ = 2 ^ (digits.log2 + 1076) := by rw [← pow_add]
      _ ≤ 10 ^ k := two_pow_le_ten_pow (by omega)
  exact iff_of_true (notAbove_of_small (hsmall (Nat.le_refl _)) m)
    (notAbove_of_small (hsmall hn) m)

theorem decimalMagnitude_le_iff {digits m : Nat} {exponent : Int} (hm : m < infinityMagnitude) :
    decimalMagnitude digits exponent ≤ m ↔ NotAbove (digits * 10 ^ exponent * 2 ^ 1074) m := by
  cases exponent with
  | ofNat n =>
    rw [decimalMagnitude, nearestMagnitude_le_iff Nat.one_pos, Int.ofNat_eq_natCast,
      zpow_natCast, ← notAbove_min_iff hm]
    simp only [Nat.pow_eq, Nat.cast_mul, Nat.cast_pow, Nat.cast_ofNat, Nat.cast_one, div_one]
  | negSucc n =>
    have hden : 0 < Nat.pow 10 (min (n + 1) (digits.log2 + 1100)) := Nat.pow_pos (by norm_num)
    rw [decimalMagnitude, nearestMagnitude_le_iff hden, zpow_negSucc]
    simp only [Nat.pow_eq, Nat.cast_mul, Nat.cast_pow, Nat.cast_ofNat]
    rw [notAbove_div_min_iff, div_eq_mul_inv, mul_right_comm]

end SyntaxChart.Binary64
