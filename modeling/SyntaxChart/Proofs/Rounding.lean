import SyntaxChart.Proofs.Magnitude
import Mathlib.Algebra.Order.Field.Power
import Mathlib.Algebra.Order.Group.Abs

/-!
# Rounding a decimal

A decimal becomes a number exactly if its absolute value is less than `2 ^ 1024 - 2 ^ 970`, the
middle between the greatest finite number and the power of two above it. It becomes the finite
number nearest to it, of two that are equally near the one with an even magnitude, and keeps its sign
(`Binary64.ofDecimal?_eq_some_iff`). No other number with this sign is as near
(`Binary64.IsNearest.eq`), so nothing of a decimal counts but its sign and its value
(`Binary64.ofDecimal?_congr`).
-/

namespace SyntaxChart

/-! ## Values -/

def signum (negative : Bool) : ℚ :=
  if negative then -1 else 1

theorem abs_signum_mul (negative : Bool) (a : ℚ) : |signum negative * a| = |a| := by
  cases negative <;> simp [signum]

theorem signum_of_ne {b c : Bool} (h : b ≠ c) : signum b = -signum c := by
  cases b <;> cases c <;> simp_all [signum]

/-- What lies between two numbers is nearer to their middle than they are. -/
theorem abs_signum_mul_sub_lt {negative : Bool} {p q r v : ℚ} (hpq : p < q) (hqr : q < r)
    (hmiddle : signum negative * p - v = -(signum negative * r - v)) :
    |signum negative * q - v| < |signum negative * p - v| := by
  obtain rfl : v = signum negative * ((p + r) / 2) := by linarith
  rw [← mul_sub, ← mul_sub, abs_signum_mul, abs_signum_mul, abs_sub_comm p,
    abs_of_pos (show 0 < (p + r) / 2 - p by linarith)]
  exact abs_sub_lt_iff.2 ⟨by linarith, by linarith⟩

def Decimal.value (d : Decimal) : ℚ :=
  signum d.negative * (d.digits * 10 ^ d.exponent)

namespace Binary64

/-- The value that a finite number stands for. -/
def value (x : Binary64) : ℚ :=
  signum x.negative * (units x.magnitude / 2 ^ 1074)

/-- A finite number to which no other is nearer, and with an even magnitude if another number is as
near as it. -/
structure IsNearest (x : Binary64) (v : ℚ) : Prop where
  finite : x.IsFinite
  nearest : ∀ y : Binary64, y.IsFinite → |x.value - v| ≤ |y.value - v|
  even_of_tie : ∀ y : Binary64, y.IsFinite → y.value ≠ x.value → |x.value - v| = |y.value - v| →
    x.magnitude % 2 = 0

theorem units_lt_units_iff {m n : Nat} : (units m : ℚ) < units n ↔ m < n := by
  rw [Nat.cast_lt, strictMono_units.lt_iff_lt]

theorem units_le_units_iff {m n : Nat} : (units m : ℚ) ≤ units n ↔ m ≤ n := by
  rw [Nat.cast_le, strictMono_units.le_iff_le]

theorem eq_of_value_eq {x y : Binary64} (hsign : x.negative = y.negative)
    (hvalue : x.value = y.value) : x = y := by
  have hne : signum y.negative ≠ 0 := by
    unfold signum
    split_ifs <;> norm_num
  have hpos : (2 : ℚ) ^ 1074 ≠ 0 := by positivity
  rw [value, value, hsign, mul_right_inj' hne, div_left_inj' hpos, Nat.cast_inj,
    strictMono_units.injective.eq_iff] at hvalue
  cases x
  cases y
  simp_all

/-- The distance from a number with the same sign. -/
theorem abs_value_sub (y : Binary64) (a : ℚ) :
    |y.value - signum y.negative * a| = |(units y.magnitude : ℚ) - a * 2 ^ 1074| / 2 ^ 1074 := by
  have hpos : (0 : ℚ) < 2 ^ 1074 := by positivity
  rw [value, ← mul_sub, abs_signum_mul, eq_div_iff hpos.ne', ← abs_of_pos hpos, ← abs_mul,
    abs_of_pos hpos, sub_mul, div_mul_cancel₀ _ hpos.ne']

/-- The distance from a number with the other sign. -/
theorem abs_value_sub_of_ne {y : Binary64} {negative : Bool} {a : ℚ} (ha : 0 ≤ a)
    (hsign : y.negative ≠ negative) :
    |y.value - signum negative * a| = (units y.magnitude + a * 2 ^ 1074) / 2 ^ 1074 := by
  have hpos : (0 : ℚ) < 2 ^ 1074 := by positivity
  have hsplit : y.value - signum negative * a
      = signum y.negative * (units y.magnitude / 2 ^ 1074 + a) := by
    rw [value, signum_of_ne hsign.symm, neg_mul, sub_neg_eq_add, ← mul_add]
  have hnonneg : 0 ≤ (units y.magnitude / 2 ^ 1074 : ℚ) + a :=
    add_nonneg (div_nonneg (Nat.cast_nonneg _) hpos.le) ha
  rw [hsplit, abs_signum_mul, abs_of_nonneg hnonneg, add_div, mul_div_cancel_right₀ _ hpos.ne']

/-! ## Nearest numbers -/

/-- The least magnitude to which a number of units can be rounded is nearest to it. -/
theorem abs_units_sub_le {v : ℚ} {m : Nat} (habove : NotAbove v m)
    (hbelow : ∀ k < m, ¬NotAbove v k) (n : Nat) :
    |(units m : ℚ) - v| ≤ |(units n : ℚ) - v|
      ∧ (|(units m : ℚ) - v| = |(units n : ℚ) - v| → n ≠ m → m % 2 = 0) := by
  rcases Nat.lt_trichotomy n m with h | rfl | h
  · obtain ⟨k, rfl⟩ : ∃ k, m = k + 1 := ⟨m - 1, by omega⟩
    have hnot := hbelow k (Nat.lt_succ_self k)
    -- `v` is not below the middle of the step under `m`, and is this middle only if `k` is odd
    simp only [NotAbove, not_or, not_lt, not_and] at hnot
    have hn : (units n : ℚ) ≤ units k := units_le_units_iff.2 (by omega)
    have hlt : (units n : ℚ) < units (k + 1) := units_lt_units_iff.2 h
    rw [abs_sub_comm (units n : ℚ), abs_of_nonneg (show (0 : ℚ) ≤ v - units n by linarith)]
    refine ⟨abs_sub_le_iff.2 ⟨by linarith, by linarith⟩, fun htie _ => ?_⟩
    rcases abs_choice ((units (k + 1) : ℚ) - v) with hcase | hcase
    · have := hnot.2 (by linarith)
      omega
    · linarith
  · exact ⟨le_rfl, fun _ hne => absurd rfl hne⟩
  · have hn : (units (m + 1) : ℚ) ≤ units n := units_le_units_iff.2 h
    have hlt : (units m : ℚ) < units n := units_lt_units_iff.2 h
    have hmiddle : 2 * v ≤ units m + units (m + 1) := by
      rcases habove with hlow | ⟨hmid, -⟩ <;> linarith
    rw [abs_of_nonneg (show (0 : ℚ) ≤ units n - v by linarith)]
    refine ⟨abs_sub_le_iff.2 ⟨by linarith, by linarith⟩, fun htie _ => ?_⟩
    rcases abs_choice ((units m : ℚ) - v) with hcase | hcase
    · linarith
    · rcases habove with hlow | ⟨-, heven⟩
      · linarith
      · exact heven

/-- Nor is a number with the other sign nearer, and none but zero has one that is as near. -/
theorem abs_units_sub_le_units_add {v : ℚ} {m : Nat} (hv : 0 ≤ v) (habove : NotAbove v m)
    (hbelow : ∀ k < m, ¬NotAbove v k) (n : Nat) :
    |(units m : ℚ) - v| ≤ units n + v
      ∧ (|(units m : ℚ) - v| = units n + v → m ≠ 0 → m % 2 = 0) := by
  obtain ⟨hle, heven⟩ := abs_units_sub_le habove hbelow 0
  rw [show units 0 = 0 from rfl, Nat.cast_zero, zero_sub, abs_neg, abs_of_nonneg hv] at hle heven
  have hn : (0 : ℚ) ≤ units n := Nat.cast_nonneg _
  exact ⟨by linarith, fun htie hm => heven (by linarith) hm.symm⟩

theorem isNearest_of_notAbove {x : Binary64} (hfinite : x.IsFinite) {a : ℚ} (ha : 0 ≤ a)
    (habove : NotAbove (a * 2 ^ 1074) x.magnitude)
    (hbelow : ∀ k < x.magnitude, ¬NotAbove (a * 2 ^ 1074) k) :
    x.IsNearest (signum x.negative * a) := by
  have hpos : (0 : ℚ) < 2 ^ 1074 := by positivity
  have hnear := abs_units_sub_le habove hbelow
  have hopposite := abs_units_sub_le_units_add (mul_nonneg ha hpos.le) habove hbelow
  refine ⟨hfinite, fun y _ => ?_, fun y _ hne htie => ?_⟩
  · by_cases hsign : y.negative = x.negative
    · rw [abs_value_sub, ← hsign, abs_value_sub, div_le_div_iff_of_pos_right hpos]
      exact (hnear y.magnitude).1
    · rw [abs_value_sub, abs_value_sub_of_ne ha hsign, div_le_div_iff_of_pos_right hpos]
      exact (hopposite y.magnitude).1
  · by_cases hsign : y.negative = x.negative
    · rw [abs_value_sub, ← hsign, abs_value_sub, div_left_inj' hpos.ne'] at htie
      refine (hnear y.magnitude).2 htie fun heq => hne ?_
      rw [value, value, hsign, heq]
    · rw [abs_value_sub, abs_value_sub_of_ne ha hsign, div_left_inj' hpos.ne'] at htie
      by_cases hm : x.magnitude = 0
      · rw [hm]
      · exact (hopposite y.magnitude).2 htie hm

/-- Between two even magnitudes there is another one, which is nearer than either to their middle. -/
theorem IsNearest.not_lt {x y : Binary64} {v : ℚ} (hx : x.IsNearest v) (hy : y.IsNearest v)
    (hsign : x.negative = y.negative) : ¬x.magnitude < y.magnitude := by
  intro hlt
  have hvalue : x.value ≠ y.value := fun h => by
    rw [eq_of_value_eq hsign h] at hlt
    exact Nat.lt_irrefl _ hlt
  have htie : |x.value - v| = |y.value - v| :=
    le_antisymm (hx.nearest y hy.finite) (hy.nearest x hx.finite)
  have hxeven := hx.even_of_tie y hy.finite hvalue.symm htie
  have hyeven := hy.even_of_tie x hx.finite hvalue htie.symm
  have hmiddle : x.value - v = -(y.value - v) :=
    (abs_eq_abs.1 htie).resolve_left fun h => hvalue (by linarith)
  have hfinite : x.magnitude + 1 < infinityMagnitude := by
    have : y.magnitude < infinityMagnitude := hy.finite
    omega
  have hnear := hx.nearest ⟨x.negative, x.magnitude + 1, hfinite.trans (by decide)⟩ hfinite
  have hlow : (units x.magnitude / 2 ^ 1074 : ℚ) < units (x.magnitude + 1) / 2 ^ 1074 :=
    div_lt_div_of_pos_right (units_lt_units_iff.2 (Nat.lt_succ_self _)) (by positivity)
  have hhigh : (units (x.magnitude + 1) / 2 ^ 1074 : ℚ) < units y.magnitude / 2 ^ 1074 :=
    div_lt_div_of_pos_right (units_lt_units_iff.2 (by omega)) (by positivity)
  simp only [value, ← hsign] at hmiddle hnear
  exact absurd hnear (not_le.2 (abs_signum_mul_sub_lt hlow hhigh hmiddle))

/-- There is one nearest number with a given sign. -/
theorem IsNearest.eq {x y : Binary64} {v : ℚ} (hx : x.IsNearest v) (hy : y.IsNearest v)
    (hsign : x.negative = y.negative) : x = y := by
  have hxy := hx.not_lt hy hsign
  have hyx := hy.not_lt hx hsign.symm
  have hmagnitude : x.magnitude = y.magnitude := by omega
  exact eq_of_value_eq hsign (by rw [value, value, hsign, hmagnitude])

/-! ## Decimals -/

/-- The middle between the greatest finite number and the power of two above it, doubled. -/
theorem units_add_units_infinityMagnitude :
    (units (infinityMagnitude - 1) + units infinityMagnitude : ℚ)
      = (2 ^ 1024 - 2 ^ 970) * 2 ^ 1075 := by
  have hlow : infinityMagnitude - 1 = 2045 * binade + (2 * binade - 1) := rfl
  have hhigh : infinityMagnitude = 2045 * binade + 2 * binade := rfl
  have hfactor : 2 * binade - 1 + 2 * binade = 2 ^ 54 - 1 := rfl
  have hcast : ((2 ^ 54 - 1 : Nat) : ℚ) = 2 ^ 54 - 1 := by norm_num
  have hunits : units (infinityMagnitude - 1) + units infinityMagnitude
      = (2 ^ 54 - 1) * 2 ^ 2045 := by
    rw [hlow, hhigh, units_eq (.inr (by decide)) (Nat.sub_le _ _),
      units_eq (.inr (by decide)) le_rfl, ← Nat.add_mul, hfactor]
  have hexponent : (2 : ℚ) ^ 1024 = 2 ^ 54 * 2 ^ 970 := by rw [← pow_add]
  have hproduct : (2 : ℚ) ^ 2045 = 2 ^ 970 * 2 ^ 1075 := by rw [← pow_add]
  rw [hexponent, ← sub_one_mul, mul_assoc, ← hproduct, ← Nat.cast_add, hunits,
    Nat.cast_mul, hcast, Nat.cast_pow, Nat.cast_ofNat]

theorem decimalMagnitude_lt_iff {digits : Nat} {exponent : Int} :
    decimalMagnitude digits exponent < infinityMagnitude
      ↔ (digits * 10 ^ exponent : ℚ) < 2 ^ 1024 - 2 ^ 970 := by
  have hgreatest : infinityMagnitude - 1 < infinityMagnitude := by decide
  have hodd : ¬(infinityMagnitude - 1) % 2 = 0 := by decide
  have hpos : (0 : ℚ) < 2 ^ 1075 := by positivity
  have hnext : infinityMagnitude - 1 + 1 = infinityMagnitude := rfl
  calc decimalMagnitude digits exponent < infinityMagnitude
      ↔ decimalMagnitude digits exponent ≤ infinityMagnitude - 1 :=
        (Nat.le_sub_one_iff_lt (by decide)).symm
    _ ↔ NotAbove (digits * 10 ^ exponent * 2 ^ 1074) (infinityMagnitude - 1) :=
        decimalMagnitude_le_iff hgreatest
    _ ↔ (digits * 10 ^ exponent : ℚ) < 2 ^ 1024 - 2 ^ 970 := by
        rw [NotAbove, hnext, units_add_units_infinityMagnitude, mul_left_comm, ← pow_succ',
          mul_lt_mul_iff_left₀ hpos]
        simp only [hodd, and_false, or_false]

theorem ofDecimal?_isSome_iff {d : Decimal} :
    (ofDecimal? d).isSome ↔ |d.value| < 2 ^ 1024 - 2 ^ 970 := by
  have hnonneg : (0 : ℚ) ≤ d.digits * 10 ^ d.exponent := by positivity
  rw [Decimal.value, abs_signum_mul, abs_of_nonneg hnonneg, ← decimalMagnitude_lt_iff, ofDecimal?]
  by_cases hfinite : decimalMagnitude d.digits d.exponent < infinityMagnitude <;> simp [hfinite]

theorem isNearest_of_ofDecimal? {d : Decimal} {x : Binary64} (h : ofDecimal? d = some x) :
    x.IsNearest d.value ∧ x.negative = d.negative := by
  simp only [ofDecimal?] at h
  split_ifs at h with hfinite
  cases h
  refine ⟨isNearest_of_notAbove ?_ (by positivity) ((decimalMagnitude_le_iff hfinite).1 le_rfl)
    fun k hk habove => ?_, rfl⟩
  · exact hfinite
  · exact Nat.not_le_of_lt hk ((decimalMagnitude_le_iff (hk.trans hfinite)).2 habove)

theorem ofDecimal?_eq_some_iff {d : Decimal} {x : Binary64} :
    ofDecimal? d = some x ↔
      |d.value| < 2 ^ 1024 - 2 ^ 970 ∧ x.IsNearest d.value ∧ x.negative = d.negative := by
  constructor
  · intro h
    exact ⟨ofDecimal?_isSome_iff.1 (Option.isSome_of_eq_some h), isNearest_of_ofDecimal? h⟩
  · rintro ⟨hrange, hx, hsign⟩
    obtain ⟨y, hy⟩ := Option.isSome_iff_exists.1 (ofDecimal?_isSome_iff.2 hrange)
    obtain ⟨hnear, hneg⟩ := isNearest_of_ofDecimal? hy
    rw [hy, hx.eq hnear (hsign.trans hneg.symm)]

/-- Only the sign and the value count. -/
theorem ofDecimal?_congr {d e : Decimal} (hsign : d.negative = e.negative)
    (hvalue : d.value = e.value) : ofDecimal? d = ofDecimal? e := by
  refine Option.ext fun x => ?_
  rw [ofDecimal?_eq_some_iff, ofDecimal?_eq_some_iff, hsign, hvalue]

end Binary64

end SyntaxChart
