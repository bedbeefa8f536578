import Mathlib.Algebra.Order.Field.Power
import Mathlib.Algebra.Order.Ring.Rat
import Mathlib.Tactic.Linarith
import Mathlib.Tactic.NormNum
import Mathlib.Tactic.Positivity
import Mathlib.Tactic.Ring
import R64.Literal.Single
import R64.Machine.Word
/-!
Single-precision numbers and rounding. A pattern counts units of the least positive number, and a larger pattern more of
them, also beyond infinity as if there were no end to the exponent. The numbers that are rounded to a pattern are those
between the midpoints to its two neighbours. Main statements: `round` gives the pattern whose interval holds the
quotient, with infinity for all patterns beyond, and the word for such a pattern is the finite number nearest to the
quotient, in a tie the even one.
-/
namespace R64.Single

/-- The number of times that a pattern holds the least positive number. -/
def units (p : Nat) : Nat :=
  if p < 0x800000 then p else (0x800000 + p % 0x800000) * 2 ^ (p / 0x800000 - 1)

/-- A pattern as an exponent step and a significand. The significand may be one more than 24 bits hold. -/
theorem units_add {s m : Nat} (hs : s = 0 ∨ 0x800000 ≤ m) (hm : m ≤ 0x1000000) :
    units (s * 0x800000 + m) = m * 2 ^ s := by
  rw [units]
  by_cases hsmall : m < 0x800000
  · obtain rfl : s = 0 := by omega
    rw [if_pos (by omega)]
    omega
  · rw [if_neg (by omega)]
    by_cases hcarry : m = 0x1000000
    · have hmod : (s * 0x800000 + m) % 0x800000 = 0 := by omega
      have hdiv : (s * 0x800000 + m) / 0x800000 - 1 = s + 1 := by omega
      rw [hmod, hdiv, hcarry, Nat.pow_succ]
      omega
    · have hmod : (s * 0x800000 + m) % 0x800000 = m - 0x800000 := by omega
      have hdiv : (s * 0x800000 + m) / 0x800000 - 1 = s := by omega
      rw [hmod, hdiv, Nat.add_sub_cancel' (by omega)]

theorem le_units_succ {s m : Nat} (hs : s = 0 ∨ 0x800000 ≤ m) (hm : m ≤ 0x1000000) :
    (m + 1) * 2 ^ s ≤ units (s * 0x800000 + m + 1) := by
  by_cases hcarry : m = 0x1000000
  · have hnext : s * 0x800000 + m + 1 = (s + 1) * 0x800000 + 0x800001 := by omega
    rw [hnext, units_add (.inr (by omega)) (by omega), Nat.pow_succ, hcarry]
    omega
  · rw [Nat.add_assoc, units_add (by omega) (by omega)]

theorem exists_step (p : Nat) : ∃ s m, p = s * 0x800000 + m ∧ (s = 0 ∨ 0x800000 ≤ m) ∧ m < 0x1000000 := by
  by_cases hsmall : p < 0x800000
  · exact ⟨0, p, by omega, .inl rfl, by omega⟩
  · exact ⟨p / 0x800000 - 1, p % 0x800000 + 0x800000, by omega, .inr (by omega), by omega⟩

theorem units_strictMono : StrictMono units := by
  refine strictMono_nat_of_lt_succ fun p => ?_
  obtain ⟨s, m, rfl, hs, hm⟩ := exists_step p
  rw [Nat.add_assoc, units_add hs (by omega), units_add (by omega) (by omega)]
  exact Nat.mul_lt_mul_of_pos_right (by omega) (Nat.two_pow_pos s)

theorem cast_units_lt {p n : Nat} (h : p < n) : (units p : ℚ) < units n := Nat.cast_lt.mpr (units_strictMono h)

theorem cast_units_le {p n : Nat} (h : p ≤ n) : (units p : ℚ) ≤ units n :=
  Nat.cast_le.mpr (units_strictMono.monotone h)

/-- The interval of a pattern: `y` units lie between the midpoints of the pattern and its neighbours. A midpoint belongs
to the even one of the two patterns around it. -/
structure RoundsTo (y : ℚ) (p : Nat) : Prop where
  above : 2 * y ≤ units p + units (p + 1)
  above_even : 2 * y = units p + units (p + 1) → p % 2 = 0
  below : ∀ n, p = n + 1 → units n + units p ≤ 2 * y
  below_even : ∀ n, p = n + 1 → units n + units p = 2 * y → p % 2 = 0

section Nearest

variable {a b y : ℚ}

/-- Of two numbers the lower is as near to a third as the higher exactly if this is not above the midpoint. -/
theorem abs_sub_le_abs_sub_iff (h : a < b) : |a - y| ≤ |b - y| ↔ 2 * y ≤ a + b := by
  rw [← sq_le_sq]
  have hfactor : (b - y) ^ 2 - (a - y) ^ 2 = (b - a) * (a + b - 2 * y) := by ring
  rw [← sub_nonneg, hfactor, mul_nonneg_iff_of_pos_left (sub_pos.mpr h), sub_nonneg]

theorem abs_sub_le_abs_sub_iff_of_gt (h : b < a) : |a - y| ≤ |b - y| ↔ b + a ≤ 2 * y := by
  have hneg := abs_sub_le_abs_sub_iff (y := -y) (neg_lt_neg h)
  rw [neg_sub_neg, neg_sub_neg, abs_sub_comm y a, abs_sub_comm y b] at hneg
  rw [hneg]
  constructor <;> intro hle <;> linarith

end Nearest

namespace RoundsTo

variable {y : ℚ} {p : Nat} (h : RoundsTo y p)

include h

theorem two_mul_le {n : Nat} (hn : p < n) : 2 * y ≤ units p + units n :=
  h.above.trans (add_le_add_right (cast_units_le hn) _)

theorem le_two_mul {n : Nat} (hn : n < p) : units n + units p ≤ 2 * y := by
  obtain ⟨k, rfl⟩ : ∃ k, p = k + 1 := ⟨p - 1, by omega⟩
  exact (add_le_add_left (cast_units_le (Nat.lt_succ_iff.mp hn)) _).trans (h.below k rfl)

/-- No pattern is nearer. -/
theorem nearest (n : Nat) : |(units p : ℚ) - y| ≤ |(units n : ℚ) - y| := by
  rcases Nat.lt_trichotomy p n with hn | rfl | hn
  · exact (abs_sub_le_abs_sub_iff (cast_units_lt hn)).mpr (h.two_mul_le hn)
  · exact le_rfl
  · exact (abs_sub_le_abs_sub_iff_of_gt (cast_units_lt hn)).mpr (h.le_two_mul hn)

/-- Where another pattern is as near, `y` is a midpoint. -/
theorem even_of_tie {n : Nat} (hn : n ≠ p) (htie : |(units n : ℚ) - y| = |(units p : ℚ) - y|) : p % 2 = 0 := by
  rcases Nat.lt_or_gt_of_ne hn with hn | hn
  · obtain ⟨k, rfl⟩ : ∃ k, p = k + 1 := ⟨p - 1, by omega⟩
    have hbelow := (abs_sub_le_abs_sub_iff (cast_units_lt hn)).mp htie.le
    have hk := cast_units_le (Nat.lt_succ_iff.mp hn)
    exact h.below_even k rfl (le_antisymm (h.below k rfl) (by linarith))
  · have habove := (abs_sub_le_abs_sub_iff_of_gt (cast_units_lt hn)).mp htie.le
    have hsucc := cast_units_le (Nat.succ_le_of_lt hn)
    exact h.above_even (le_antisymm h.above (by linarith))

/-- Where the patterns after `n` begin. -/
theorem lt_iff (n : Nat) :
    n < p ↔ (units n + units (n + 1) : ℚ) < 2 * y ∨ (units n + units (n + 1) : ℚ) = 2 * y ∧ n % 2 = 1 := by
  constructor
  · intro hn
    have hsucc := cast_units_le (Nat.succ_le_of_lt hn)
    have hbelow := h.le_two_mul hn
    rcases lt_or_eq_of_le (show (units n + units (n + 1) : ℚ) ≤ 2 * y by linarith) with hlt | heq
    · exact .inl hlt
    · obtain rfl : n + 1 = p := by
        refine units_strictMono.injective (Nat.cast_injective (R := ℚ) ?_)
        exact le_antisymm hsucc (by linarith)
      have heven := h.below_even n rfl heq
      exact .inr ⟨heq, by omega⟩
  · intro hy
    by_contra hn
    have hle := cast_units_le (Nat.le_of_not_lt hn)
    have habove := h.two_mul_le (Nat.lt_succ_of_le (Nat.le_of_not_lt hn))
    rcases hy with hlt | ⟨heq, hodd⟩
    · linarith
    · obtain rfl : p = n := by
        refine units_strictMono.injective (Nat.cast_injective (R := ℚ) ?_)
        exact le_antisymm hle (by linarith)
      have heven := h.above_even heq.symm
      omega

/-- What is half a unit or less is rounded to zero. -/
theorem pos_iff : 0 < p ↔ 1 < 2 * y := by
  rw [h.lt_iff]
  norm_num [units]

/-- Where the finite numbers end: half a unit of the last place beyond the largest. -/
theorem infinity_le_iff : infinity ≤ p ↔ ((2 ^ 128 - 2 ^ 103) * 2 ^ 149 : ℚ) ≤ y := by
  have hlargest : units 0x7F7FFFFF = 0xFFFFFF * 2 ^ 253 :=
    units_add (s := 253) (m := 0xFFFFFF) (.inr (by omega)) (by omega)
  have hinfinity : units 0x7F800000 = 0x1000000 * 2 ^ 253 :=
    units_add (s := 253) (m := 0x1000000) (.inr (by omega)) (by omega)
  have hmidpoint : ((units 0x7F7FFFFF : ℚ) + units 0x7F800000) = 2 * ((2 ^ 128 - 2 ^ 103) * 2 ^ 149) := by
    rw [hlargest, hinfinity]
    norm_num
  refine Nat.succ_le_iff.trans ((h.lt_iff 0x7F7FFFFF).trans ?_)
  rw [hmidpoint]
  constructor
  · rintro (hlt | ⟨heq, -⟩) <;> linarith
  · intro hle
    rcases lt_or_eq_of_le hle with hlt | heq
    · exact .inl (by linarith)
    · exact .inr ⟨by rw [heq], rfl⟩

end RoundsTo

/-- Rounding to a multiple of `2 ^ s` units is rounding to a pattern, provided that the patterns around are that far
apart. Below a power of two they are nearer to each other, but `y` is not there. -/
theorem roundsTo_add {y : ℚ} {s m : Nat} (hs : s = 0 ∨ 0x800000 ≤ m ∧ (0x800000 * 2 ^ s : ℚ) ≤ y)
    (hm : m ≤ 0x1000000) (habove : 2 * y ≤ (2 * m + 1) * 2 ^ s) (hbelow : (2 * m - 1) * 2 ^ s ≤ 2 * y)
    (heven : 2 * y = (2 * m + 1) * 2 ^ s ∨ (2 * m - 1) * 2 ^ s = 2 * y → m % 2 = 0) :
    RoundsTo y (s * 0x800000 + m) := by
  have hpow : (0 : ℚ) < 2 ^ s := by positivity
  have hunits : (units (s * 0x800000 + m) : ℚ) = m * 2 ^ s := by
    rw [units_add (hs.imp_right And.left) hm]
    push_cast
    rfl
  have hparity : (s * 0x800000 + m) % 2 = m % 2 := by omega
  have hnext : ((2 * m + 1) * 2 ^ s : ℚ) ≤ units (s * 0x800000 + m) + units (s * 0x800000 + m + 1) := by
    have hsucc : ((m + 1 : ℚ)) * 2 ^ s ≤ units (s * 0x800000 + m + 1) := by
      exact_mod_cast le_units_succ (hs.imp_right And.left) hm
    linarith
  have hlast : ∀ n, s * 0x800000 + m = n + 1 →
      (units n + units (s * 0x800000 + m) : ℚ) = (2 * m - 1) * 2 ^ s ∨
        (units n + units (s * 0x800000 + m) : ℚ) < 2 * y := by
    intro n hn
    by_cases hm' : s = 0 ∨ 0x800000 < m
    · left
      obtain ⟨m, rfl⟩ : ∃ k, m = k + 1 := ⟨m - 1, by omega⟩
      obtain rfl : s * 0x800000 + m = n := by omega
      rw [hunits, units_add (by omega) (by omega)]
      push_cast
      ring
    · right
      have hlt := cast_units_lt (Nat.lt_of_succ_le hn.ge)
      have hstart := hs.resolve_left (by omega)
      obtain rfl : m = 0x800000 := by omega
      rw [hunits] at hlt ⊢
      push_cast at hlt ⊢
      linarith [hstart.2]
  refine ⟨habove.trans hnext, ?_, ?_, ?_⟩
  · intro htie
    rw [hparity]
    exact heven (.inl (le_antisymm habove (hnext.trans htie.ge)))
  · intro n hn
    rcases hlast n hn with heq | hlt
    · exact heq.trans_le hbelow
    · exact hlt.le
  · intro n hn htie
    rw [hparity]
    rcases hlast n hn with heq | hlt
    · exact heven (.inr (heq.symm.trans htie))
    · exact absurd htie hlt.ne

/-- How far the nearest natural number is from a quotient, in multiples of the denominator. -/
theorem nearestEven_spec (num : Nat) {den : Nat} (hden : 0 < den) :
    2 * num ≤ (2 * nearestEven num den + 1) * den ∧ 2 * nearestEven num den * den ≤ 2 * num + den ∧
      (2 * num = (2 * nearestEven num den + 1) * den ∨ 2 * nearestEven num den * den = 2 * num + den →
        nearestEven num den % 2 = 0) := by
  have hnum : den * (num / den) + num % den = num := Nat.div_add_mod num den
  have hrest : num % den < den := Nat.mod_lt num hden
  rw [nearestEven]
  generalize num / den = q at hnum ⊢
  generalize num % den = r at hnum hrest ⊢
  have hq : (2 * q + 1) * den = 2 * (den * q) + den := by ring
  have hq' : 2 * q * den = 2 * (den * q) := by ring
  have hsucc : (2 * (q + 1) + 1) * den = 2 * (den * q) + 3 * den := by ring
  have hsucc' : 2 * (q + 1) * den = 2 * (den * q) + 2 * den := by ring
  split
  · rw [hq, hq']
    omega
  · split
    · rw [hsucc, hsucc']
      omega
    · rcases Nat.mod_two_eq_zero_or_one q with heven | hodd
      · rw [heven, Nat.add_zero q, hq, hq']
        omega
      · rw [hodd, hsucc, hsucc']
        omega

/-- After the doublings the quotient has at most 24 bits, and it has 24 of them if there were any. -/
theorem scale_spec (num : Nat) {den : Nat} (hden : 0 < den) :
    num <<< 149 < 0x1000000 * (den <<< scale num den) ∧
      (scale num den = 0 ∨ 0x800000 * (den <<< scale num den) ≤ num <<< 149) := by
  rw [Nat.shiftLeft_eq den, scale]
  generalize num <<< 149 = count
  have hupper : count / den < 2 ^ ((count / den).log2 + 1) := Nat.lt_log2_self
  constructor
  · have hpow : 2 ^ ((count / den).log2 + 1) ≤ 2 ^ (24 + ((count / den).log2 - 23)) :=
      Nat.pow_le_pow_right (by omega) (by omega)
    have hlt := (Nat.div_lt_iff_lt_mul hden).mp (hupper.trans_le hpow)
    rw [Nat.pow_add] at hlt
    calc count < 2 ^ 24 * 2 ^ ((count / den).log2 - 23) * den := hlt
      _ = 0x1000000 * (den * 2 ^ ((count / den).log2 - 23)) := by ring
  · by_cases hlog : (count / den).log2 ≤ 23
    · exact .inl (by omega)
    · right
      have hne : count / den ≠ 0 := by
        intro hzero
        rw [hzero] at hlog
        exact hlog (by decide)
      have hlower := Nat.mul_le_of_le_div den _ _ (Nat.log2_self_le hne)
      obtain ⟨s, hs⟩ : ∃ s, (count / den).log2 = 23 + s := ⟨(count / den).log2 - 23, by omega⟩
      rw [hs, Nat.pow_add] at hlower
      rw [hs, Nat.add_sub_cancel_left]
      calc 0x800000 * (den * 2 ^ s) = 2 ^ 23 * 2 ^ s * den := by ring
        _ ≤ count := hlower

/-- Rounding gives the pattern in whose interval the quotient lies, and infinity for all that are not finite. -/
theorem exists_round (num : Nat) {den : Nat} (hden : 0 < den) :
    ∃ p, RoundsTo (num / den * 2 ^ 149) p ∧ round num den = min infinity p := by
  refine ⟨_, ?_, rfl⟩
  obtain ⟨hupper, hlower⟩ := scale_spec num hden
  have hcast : (num / den * 2 ^ 149 : ℚ) = (num <<< 149 : Nat) / den := by
    rw [Nat.shiftLeft_eq, Nat.cast_mul, div_mul_eq_mul_div]
    norm_num
  rw [hcast]
  -- from here on everything is compared in multiples of `den`
  generalize num <<< 149 = count at hupper hlower ⊢
  generalize scale num den = s at hupper hlower ⊢
  rw [Nat.shiftLeft_eq] at hupper hlower ⊢
  have hstep : 0 < den * 2 ^ s := by positivity
  obtain ⟨habove, hbelow, heven⟩ := nearestEven_spec count hstep
  generalize nearestEven count (den * 2 ^ s) = m at habove hbelow heven ⊢
  have hd : (0 : ℚ) < den := Nat.cast_pos.mpr hden
  have hquotient : (2 * (count / den) : ℚ) = 2 * count / den := (mul_div_assoc _ _ _).symm
  refine roundsTo_add (hlower.imp_right fun hlower => ⟨?_, ?_⟩) ?_ ?_ ?_ ?_
  · have hle : 0x1000000 ≤ 2 * m + 1 := Nat.le_of_mul_le_mul_right (by omega) hstep
    omega
  · rw [le_div_iff₀ hd]
    exact_mod_cast (Nat.le_of_eq (by ring)).trans hlower
  · have hlt : 2 * m < 0x2000001 := Nat.lt_of_mul_lt_mul_right (a := den * 2 ^ s) (by omega)
    omega
  · rw [hquotient, div_le_iff₀ hd]
    exact_mod_cast habove.trans_eq (by ring)
  · have hle : (2 * m * (den * 2 ^ s) : ℚ) ≤ 2 * count + den * 2 ^ s := by exact_mod_cast hbelow
    rw [hquotient, le_div_iff₀ hd]
    linarith
  · rw [hquotient, div_eq_iff hd.ne', eq_div_iff hd.ne']
    rintro (heq | heq)
    · have hnat : 2 * count = (2 * m + 1) * 2 ^ s * den := by exact_mod_cast heq
      exact heven (.inl (hnat.trans (by ring)))
    · have hnat : (2 * m * (den * 2 ^ s) : ℚ) = 2 * count + den * 2 ^ s := by linarith
      exact heven (.inr (by exact_mod_cast hnat))

/-! Words as numbers: a sign, eight bits for the exponent and 23 for the fraction. -/

def isNegative (w : Word) : Bool := 0x80000000 ≤ w.toNat

def exponentField (w : Word) : Nat := w.toNat / 0x800000 % 0x100

def fraction (w : Word) : Nat := w.toNat % 0x800000

/-- The largest exponent field is that of the infinities and of what is no number. -/
def IsFinite (w : Word) : Prop := exponentField w < 0xff

def signFactor (negative : Bool) : ℚ := if negative then -1 else 1

/-- The number that a finite word stands for. Without an exponent it is subnormal, with a leading zero in place of the
leading one and the exponent of the least normal numbers. -/
def toRat (w : Word) : ℚ :=
  signFactor (isNegative w) *
    if exponentField w = 0 then (fraction w : ℚ) / 2 ^ 23 * 2 ^ (-126 : ℤ)
    else (1 + (fraction w : ℚ) / 2 ^ 23) * 2 ^ ((exponentField w : ℤ) - 127)

/-- The finite word nearest to `q`. If another number is as near, the one whose last bit is zero is taken. -/
structure Nearest (q : ℚ) (w : Word) : Prop where
  finite : IsFinite w
  le : ∀ v, IsFinite v → |toRat w - q| ≤ |toRat v - q|
  even : ∀ v, IsFinite v → toRat v ≠ toRat w → |toRat v - q| = |toRat w - q| → w.toNat % 2 = 0

section Words

variable {p : Nat} (negative : Bool) (hp : p < signWeight)

include hp

theorem toNat_signedWord : (signedWord negative p).toNat = negative.toNat * signWeight + p := by
  have hlt : negative.toNat * signWeight + p < UInt32.size := by
    have hsign := negative.toNat_le
    rw [signWeight] at hp ⊢
    rw [UInt32.size]
    omega
  exact UInt32.toNat_ofNat_of_lt' hlt

theorem signedWord_eq_iff {n : Nat} (hn : n < signWeight) (negative' : Bool) :
    signedWord negative p = signedWord negative' n ↔ negative = negative' ∧ p = n := by
  rw [← UInt32.toNat_inj, toNat_signedWord negative hp, toNat_signedWord negative' hn]
  rw [signWeight] at hp hn ⊢
  cases negative <;> cases negative' <;> simp <;> omega

theorem isInfinite_signedWord : isInfinite (signedWord negative p) ↔ p = infinity := by
  have hinfinity : infinity < signWeight := by decide
  rw [isInfinite, decide_eq_true_iff, signedWord_eq_iff negative hp hinfinity,
    signedWord_eq_iff negative hp hinfinity]
  cases negative <;> simp

theorem isZero_signedWord : isZero (signedWord negative p) ↔ p = 0 := by
  have hzero : 0 < signWeight := by decide
  rw [isZero, decide_eq_true_iff, signedWord_eq_iff negative hp hzero, signedWord_eq_iff negative hp hzero]
  cases negative <;> simp

theorem isNegative_signedWord : isNegative (signedWord negative p) = negative := by
  rw [isNegative, toNat_signedWord negative hp]
  rw [signWeight] at hp ⊢
  cases negative <;> simp [hp]

theorem exponentField_signedWord : exponentField (signedWord negative p) = p / 0x800000 := by
  rw [exponentField, toNat_signedWord negative hp]
  rw [signWeight] at hp ⊢
  omega

theorem fraction_signedWord : fraction (signedWord negative p) = p % 0x800000 := by
  rw [fraction, toNat_signedWord negative hp]
  rw [signWeight]
  omega

theorem isFinite_signedWord : IsFinite (signedWord negative p) ↔ p < infinity := by
  rw [IsFinite, exponentField_signedWord negative hp, infinity]
  omega

/-- A pattern counts units of the least positive number. -/
theorem toRat_signedWord : toRat (signedWord negative p) = signFactor negative * (units p / 2 ^ 149) := by
  rw [toRat, isNegative_signedWord negative hp, exponentField_signedWord negative hp, fraction_signedWord negative hp,
    units]
  by_cases hsmall : p < 0x800000
  · rw [if_pos (by omega), if_pos hsmall, Nat.mod_eq_of_lt hsmall]
    congr 1
    norm_num
    ring
  · obtain ⟨k, hk⟩ : ∃ k, p / 0x800000 = k + 1 := ⟨p / 0x800000 - 1, by omega⟩
    rw [if_neg (by omega), if_neg hsmall, hk, Nat.add_sub_cancel]
    have hexponent : ((k + 1 : Nat) : ℤ) - 127 = k - 126 := by omega
    rw [hexponent, zpow_sub₀ two_ne_zero, zpow_natCast]
    congr 1
    push_cast
    norm_num
    ring

end Words

theorem signFactor_ne_zero (negative : Bool) : signFactor negative ≠ 0 := by cases negative <;> simp [signFactor]

theorem toRat_signedWord_eq_zero_iff {p : Nat} (negative : Bool) (hp : p < signWeight) :
    toRat (signedWord negative p) = 0 ↔ p = 0 := by
  rw [toRat_signedWord negative hp, mul_eq_zero_iff_left (signFactor_ne_zero negative),
    div_eq_zero_iff, or_iff_left (by positivity), Nat.cast_eq_zero]
  exact units_strictMono.injective.eq_iff' rfl

theorem exists_signedWord (w : Word) : ∃ negative p, p < signWeight ∧ w = signedWord negative p := by
  have hmod : w.toNat % signWeight < signWeight := Nat.mod_lt _ (by decide)
  have hw : w.toNat < 0x100000000 := w.toNat_lt
  refine ⟨isNegative w, w.toNat % signWeight, hmod, UInt32.toNat_inj.mp ?_⟩
  rw [toNat_signedWord _ hmod, isNegative, signWeight]
  by_cases hsign : 0x80000000 ≤ w.toNat
  · rw [decide_eq_true hsign, Bool.toNat_true]
    omega
  · rw [decide_eq_false hsign, Bool.toNat_false]
    omega

theorem abs_signFactor_mul (negative : Bool) (x : ℚ) : |signFactor negative * x| = |x| := by
  rw [abs_mul]
  cases negative <;> simp [signFactor]

/-- Of two numbers that differ only in their signs, the one with the sign of a third is not farther from it. -/
theorem abs_sub_le_abs_signFactor_sub {u a : ℚ} (hu : 0 ≤ u) (ha : 0 ≤ a) (negative negative' : Bool) :
    |u - a| ≤ |signFactor negative' * u - signFactor negative * a| := by
  have hle := abs_abs_sub_abs_le (signFactor negative' * u) (signFactor negative * a)
  rwa [abs_signFactor_mul, abs_signFactor_mul, abs_of_nonneg hu, abs_of_nonneg ha] at hle

theorem abs_sub_lt_abs_signFactor_sub {u a : ℚ} (hu : 0 < u) (ha : 0 < a) {negative negative' : Bool}
    (hsign : negative' ≠ negative) : |u - a| < |signFactor negative' * u - signFactor negative * a| := by
  have hopposite : signFactor negative' = -signFactor negative := by
    cases negative <;> cases negative' <;> simp_all [signFactor]
  have hsum : signFactor negative' * u - signFactor negative * a = signFactor negative * -(u + a) := by
    rw [hopposite]
    ring
  rw [hsum, abs_signFactor_mul, abs_neg, abs_of_pos (add_pos hu ha), abs_lt]
  constructor <;> linarith

namespace RoundsTo

variable {a : ℚ} {p : Nat} (ha : 0 ≤ a) (h : RoundsTo (a * 2 ^ 149) p)

omit ha h in
theorem abs_units_div_sub (n : Nat) : |(units n / 2 ^ 149 : ℚ) - a| = |units n - a * 2 ^ 149| / 2 ^ 149 := by
  have hpow : (0 : ℚ) < 2 ^ 149 := by positivity
  rw [← abs_of_pos hpow, ← abs_div, abs_of_pos hpow, sub_div, mul_div_cancel_right₀ _ hpow.ne']

include h

theorem nearest_div (n : Nat) : |(units p / 2 ^ 149 : ℚ) - a| ≤ |(units n / 2 ^ 149 : ℚ) - a| := by
  rw [abs_units_div_sub, abs_units_div_sub]
  exact div_le_div_of_nonneg_right (h.nearest n) (by positivity)

theorem even_of_tie_div {n : Nat} (hn : n ≠ p)
    (htie : |(units n / 2 ^ 149 : ℚ) - a| ≤ |(units p / 2 ^ 149 : ℚ) - a|) : p % 2 = 0 := by
  rw [abs_units_div_sub, abs_units_div_sub, div_le_div_iff_of_pos_right (by positivity)] at htie
  exact h.even_of_tie hn (le_antisymm htie (h.nearest n))

include ha

/-- The word for the pattern that `a` is rounded to is nearest to `a` with the sign. -/
theorem nearest_signedWord (hp : p < infinity) (negative : Bool) :
    Nearest (signFactor negative * a) (signedWord negative p) := by
  have hsign : p < signWeight := hp.trans (by decide)
  have hunits (n : Nat) : (0 : ℚ) ≤ units n / 2 ^ 149 := by positivity
  have hself : |toRat (signedWord negative p) - signFactor negative * a| = |(units p / 2 ^ 149 : ℚ) - a| := by
    rw [toRat_signedWord negative hsign, ← mul_sub, abs_signFactor_mul]
  have hother (negative' : Bool) {n : Nat} (hn : n < signWeight) :
      |(units n / 2 ^ 149 : ℚ) - a| ≤ |toRat (signedWord negative' n) - signFactor negative * a| := by
    rw [toRat_signedWord negative' hn]
    exact abs_sub_le_abs_signFactor_sub (hunits n) ha negative negative'
  refine ⟨(isFinite_signedWord negative hsign).mpr hp, ?_, ?_⟩
  · intro v _
    obtain ⟨negative', n, hn, rfl⟩ := exists_signedWord v
    rw [hself]
    exact (h.nearest_div n).trans (hother negative' hn)
  · intro v _ hne htie
    obtain ⟨negative', n, hn, rfl⟩ := exists_signedWord v
    have hparity : (signedWord negative p).toNat % 2 = p % 2 := by
      rw [toNat_signedWord negative hsign, signWeight]
      omega
    rw [hparity]
    by_cases hpattern : n = p
    · subst hpattern
      have hsigns : negative' ≠ negative := fun heq => hne (by rw [heq])
      rcases Nat.eq_zero_or_pos n with rfl | hpos
      · rfl
      · have hhalf := h.pos_iff.mp hpos
        have hlt := abs_sub_lt_abs_signFactor_sub (u := units n / 2 ^ 149) (a := a) ?_ (by linarith) hsigns
        · rw [hself, toRat_signedWord negative' hn] at htie
          exact absurd htie hlt.ne'
        · have hzero := cast_units_lt hpos
          rw [show units 0 = 0 from rfl, Nat.cast_zero] at hzero
          positivity
    · exact h.even_of_tie_div hpattern ((hother negative' hn).trans (htie.trans hself).le)

end RoundsTo

end R64.Single
