import Script.Proofs.Rounding
import Mathlib.Tactic.Linarith
import Mathlib.Tactic.FieldSimp
import Mathlib.Tactic.Positivity
import Mathlib.Algebra.Order.Field.Power
import Mathlib.Data.Rat.Floor

/-!
# Rounding keeps the order

A larger quotient is never rounded to a smaller magnitude, so what is rounded to one magnitude are
all the numbers between two ends, and none of them is further away than half a step. Decimals are
compared with magnitudes through the rational numbers that they are.
-/
namespace Script

namespace Magnitude

attribute [local irreducible] one

theorem halfEven_mono {a b : Nat} (den : Nat) (h : a ≤ b) : halfEven a den ≤ halfEven b den := by
  have hq : a / den ≤ b / den := Nat.div_le_div_right h
  rcases hq.lt_or_eq with hlt | heq
  · have ha := halfEven_eq_or a den
    have hb := halfEven_eq_or b den
    omega
  · have hr : a % den ≤ b % den := by
      have hda := Nat.div_add_mod a den
      have hdb := Nat.div_add_mod b den
      rw [heq] at hda
      omega
    simp only [halfEven, heq]
    split_ifs <;> omega

/-- A quotient is rounded to a whole number at most half away. -/
theorem halfEven_near (num : Nat) {den : Nat} (hd : 0 < den) :
    2 * num ≤ (2 * halfEven num den + 1) * den ∧ 2 * halfEven num den * den ≤ 2 * num + den := by
  have hdiv := Nat.div_add_mod num den
  have hmod := Nat.mod_lt num hd
  simp only [halfEven]
  generalize num / den = q at hdiv
  generalize num % den = r at hdiv hmod
  subst hdiv
  split_ifs with hdown
  · constructor
    · have : 2 * r ≤ den := by omega
      nlinarith
    · nlinarith
  · constructor
    · nlinarith
    · have : den ≤ 2 * r := by omega
      nlinarith

theorem scaleFor_mono {a b : Nat} (den : Nat) (h : a ≤ b) : scaleFor a den ≤ scaleFor b den := by
  have hq : a / den ≤ b / den := Nat.div_le_div_right h
  refine Nat.sub_le_sub_right ?_ 52
  rcases Nat.eq_zero_or_pos (a / den) with hzero | hpos
  · rw [hzero]
    exact Nat.zero_le _
  · rw [Nat.le_log2 (by omega)]
    exact Nat.le_trans (Nat.log2_self_le hpos.ne') hq

section Scale

variable (num : Nat) {den : Nat} (hd : 0 < den)

include hd

/-- At its scale a quotient is less than `2 ^ 53`. -/
theorem lt_of_scaleFor : num < 2 ^ 53 * (den * 2 ^ scaleFor num den) := by
  have hlog : (num / den).log2 + 1 ≤ scaleFor num den + 53 := by
    rw [scaleFor]
    omega
  have hq : num / den < 2 ^ (scaleFor num den + 53) :=
    Nat.lt_of_lt_of_le Nat.lt_log2_self (Nat.pow_le_pow_right (by decide) hlog)
  rw [Nat.div_lt_iff_lt_mul hd] at hq
  calc num < 2 ^ (scaleFor num den + 53) * den := hq
    _ = 2 ^ 53 * (den * 2 ^ scaleFor num den) := by ring

/-- At its scale a quotient is at least `2 ^ 52`, unless the scale is least. -/
theorem le_of_scaleFor (hs : scaleFor num den ≠ 0) :
    2 ^ 52 * (den * 2 ^ scaleFor num den) ≤ num := by
  have hlog : scaleFor num den + 52 = (num / den).log2 := by
    rw [scaleFor] at hs ⊢
    omega
  have hne : num / den ≠ 0 := by
    intro hzero
    rw [scaleFor, hzero] at hs
    exact hs rfl
  have hq : 2 ^ (scaleFor num den + 52) ≤ num / den := by
    rw [hlog]
    exact Nat.log2_self_le hne
  rw [Nat.le_div_iff_mul_le hd] at hq
  calc 2 ^ 52 * (den * 2 ^ scaleFor num den) = 2 ^ (scaleFor num den + 52) * den := by ring
    _ ≤ num := hq

end Scale

/-- The significand that a quotient is rounded to at its scale. -/
def significandFor (num den : Nat) : Nat := halfEven num (den <<< scaleFor num den)

/-- The units that a quotient is rounded to, whether there are magnitudes that large or not. -/
def unitsFor (num den : Nat) : Nat := significandFor num den * 2 ^ scaleFor num den

theorem round_eq (num den : Nat) : round num den =
    if significandFor num den < 1 <<< 53 then ofParts? (significandFor num den) (scaleFor num den)
    else ofParts? (1 <<< 52) (scaleFor num den + 1) := rfl

section Rounded

variable (num : Nat) {den : Nat} (hd : 0 < den)

include hd

theorem significandFor_le : significandFor num den ≤ 2 ^ 53 := by
  have hlt := lt_of_scaleFor num hd
  have hpos : 0 < den * 2 ^ scaleFor num den := Nat.mul_pos hd (Nat.pow_pos (by decide))
  rw [← Nat.div_lt_iff_lt_mul hpos] at hlt
  have heq := halfEven_eq_or num (den <<< scaleFor num den)
  rw [significandFor]
  rw [Nat.shiftLeft_eq] at heq ⊢
  omega

theorem le_significandFor (hs : scaleFor num den ≠ 0) : 2 ^ 52 ≤ significandFor num den := by
  have hle := le_of_scaleFor num hd hs
  have hpos : 0 < den * 2 ^ scaleFor num den := Nat.mul_pos hd (Nat.pow_pos (by decide))
  rw [← Nat.le_div_iff_mul_le hpos] at hle
  have heq := halfEven_eq_or num (den <<< scaleFor num den)
  rw [significandFor]
  rw [Nat.shiftLeft_eq] at heq ⊢
  omega

/-- Rounding goes through up to the largest scale. -/
theorem exists_round (hs : scaleFor num den + 1 < 2046) : ∃ m, round num den = some m := by
  have hle := significandFor_le num hd
  have hparts {significand scale : Nat} (hlt : significand < 2 ^ 53) (hscale : scale < 2046)
      (hfull : scale = 0 ∨ 2 ^ 52 ≤ significand) : ∃ m, ofParts? significand scale = some m := by
    have h : significand < 1 <<< 53 ∧ scale < 2046 ∧ (scale = 0 ∨ 1 <<< 52 ≤ significand) := by
      rw [Nat.one_shiftLeft, Nat.one_shiftLeft]
      exact ⟨hlt, hscale, hfull⟩
    exact ⟨_, dif_pos h⟩
  rw [round_eq]
  split_ifs with hlt
  · rw [Nat.one_shiftLeft] at hlt
    refine hparts hlt (by omega) ?_
    by_cases hzero : scaleFor num den = 0
    · exact .inl hzero
    · exact .inr (le_significandFor num hd hzero)
  · refine hparts (by decide) hs (.inr (by decide))

theorem units_of_round {m : Magnitude} (h : round num den = some m) :
    m.units = unitsFor num den ∧ scaleFor num den < 2046 := by
  have hle := significandFor_le num hd
  have hparts {significand scale : Nat} (h : ofParts? significand scale = some m) :
      m.units = significand * 2 ^ scale ∧ scale < 2046 := by
    rw [ofParts?] at h
    split_ifs at h with hfits
    obtain rfl := Option.some.inj h
    exact ⟨units_eq _, hfits.2.1⟩
  rw [round_eq] at h
  split_ifs at h with hlt
  · exact hparts h
  · obtain ⟨hunits, hscale⟩ := hparts h
    rw [Nat.one_shiftLeft] at hlt
    have hsig : significandFor num den = 2 ^ 53 := by omega
    refine ⟨?_, by omega⟩
    rw [hunits, unitsFor, hsig, Nat.one_shiftLeft]
    ring

end Rounded

/-- A number on its grid is rounded to itself. -/
theorem unitsFor_of_dvd {num : Nat} (h : 2 ^ scaleFor num 1 ∣ num) : unitsFor num 1 = num := by
  obtain ⟨q, hq⟩ := h
  have hpow : 0 < 2 ^ scaleFor num 1 := Nat.pow_pos (by decide)
  have hsig : significandFor num 1 = q := by
    rw [significandFor, Nat.one_shiftLeft]
    nth_rewrite 1 [hq]
    simp [halfEven, hpow]
  rw [unitsFor, hsig, Nat.mul_comm, ← hq]

/-- Rounding is monotone. -/
theorem unitsFor_mono {a b den : Nat} (hd : 0 < den) (h : a ≤ b) :
    unitsFor a den ≤ unitsFor b den := by
  rcases (scaleFor_mono den h).lt_or_eq with hlt | heq
  · calc unitsFor a den
      _ ≤ 2 ^ 53 * 2 ^ scaleFor a den := Nat.mul_le_mul_right _ (significandFor_le a hd)
      _ = 2 ^ 52 * 2 ^ (scaleFor a den + 1) := by ring
      _ ≤ 2 ^ 52 * 2 ^ scaleFor b den :=
        Nat.mul_le_mul_left _ (Nat.pow_le_pow_right (by decide) hlt)
      _ ≤ unitsFor b den :=
        Nat.mul_le_mul_right _ (le_significandFor b hd (Nat.ne_of_gt (Nat.zero_lt_of_lt hlt)))
  · rw [unitsFor, unitsFor, significandFor, significandFor, heq]
    exact Nat.mul_le_mul_right _ (halfEven_mono _ h)

/-- What lies between two numbers that are rounded to a magnitude is rounded to it too. -/
theorem round_between {a b c den : Nat} {m : Magnitude} (hd : 0 < den) (hab : a ≤ b) (hbc : b ≤ c)
    (ha : round a den = some m) (hc : round c den = some m) : round b den = some m := by
  obtain ⟨hua, -⟩ := units_of_round a hd ha
  obtain ⟨huc, hscale⟩ := units_of_round c hd hc
  have hle := unitsFor_mono hd hab
  have hge := unitsFor_mono hd hbc
  have hub : unitsFor b den = unitsFor c den := by omega
  rcases (scaleFor_mono den hbc).lt_or_eq with hlt | heq
  · obtain ⟨n, hn⟩ := exists_round b hd (by omega)
    have hunits : n.units = m.units := by
      rw [(units_of_round b hd hn).1, hub, huc]
    rw [hn, ← n.round_units, hunits, m.round_units]
  · have hsig : significandFor b den = significandFor c den := by
      rw [unitsFor, unitsFor, heq] at hub
      exact Nat.eq_of_mul_eq_mul_right (Nat.pow_pos (by decide)) hub
    rw [← hc]
    rw [round_eq, round_eq, hsig, heq]

/-- A number of units is rounded to a magnitude. -/
def Rounds (x : ℚ) (m : Magnitude) : Prop :=
  ∃ num den : ℕ, 0 < den ∧ x = num / den ∧ round num den = some m

theorem rounds_iff {num den : ℕ} {m : Magnitude} (hd : 0 < den) :
    Rounds (num / den) m ↔ round num den = some m := by
  refine ⟨?_, fun h => ⟨num, den, hd, rfl, h⟩⟩
  rintro ⟨num', den', hd', hq, h⟩
  rw [← h]
  refine round_congr hd hd' ?_
  rw [div_eq_div_iff (by positivity) (by positivity)] at hq
  exact_mod_cast hq

theorem rounds_units (m : Magnitude) : Rounds m.units m :=
  ⟨m.units, 1, Nat.one_pos, by simp, m.round_units⟩

/-- Three numbers over one denominator. -/
theorem exists_common_den {x y z : ℚ} (hx : 0 ≤ x) (hy : 0 ≤ y) (hz : 0 ≤ z) :
    ∃ a b c den : ℕ, 0 < den ∧ x = a / den ∧ y = b / den ∧ z = c / den := by
  have hnum {w : ℚ} (hw : 0 ≤ w) : (w.num.toNat : ℚ) = w * w.den := by
    have hint : (w.num.toNat : ℤ) = w.num := Int.toNat_of_nonneg (Rat.num_nonneg.mpr hw)
    rw [Rat.mul_den_eq_num]
    exact_mod_cast hint
  have hx' : (x.den : ℚ) ≠ 0 := by exact_mod_cast x.den_nz
  have hy' : (y.den : ℚ) ≠ 0 := by exact_mod_cast y.den_nz
  have hz' : (z.den : ℚ) ≠ 0 := by exact_mod_cast z.den_nz
  refine ⟨x.num.toNat * (y.den * z.den), y.num.toNat * (x.den * z.den),
    z.num.toNat * (x.den * y.den), x.den * y.den * z.den, ?_, ?_, ?_, ?_⟩
  · exact Nat.mul_pos (Nat.mul_pos x.den_pos y.den_pos) z.den_pos
  · push_cast
    rw [hnum hx]
    field_simp
  · push_cast
    rw [hnum hy]
    field_simp
  · push_cast
    rw [hnum hz]
    field_simp

namespace Rounds

variable {x y z : ℚ} {m n : Magnitude}

theorem nonneg (h : Rounds x m) : 0 ≤ x := by
  obtain ⟨num, den, -, rfl, -⟩ := h
  positivity

theorem between (hx : Rounds x m) (hz : Rounds z m) (hxy : x ≤ y) (hyz : y ≤ z) : Rounds y m := by
  obtain ⟨a, b, c, den, hd, rfl, rfl, rfl⟩ :=
    exists_common_den hx.nonneg (hx.nonneg.trans hxy) hz.nonneg
  have hpos : (0 : ℚ) < den := by exact_mod_cast hd
  rw [div_le_div_iff_of_pos_right hpos] at hxy hyz
  rw [rounds_iff hd] at hx hz ⊢
  exact round_between hd (by exact_mod_cast hxy) (by exact_mod_cast hyz) hx hz

theorem mono (hx : Rounds x m) (hy : Rounds y n) (hxy : x ≤ y) : m.units ≤ n.units := by
  obtain ⟨a, b, -, den, hd, rfl, rfl, -⟩ := exists_common_den hx.nonneg hy.nonneg hy.nonneg
  have hpos : (0 : ℚ) < den := by exact_mod_cast hd
  rw [div_le_div_iff_of_pos_right hpos] at hxy
  rw [rounds_iff hd] at hx hy
  rw [(units_of_round a hd hx).1, (units_of_round b hd hy).1]
  exact unitsFor_mono hd (by exact_mod_cast hxy)

/-- A number that is rounded is at most half a step away; a step is a unit, or small beside the
number itself. -/
theorem near (h : Rounds x m) : |x - m.units| ≤ 1 / 2 + x / 2 ^ 53 := by
  obtain ⟨num, den, hd, rfl, h⟩ := h
  have hden : (0 : ℚ) < den := by exact_mod_cast hd
  have hstep : 0 < den * 2 ^ scaleFor num den := Nat.mul_pos hd (Nat.pow_pos (by decide))
  obtain ⟨hup, hdown⟩ := halfEven_near num hstep
  rw [← Nat.shiftLeft_eq den, ← significandFor, Nat.shiftLeft_eq] at hup hdown
  have hhalf : |(num : ℚ) / den - m.units| ≤ 2 ^ scaleFor num den / 2 := by
    have hnum : (num : ℚ) = num / den * den := (div_mul_cancel₀ _ hden.ne').symm
    have hup' :
        2 * ((num : ℚ) / den) ≤ (2 * significandFor num den + 1) * 2 ^ scaleFor num den := by
      refine le_of_mul_le_mul_right ?_ hden
      rw [mul_assoc, ← hnum, mul_assoc _ _ (den : ℚ), mul_comm (2 ^ _) (den : ℚ)]
      exact_mod_cast hup
    have hdown' : 2 * significandFor num den * 2 ^ scaleFor num den ≤
        2 * ((num : ℚ) / den) + 2 ^ scaleFor num den := by
      refine le_of_mul_le_mul_right ?_ hden
      rw [add_mul, mul_assoc 2 _ (den : ℚ), ← hnum, mul_assoc _ _ (den : ℚ),
        mul_comm (2 ^ _) (den : ℚ)]
      exact_mod_cast hdown
    rw [(units_of_round num hd h).1, unitsFor, abs_le]
    push_cast
    constructor <;> linarith
  by_cases hs : scaleFor num den = 0
  · rw [hs, pow_zero] at hhalf
    exact hhalf.trans (le_add_of_nonneg_right (by positivity))
  · have hle : (2 ^ 52 * (den * 2 ^ scaleFor num den) : ℚ) ≤ num := by
      exact_mod_cast le_of_scaleFor num hd hs
    have hwide : 2 ^ scaleFor num den / 2 ≤ (num : ℚ) / den / 2 ^ 53 := by
      rw [div_div, le_div_iff₀ (by positivity)]
      linarith
    exact (hhalf.trans hwide).trans (le_add_of_nonneg_left (by norm_num))

end Rounds

end Magnitude

namespace Decimal

def value (d : Decimal) : ℚ := d.digits * 10 ^ d.exponent

theorem ten_zpow (e : Int) : (10 : ℚ) ^ e = 10 ^ e.toNat / 10 ^ (-e).toNat := by
  rw [eq_div_iff (by positivity), ← zpow_natCast, ← zpow_natCast, ← zpow_add₀ (by norm_num)]
  congr 1
  omega

theorem value_mul_one (d : Decimal) : d.value * Magnitude.one =
    ((d.digits * Magnitude.one * 10 ^ d.exponent.toNat : ℕ) : ℚ) /
      ((10 ^ (-d.exponent).toNat : ℕ) : ℚ) := by
  rw [value, ten_zpow]
  push_cast
  ring

theorem toMagnitude?_eq_some_iff {d : Decimal} {m : Magnitude} :
    d.toMagnitude? = some m ↔ Magnitude.Rounds (d.value * Magnitude.one) m := by
  rw [value_mul_one, Magnitude.rounds_iff (Nat.pow_pos (by decide))]
  rfl

end Decimal

namespace Magnitude

variable {m : Magnitude}

def value (m : Magnitude) : ℚ := m.units / one

theorem one_pos_rat : (0 : ℚ) < one := by exact_mod_cast one_pos

theorem value_mul_one (m : Magnitude) : m.value * one = m.units :=
  div_mul_cancel₀ _ one_pos_rat.ne'

/-- A decimal is read as a magnitude if it lies between the magnitude and a decimal that is. -/
theorem reads_between {d d' : Decimal} (h : d'.toMagnitude? = some m)
    (hd : m.value ≤ d.value ∧ d.value ≤ d'.value ∨ d'.value ≤ d.value ∧ d.value ≤ m.value) :
    d.toMagnitude? = some m := by
  rw [Decimal.toMagnitude?_eq_some_iff] at h ⊢
  have hm := rounds_units m
  rw [← value_mul_one] at hm
  have hone := one_pos_rat.le
  rcases hd with ⟨h₁, h₂⟩ | ⟨h₁, h₂⟩
  · exact hm.between h (mul_le_mul_of_nonneg_right h₁ hone) (mul_le_mul_of_nonneg_right h₂ hone)
  · exact h.between hm (mul_le_mul_of_nonneg_right h₁ hone) (mul_le_mul_of_nonneg_right h₂ hone)

theorem reads_among {d d' d'' : Decimal} (h : d.toMagnitude? = some m)
    (h'' : d''.toMagnitude? = some m) (hle : d.value ≤ d'.value) (hle' : d'.value ≤ d''.value) :
    d'.toMagnitude? = some m := by
  rw [Decimal.toMagnitude?_eq_some_iff] at h h'' ⊢
  have hone := one_pos_rat.le
  exact h.between h'' (mul_le_mul_of_nonneg_right hle hone) (mul_le_mul_of_nonneg_right hle' hone)

theorem units_le_of_value_le {n : Magnitude} {d d' : Decimal} (h : d.toMagnitude? = some m)
    (h' : d'.toMagnitude? = some n) (hle : d.value ≤ d'.value) : m.units ≤ n.units := by
  rw [Decimal.toMagnitude?_eq_some_iff] at h h'
  exact h.mono h' (mul_le_mul_of_nonneg_right hle one_pos_rat.le)

/-- A whole number is rounded to a whole number. -/
theorem units_mod_one {n : Nat} (h : round (n * one) 1 = some m) : m.units % one = 0 := by
  obtain ⟨k, hk⟩ : ∃ k, k = 1074 := ⟨_, rfl⟩
  obtain ⟨hunits, -⟩ := units_of_round _ Nat.one_pos h
  rw [hunits]
  rcases Nat.le_total k (scaleFor (n * one) 1) with hle | hle
  · rw [unitsFor]
    rw [one_eq_pow hk] at hle ⊢
    exact Nat.mod_eq_zero_of_dvd (Dvd.dvd.mul_left (pow_dvd_pow 2 hle) _)
  · have hdvd : 2 ^ scaleFor (n * one) 1 ∣ n * one := by
      nth_rewrite 2 [one_eq_pow hk]
      exact Dvd.dvd.mul_left (pow_dvd_pow 2 hle) n
    rw [unitsFor_of_dvd hdvd, Nat.mul_mod_left]

theorem whole_of_reads {d : Decimal} (h : d.toMagnitude? = some m) (he : 0 ≤ d.exponent) :
    m.units % one = 0 := by
  have hzero : (-d.exponent).toNat = 0 := by omega
  rw [Decimal.toMagnitude?, hzero, Nat.mul_right_comm] at h
  exact units_mod_one h

end Magnitude
end Script
