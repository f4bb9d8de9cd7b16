import Script.Proofs.Numerals
import Mathlib.Tactic.Ring

/-!
# Decimals read back

Rounding depends on a quotient alone, not on the numerator and denominator that it is given by, and
leaves a magnitude as it is. So a decimal may be written with more zeros without being read as
another double, and the shortest decimal of a magnitude is read as that magnitude.
-/
namespace Script

namespace Magnitude

theorem halfEven_mul (num den : Nat) {k : Nat} (hk : 0 < k) :
    halfEven (num * k) (den * k) = halfEven num den := by
  have hlt : 2 * (num % den * k) < den * k ↔ 2 * (num % den) < den := by
    rw [← Nat.mul_assoc]
    exact Nat.mul_lt_mul_right hk
  have heq : 2 * (num % den * k) = den * k ↔ 2 * (num % den) = den := by
    rw [← Nat.mul_assoc]
    exact Nat.mul_left_inj (Nat.ne_of_gt hk)
  simp only [halfEven, Nat.mul_div_mul_right _ _ hk, Nat.mul_mod_mul_right, hlt, heq]

theorem round_mul (num den : Nat) {k : Nat} (hk : 0 < k) :
    round (num * k) (den * k) = round num den := by
  have hscale : scaleFor (num * k) (den * k) = scaleFor num den := by
    rw [scaleFor, Nat.mul_div_mul_right _ _ hk, scaleFor]
  have hshift : (den * k) <<< scaleFor num den = den <<< scaleFor num den * k := by
    rw [Nat.shiftLeft_eq, Nat.shiftLeft_eq, Nat.mul_right_comm]
  simp only [round, hscale, hshift, halfEven_mul _ _ hk]

/-- Equal quotients are rounded alike. -/
theorem round_congr {num den num' den' : Nat} (hd : 0 < den) (hd' : 0 < den')
    (h : num * den' = num' * den) : round num den = round num' den' := by
  calc round num den = round (num * den') (den * den') := (round_mul num den hd').symm
    _ = round (num' * den) (den' * den) := by rw [h, Nat.mul_comm den den']
    _ = round num' den' := round_mul num' den' hd

/-- The number one has a power of two of units. The exponent is a variable, so that nothing computes
the power. -/
theorem one_eq_pow {k : Nat} (hk : k = 1074) : one = 2 ^ k := by
  rw [one, ← hk, Nat.one_shiftLeft]

theorem units_eq (m : Magnitude) : m.units = m.significand * 2 ^ m.scale := Nat.shiftLeft_eq _ _

theorem significand_lt_pow (m : Magnitude) : m.significand < 2 ^ 53 := by
  have h := m.significand_lt
  rwa [Nat.one_shiftLeft] at h

theorem full_pow (m : Magnitude) : m.scale = 0 ∨ 2 ^ 52 ≤ m.significand := by
  have h := m.full
  rwa [Nat.one_shiftLeft] at h

theorem units_eq_zero {m : Magnitude} (h : m.units = 0) : m = zero := by
  rw [units_eq, Nat.mul_eq_zero] at h
  have hsig : m.significand = 0 := h.resolve_right (Nat.pow_pos (by decide)).ne'
  have hscale : m.scale = 0 := m.full_pow.resolve_right (by rw [hsig]; decide)
  obtain ⟨significand, scale, _, _, _⟩ := m
  obtain rfl : significand = 0 := hsig
  obtain rfl : scale = 0 := hscale
  rfl

/-- The scale of a magnitude is the one that rounding takes for it. -/
theorem scaleFor_units (m : Magnitude) : scaleFor m.units 1 = m.scale := by
  have hlt := m.significand_lt_pow
  rw [scaleFor, Nat.div_one, units_eq]
  rcases m.full_pow with hscale | hfull
  · rw [hscale, Nat.pow_zero, Nat.mul_one]
    rcases Nat.eq_zero_or_pos m.significand with hzero | hpos
    · rw [hzero]
      rfl
    · have hlog : m.significand.log2 < 53 := (Nat.log2_lt hpos.ne').mpr hlt
      omega
  · have hpow : 0 < 2 ^ m.scale := Nat.pow_pos (by decide)
    have hne : m.significand * 2 ^ m.scale ≠ 0 :=
      (Nat.mul_pos (Nat.lt_of_lt_of_le (by decide) hfull) hpow).ne'
    have hlog : (m.significand * 2 ^ m.scale).log2 = 52 + m.scale := by
      rw [Nat.log2_eq_iff hne]
      constructor
      · rw [Nat.pow_add]
        exact Nat.mul_le_mul_right _ hfull
      · rw [Nat.add_right_comm, Nat.pow_add]
        exact Nat.mul_lt_mul_of_pos_right hlt hpow
    rw [hlog, Nat.add_sub_cancel_left]

theorem ofParts?_parts (m : Magnitude) : ofParts? m.significand m.scale = some m :=
  dif_pos ⟨m.significand_lt, m.scale_lt, m.full⟩

/-- A magnitude is rounded to itself. -/
theorem round_units (m : Magnitude) : round m.units 1 = some m := by
  have hpow : 0 < 2 ^ m.scale := Nat.pow_pos (by decide)
  have hhalf : halfEven m.units (1 <<< m.scale) = m.significand := by
    rw [Nat.one_shiftLeft, units_eq]
    simp only [halfEven, Nat.mul_div_cancel _ hpow, Nat.mul_mod_left]
    rw [if_pos (.inl (by simp))]
  simp only [round, scaleFor_units, hhalf]
  rw [if_pos m.significand_lt, ofParts?_parts]

theorem units_injective {m n : Magnitude} (h : m.units = n.units) : m = n := by
  have hround := round_units n
  rw [← h, round_units] at hround
  exact Option.some.inj hround

end Magnitude

namespace Decimal

theorem pow_ten_pos (n : Nat) : 0 < Nat.pow 10 n := Nat.pow_pos (by decide)

/-- Zeros at the end of the digits count for the exponent. -/
theorem toMagnitude?_mul_pow (n k : Nat) (e : Int) :
    toMagnitude? ⟨n * 10 ^ k, e⟩ = toMagnitude? ⟨n, e + k⟩ := by
  refine Magnitude.round_congr (pow_ten_pos _) (pow_ten_pos _) ?_
  have hsum : k + e.toNat + (-(e + k)).toNat = (e + k).toNat + (-e).toNat := by omega
  have hpow : 10 ^ k * 10 ^ e.toNat * 10 ^ (-(e + k)).toNat =
      10 ^ (e + k).toNat * 10 ^ (-e).toNat := by
    rw [← Nat.pow_add, ← Nat.pow_add, ← Nat.pow_add, hsum]
  calc n * 10 ^ k * Magnitude.one * 10 ^ e.toNat * 10 ^ (-(e + k)).toNat
    _ = n * Magnitude.one * (10 ^ k * 10 ^ e.toNat * 10 ^ (-(e + k)).toNat) := by ring
    _ = n * Magnitude.one * (10 ^ (e + k).toNat * 10 ^ (-e).toNat) := by rw [hpow]
    _ = n * Magnitude.one * 10 ^ (e + k).toNat * 10 ^ (-e).toNat := (Nat.mul_assoc _ _ _).symm

theorem toMagnitude?_whole {m : Magnitude} (h : m.units % Magnitude.one = 0) :
    toMagnitude? ⟨m.units / Magnitude.one, 0⟩ = some m := by
  have hunits : m.units / Magnitude.one * Magnitude.one = m.units :=
    Nat.div_mul_cancel (Nat.dvd_of_mod_eq_zero h)
  rw [← m.round_units]
  refine Magnitude.round_congr (pow_ten_pos _) Nat.one_pos ?_
  change m.units / Magnitude.one * Magnitude.one * 1 * 1 = m.units * 1
  rw [hunits, Nat.mul_one, Nat.mul_one]

theorem toMagnitude?_exactDecimal (m : Magnitude) : m.exactDecimal.toMagnitude? = some m := by
  obtain ⟨k, hk⟩ : ∃ k, k = 1074 := ⟨_, rfl⟩
  have hzero : (-1074 : Int).toNat = 0 := rfl
  have hnat : (- -1074 : Int).toNat = k := hk.symm
  rw [← m.round_units, toMagnitude?, Magnitude.exactDecimal, Magnitude.one_eq_pow hk]
  refine Magnitude.round_congr (pow_ten_pos _) Nat.one_pos ?_
  simp only [hzero, hnat, ← hk, Nat.pow_eq, Nat.pow_zero, Nat.mul_one]
  rw [Nat.mul_assoc, ← Nat.mul_pow]

/-- The shortest decimal of a magnitude is read as that magnitude. -/
theorem toMagnitude?_shortest (m : Magnitude) : m.shortest.toMagnitude? = some m := by
  rcases Magnitude.searchDown_eq_or m.onGrid? m.exactDecimal 1100 m.topExponent with he | ⟨e, he⟩
  · rw [Magnitude.shortest, he]
    exact toMagnitude?_exactDecimal m
  · rw [Magnitude.onGrid?] at he
    exact Magnitude.toMagnitude?_of_neighbour? he

/-- What is less than half a unit is rounded to zero. -/
theorem round_eq_zero {num den : Nat} (h : 2 * num < den) :
    Magnitude.round num den = some .zero := by
  have hlt : num < den := by omega
  have hscale : Magnitude.scaleFor num den = 0 := by
    rw [Magnitude.scaleFor, Nat.div_eq_of_lt hlt]
    rfl
  have hhalf : Magnitude.halfEven num den = 0 := by
    simp only [Magnitude.halfEven, Nat.div_eq_of_lt hlt, Nat.mod_eq_of_lt hlt]
    rw [if_pos (.inl h)]
  simp only [Magnitude.round, hscale, Nat.shiftLeft_zero, hhalf]
  rfl

/-- A number of `2 ^ 2098` units or more is too large. -/
theorem round_eq_none {num k : Nat} (hk : 2098 ≤ k) (h : 2 ^ k ≤ num) :
    Magnitude.round num 1 = none := by
  have hne : num ≠ 0 := (Nat.lt_of_lt_of_le (Nat.pow_pos (by decide)) h).ne'
  have hlog : k ≤ num.log2 := (Nat.le_log2 hne).mpr h
  have hscale : 2046 ≤ Magnitude.scaleFor num 1 := by
    rw [Magnitude.scaleFor, Nat.div_one]
    omega
  have hparts {significand scale : Nat} (hs : 2046 ≤ scale) :
      Magnitude.ofParts? significand scale = none := by
    rw [Magnitude.ofParts?, dif_neg]
    rintro ⟨-, hlt, -⟩
    omega
  simp only [Magnitude.round]
  split
  · exact hparts hscale
  · exact hparts (Nat.le_succ_of_le hscale)

theorem toMagnitude?_of_tiny {d : Decimal} (h : 3 * d.exponent + d.digits.log2 < -1080) :
    d.toMagnitude? = some .zero := by
  obtain ⟨n, e⟩ := d
  simp only at h
  have hzero : e.toNat = 0 := by omega
  rw [toMagnitude?, hzero]
  refine round_eq_zero ?_
  obtain ⟨k, hk⟩ : ∃ k, k = 1074 := ⟨_, rfl⟩
  have hexp : n.log2 + 1 + (k + 1) ≤ 3 * (-e).toNat := by omega
  calc 2 * (n * Magnitude.one * 1)
    _ = n * 2 ^ (k + 1) := by rw [Magnitude.one_eq_pow hk]; ring
    _ < 2 ^ (n.log2 + 1) * 2 ^ (k + 1) :=
      Nat.mul_lt_mul_of_pos_right Nat.lt_log2_self (Nat.pow_pos (by decide))
    _ = 2 ^ (n.log2 + 1 + (k + 1)) := (Nat.pow_add 2 _ _).symm
    _ ≤ 2 ^ (3 * (-e).toNat) := Nat.pow_le_pow_right (by decide) hexp
    _ = 8 ^ (-e).toNat := Nat.pow_mul 2 3 _
    _ ≤ 10 ^ (-e).toNat := Nat.pow_le_pow_left (by decide) _

theorem toMagnitude?_of_huge {d : Decimal} (hd : d.digits ≠ 0) (h : 400 < d.exponent) :
    d.toMagnitude? = none := by
  obtain ⟨n, e⟩ := d
  simp only at h hd
  have hzero : (-e).toNat = 0 := by omega
  rw [toMagnitude?, hzero]
  obtain ⟨k, hk⟩ : ∃ k, k = 1074 := ⟨_, rfl⟩
  have hexp : 2098 ≤ k + 3 * e.toNat := by omega
  refine round_eq_none hexp ?_
  calc 2 ^ (k + 3 * e.toNat)
    _ = 1 * 2 ^ k * 8 ^ e.toNat := by rw [Nat.pow_add, Nat.pow_mul, Nat.one_mul]
    _ ≤ n * 2 ^ k * 10 ^ e.toNat :=
      Nat.mul_le_mul (Nat.mul_le_mul_right _ (Nat.pos_of_ne_zero hd))
        (Nat.pow_le_pow_left (by decide) _)
    _ = n * Magnitude.one * 10 ^ e.toNat := by rw [Magnitude.one_eq_pow hk]

/-- The double of a decimal is the magnitude nearest to it, also where no power of ten is
computed. -/
theorem toDouble_of_toMagnitude? {d : Decimal} {m : Magnitude} (negative : Bool)
    (h : d.toMagnitude? = some m) : d.toDouble negative = .finite negative m := by
  unfold toDouble
  split_ifs with hsmall hlarge
  · have hzero : d.toMagnitude? = some .zero := by
      rcases hsmall with hdigits | htiny
      · obtain ⟨n, e⟩ := d
        obtain rfl : n = 0 := hdigits
        exact Magnitude.toMagnitude?_zero e
      · exact toMagnitude?_of_tiny htiny
    rw [Option.some.inj (h.symm.trans hzero)]
  · have hnone := toMagnitude?_of_huge (fun hdigits => hsmall (.inl hdigits)) hlarge
    cases h.symm.trans hnone
  · rw [h]

end Decimal
end Script
