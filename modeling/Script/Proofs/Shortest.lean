import Script.Proofs.Nearest

/-!
# Shortest decimals

On the grid of one exponent, a decimal is read as a magnitude only if a neighbour of the magnitude
is. So the search down the exponents stops at the coarsest grid that has such a decimal: it finds
one with the fewest digits of all, and the nearest of those.
-/
namespace Script

namespace Decimal

def length (d : Decimal) : Nat := (Text.digits d.digits).length

theorem length_le_iff (d : Decimal) {k : Nat} (hk : 0 < k) : d.length ≤ k ↔ d.digits < 10 ^ k :=
  Nat.length_toDigits_le_iff (by decide) hk

theorem length_pos (d : Decimal) : 0 < d.length := Nat.length_toDigits_pos

theorem exists_length {d : Decimal} (h : d.digits ≠ 0) :
    ∃ k, d.length = k + 1 ∧ 10 ^ k ≤ d.digits := by
  obtain ⟨k, hk⟩ : ∃ k, d.length = k + 1 := Nat.exists_eq_succ_of_ne_zero d.length_pos.ne'
  refine ⟨k, hk, ?_⟩
  rcases Nat.eq_zero_or_pos k with rfl | hpos
  · exact Nat.pos_of_ne_zero h
  · have hlong : ¬ d.length ≤ k := by omega
    rw [d.length_le_iff hpos] at hlong
    exact Nat.le_of_not_lt hlong

theorem value_le {a b : Nat} {e f : Int} (h : a ≤ b) (he : e ≤ f) :
    value ⟨a, e⟩ ≤ value ⟨b, f⟩ := by
  have hdigits : (a : ℚ) ≤ b := by exact_mod_cast h
  have hexp : (10 : ℚ) ^ e ≤ 10 ^ f := zpow_le_zpow_right₀ (by norm_num) he
  exact mul_le_mul hdigits hexp (by positivity) (by positivity)

/-- A decimal is at most the power of ten that has one digit more. -/
theorem value_le_power (d : Decimal) : d.value ≤ value ⟨1, d.length + d.exponent⟩ := by
  have hlt : d.digits < 10 ^ d.length := (d.length_le_iff d.length_pos).mp le_rfl
  have hle : (d.digits : ℚ) ≤ 10 ^ d.length := by exact_mod_cast hlt.le
  rw [value, value, zpow_add₀ (by norm_num), zpow_natCast, Nat.cast_one, one_mul]
  exact mul_le_mul_of_nonneg_right hle (by positivity)

/-- A decimal is at least the power of ten that has as many digits. -/
theorem power_le_value {d : Decimal} (h : d.digits ≠ 0) :
    value ⟨1, d.length + d.exponent - 1⟩ ≤ d.value := by
  obtain ⟨k, hk, hle⟩ := exists_length h
  have hle' : (10 : ℚ) ^ k ≤ d.digits := by exact_mod_cast hle
  have hexp : (d.length : ℤ) + d.exponent - 1 = k + d.exponent := by omega
  rw [value, value, hexp, zpow_add₀ (by norm_num), zpow_natCast, Nat.cast_one, one_mul]
  exact mul_le_mul_of_nonneg_right hle' (by positivity)

theorem toMagnitude?_mul_ten (n : Nat) (e : Int) :
    toMagnitude? ⟨n * 10, e⟩ = toMagnitude? ⟨n, e + 1⟩ := by
  have hmul := toMagnitude?_mul_pow n 1 e
  rwa [Nat.pow_one, Nat.cast_one] at hmul

end Decimal

namespace Magnitude

attribute [local irreducible] one

variable {m : Magnitude} {e : Int}

theorem value_grid (m : Magnitude) (e : Int) :
    m.value = ((m.units * Nat.pow 10 (-e).toNat : ℕ) : ℚ) / ((one * Nat.pow 10 e.toNat : ℕ) : ℚ) *
      10 ^ e := by
  have hone := one_pos_rat
  rw [Decimal.ten_zpow, value, Nat.pow_eq, Nat.pow_eq]
  push_cast
  field_simp

theorem grid_den_pos (e : Int) : 0 < one * Nat.pow 10 e.toNat :=
  Nat.mul_pos one_pos (Decimal.pow_ten_pos _)

/-- No whole number is nearer to a quotient than the one it is rounded to. -/
theorem halfEven_nearest (num : Nat) {den : Nat} (hd : 0 < den) (n : Nat) :
    |(halfEven num den : ℚ) - num / den| ≤ |(n : ℚ) - num / den| := by
  have hden : (0 : ℚ) < den := by exact_mod_cast hd
  have hhalf : |(halfEven num den : ℚ) - num / den| ≤ 1 / 2 := by
    obtain ⟨hup, hdown⟩ := halfEven_near num hd
    have hup' : (2 * num : ℚ) ≤ (2 * halfEven num den + 1) * den := by exact_mod_cast hup
    have hdown' : (2 * halfEven num den * den : ℚ) ≤ 2 * num + den := by exact_mod_cast hdown
    rw [abs_le, neg_le_sub_iff_le_add, sub_le_iff_le_add, div_le_iff₀ hden,
      ← sub_le_iff_le_add', le_div_iff₀ hden]
    constructor <;> linarith
  rcases eq_or_ne n (halfEven num den) with rfl | hne
  · exact le_rfl
  · have hstep : (1 : ℚ) ≤ |(n : ℚ) - halfEven num den| := by
      have hint : (1 : ℤ) ≤ |(n : ℤ) - halfEven num den| :=
        Int.one_le_abs (sub_ne_zero.mpr (by exact_mod_cast hne))
      exact_mod_cast hint
    have htriangle : |(n : ℚ) - halfEven num den| ≤
        |(n : ℚ) - num / den| + |(halfEven num den : ℚ) - num / den| := by
      rw [abs_sub_comm (halfEven num den : ℚ)]
      exact abs_sub_le _ _ _
    linarith

/-- The decimals of an exponent that are next to a magnitude. -/
structure Around (m : Magnitude) (e : Int) (below : Nat) : Prop where
  le : Decimal.value ⟨below, e⟩ ≤ m.value
  lt : m.value < Decimal.value ⟨below + 1, e⟩

theorem around (m : Magnitude) (e : Int) :
    m.Around e (m.units * Nat.pow 10 (-e).toNat / (one * Nat.pow 10 e.toNat)) := by
  have hten : (0 : ℚ) < 10 ^ e := by positivity
  have hgrid := value_grid m e
  have hpos := grid_den_pos e
  generalize m.units * Nat.pow 10 (-e).toNat = num at hgrid
  generalize one * Nat.pow 10 e.toNat = den at hgrid hpos
  have hden : (0 : ℚ) < den := by exact_mod_cast hpos
  constructor
  · rw [hgrid]
    refine mul_le_mul_of_nonneg_right ?_ hten.le
    rw [le_div_iff₀ hden]
    exact_mod_cast Nat.div_mul_le_self num den
  · rw [hgrid]
    refine mul_lt_mul_of_pos_right ?_ hten
    rw [div_lt_iff₀ hden]
    exact_mod_cast Nat.lt_mul_of_div_lt (Nat.lt_succ_self (num / den)) hpos

namespace Around

variable {below n : Nat}

/-- If a decimal of the exponent is read as the magnitude, a neighbour is. -/
theorem reads (h : m.Around e below) (hn : Decimal.toMagnitude? ⟨n, e⟩ = some m) :
    n ≤ below ∧ Decimal.toMagnitude? ⟨below, e⟩ = some m ∨
      below < n ∧ Decimal.toMagnitude? ⟨below + 1, e⟩ = some m := by
  rcases Nat.lt_or_ge below n with hlt | hge
  · exact .inr ⟨hlt, reads_between hn (.inl ⟨h.lt.le, Decimal.value_le hlt le_rfl⟩)⟩
  · exact .inl ⟨hge, reads_between hn (.inr ⟨Decimal.value_le hge le_rfl, h.le⟩)⟩

theorem below_nearest (h : m.Around e below) (hn : n ≤ below) :
    |Decimal.value ⟨below, e⟩ - m.value| ≤ |Decimal.value ⟨n, e⟩ - m.value| := by
  have hle := Decimal.value_le hn (le_refl e)
  have hbelow := h.le
  rw [abs_of_nonpos (by linarith), abs_of_nonpos (by linarith)]
  linarith

theorem above_nearest (h : m.Around e below) (hn : below < n) :
    |Decimal.value ⟨below + 1, e⟩ - m.value| ≤ |Decimal.value ⟨n, e⟩ - m.value| := by
  have hle := Decimal.value_le hn (le_refl e)
  have habove := h.lt
  simp only [Nat.succ_eq_add_one] at hle
  rw [abs_of_nonneg (by linarith), abs_of_nonneg (by linarith)]
  linarith

end Around

/-- What is found on a grid is the nearest of the decimals on it that are read as the magnitude. -/
theorem onGrid?_eq_some {d : Decimal} (h : m.onGrid? e = some d) :
    d.exponent = e ∧ d.toMagnitude? = some m ∧ ∀ n, Decimal.toMagnitude? ⟨n, e⟩ = some m →
      |d.value - m.value| ≤ |Decimal.value ⟨n, e⟩ - m.value| := by
  have hgrid := value_grid m e
  have haround := m.around e
  have hpos := grid_den_pos e
  have hread := h
  rw [onGrid?] at h hread
  have hd := toMagnitude?_of_neighbour? hread
  generalize m.units * Nat.pow 10 (-e).toNat = num at hgrid haround h
  generalize one * Nat.pow 10 e.toNat = den at hgrid haround hpos h
  simp only [neighbour?] at h
  split_ifs at h with hbelow habove habove
  · obtain rfl := Option.some.inj h
    refine ⟨rfl, hd, fun n _ => ?_⟩
    have hten : (0 : ℚ) ≤ 10 ^ e := by positivity
    rw [hgrid, Decimal.value, Decimal.value, ← sub_mul, ← sub_mul, abs_mul, abs_mul]
    exact mul_le_mul_of_nonneg_right (halfEven_nearest num hpos n) (abs_nonneg _)
  · obtain rfl := Option.some.inj h
    refine ⟨rfl, hd, fun n hn => ?_⟩
    rcases haround.reads hn with ⟨hle, -⟩ | ⟨-, hreads⟩
    · exact haround.below_nearest hle
    · exact absurd hreads habove
  · obtain rfl := Option.some.inj h
    refine ⟨rfl, hd, fun n hn => ?_⟩
    rcases haround.reads hn with ⟨-, hreads⟩ | ⟨hlt, -⟩
    · exact absurd hreads hbelow
    · exact haround.above_nearest hlt

/-- Where nothing is found on a grid, no decimal on it is read as the magnitude. -/
theorem onGrid?_eq_none (h : m.onGrid? e = none) (n : Nat) :
    Decimal.toMagnitude? ⟨n, e⟩ ≠ some m := by
  intro hn
  have haround := m.around e
  rw [onGrid?] at h
  generalize m.units * Nat.pow 10 (-e).toNat = num at haround h
  generalize one * Nat.pow 10 e.toNat = den at haround h
  simp only [neighbour?] at h
  split_ifs at h with hbelow hboth habove
  rcases haround.reads hn with ⟨-, hreads⟩ | ⟨-, hreads⟩
  · exact hbelow hreads
  · exact habove hreads

theorem searchDown_spec {α : Type} {find? : Int → Option α} (otherwise : α) {e : Int}
    (he : find? e ≠ none) {steps : Nat} {top : Int} (hle : e ≤ top) (hsteps : top < e + steps) :
    ∃ e', find? e' = some (searchDown find? otherwise steps top) ∧
      ∀ e'', e' < e'' → e'' ≤ top → find? e'' = none := by
  induction steps generalizing top with
  | zero => omega
  | succ steps ih =>
    rw [searchDown]
    cases hf : find? top with
    | some found => exact ⟨top, hf, fun e'' _ _ => by omega⟩
    | none =>
      have hne : e ≠ top := by
        rintro rfl
        exact he hf
      have hle' : e ≤ top - 1 := by omega
      have hsteps' : top - 1 < e + steps := by
        push_cast at hsteps
        omega
      obtain ⟨e', hfound, hnone⟩ := ih hle' hsteps'
      refine ⟨e', hfound, fun e'' hlt hle'' => ?_⟩
      rcases Int.lt_or_eq_of_le hle'' with hlt' | rfl
      · exact hnone e'' hlt (by omega)
      · exact hf

/-- A power of two beside the power of ten at the top of the search. The logarithms are compared to
the power `p`, which is a variable so that nothing computes the powers of powers. -/
theorem two_zpow_le {l : Int} (hl : -1073 ≤ l) (hl' : l ≤ 1024) :
    (2 : ℚ) ^ (l + 1) ≤ 10 ^ (l * 1233 / 4096 + 2) := by
  obtain ⟨p, hp⟩ : ∃ p, p = 4096 := ⟨_, rfl⟩
  have hup : (2 : ℚ) ^ p ≤ 10 ^ 1234 := by
    have h : 2 ^ p ≤ 10 ^ 1234 := by
      rw [hp]
      decide +kernel
    exact_mod_cast h
  have hdown : (10 : ℚ) ^ 1233 ≤ 2 ^ p := by
    have h : 10 ^ 1233 ≤ 2 ^ p := by
      rw [hp]
      decide +kernel
    exact_mod_cast h
  have hpos : p ≠ 0 := by omega
  have hexp : 1234 * (l + 1) ≤ (l * 1233 / 4096 + 2) * p := by
    rw [hp]
    omega
  have hexp' : 1233 * (l + 1) ≤ (l * 1233 / 4096 + 2) * p := by
    rw [hp]
    omega
  refine le_of_pow_le_pow_left₀ hpos (by positivity) ?_
  rw [← zpow_natCast, ← zpow_natCast, ← zpow_mul, ← zpow_mul]
  rw [mul_comm (l + 1), zpow_mul, zpow_natCast]
  rcases le_or_gt 0 (l + 1) with hnonneg | hneg
  · calc ((2 : ℚ) ^ p) ^ (l + 1)
      _ ≤ (10 ^ 1234) ^ (l + 1) := zpow_le_zpow_left₀ hnonneg (by positivity) hup
      _ = 10 ^ (1234 * (l + 1)) := by rw [zpow_mul]; rfl
      _ ≤ 10 ^ ((l * 1233 / 4096 + 2) * p) := zpow_le_zpow_right₀ (by norm_num) hexp
  · calc ((2 : ℚ) ^ p) ^ (l + 1)
      _ = (((2 : ℚ) ^ p) ^ (-(l + 1)))⁻¹ := by rw [zpow_neg, inv_inv]
      _ ≤ ((10 ^ 1233) ^ (-(l + 1)))⁻¹ :=
        inv_anti₀ (by positivity) (zpow_le_zpow_left₀ (by omega) (by positivity) hdown)
      _ = (10 ^ 1233) ^ (l + 1) := by rw [zpow_neg, inv_inv]
      _ = 10 ^ (1233 * (l + 1)) := by rw [zpow_mul]; rfl
      _ ≤ 10 ^ ((l * 1233 / 4096 + 2) * p) := zpow_le_zpow_right₀ (by norm_num) hexp'

theorem log2_units_lt (hm : m.units ≠ 0) : m.units.log2 < 53 + m.scale := by
  rw [Nat.log2_lt hm, units_eq, Nat.pow_add]
  exact Nat.mul_lt_mul_of_pos_right m.significand_lt_pow (Nat.pow_pos (by decide))

theorem digits_ne_zero_of_reads (hm : m.units ≠ 0) {d : Decimal} (hd : d.toMagnitude? = some m) :
    d.digits ≠ 0 := by
  intro hzero
  obtain ⟨n, e⟩ := d
  obtain rfl : n = 0 := hzero
  rw [toMagnitude?_zero] at hd
  rw [← Option.some.inj hd] at hm
  exact hm rfl

/-- No decimal with a larger exponent than that of the search is read as the magnitude. -/
theorem not_reads_above (hm : m.units ≠ 0) {d : Decimal} (he : m.topExponent < d.exponent) :
    d.toMagnitude? ≠ some m := by
  intro hd
  have hdigits : (1 : ℚ) ≤ d.digits := by
    exact_mod_cast Nat.pos_of_ne_zero (digits_ne_zero_of_reads hm hd)
  have hlog := log2_units_lt hm
  have hscale := m.scale_lt
  obtain ⟨k, hk⟩ : ∃ k, k = 1074 := ⟨_, rfl⟩
  have hunits : (m.units : ℚ) < 2 ^ (m.units.log2 + 1) := by exact_mod_cast Nat.lt_log2_self
  have htop : ((m.units.log2 : ℤ) - 1073) * 1233 / 4096 + 2 = m.topExponent + 1 := by
    rw [topExponent]
    ring
  have hpower := two_zpow_le (l := (m.units.log2 : ℤ) - 1073) (by omega) (by omega)
  rw [htop] at hpower
  have hlarge : (2 : ℚ) ^ (m.units.log2 + 2) ≤ d.value * one := by
    calc (2 : ℚ) ^ (m.units.log2 + 2)
      _ = 2 ^ ((m.units.log2 : ℤ) - 1073 + 1) * 2 ^ k := by
        rw [← zpow_natCast, ← zpow_natCast, ← zpow_add₀ (by norm_num)]
        congr 1
        omega
      _ ≤ 10 ^ (m.topExponent + 1) * 2 ^ k :=
        mul_le_mul_of_nonneg_right hpower (by positivity)
      _ ≤ 10 ^ d.exponent * 2 ^ k :=
        mul_le_mul_of_nonneg_right (zpow_le_zpow_right₀ (by norm_num) he) (by positivity)
      _ ≤ d.digits * 10 ^ d.exponent * 2 ^ k :=
        mul_le_mul_of_nonneg_right (le_mul_of_one_le_left (by positivity) hdigits) (by positivity)
      _ = d.value * one := by
        rw [one_eq_pow hk]
        push_cast
        rfl
  have hone : (1 : ℚ) ≤ 2 ^ (m.units.log2 + 1) := one_le_pow₀ (by norm_num)
  rw [Decimal.toMagnitude?_eq_some_iff] at hd
  rw [pow_succ] at hlarge
  have hnear := (le_abs_self _).trans hd.near
  linarith

theorem scale_lt_of_not_whole (h : m.units % one ≠ 0) : m.scale < 1074 := by
  by_contra hscale
  obtain ⟨k, hk⟩ : ∃ k, k = 1074 := ⟨_, rfl⟩
  apply h
  rw [units_eq, one_eq_pow hk]
  exact Nat.mod_eq_zero_of_dvd (Dvd.dvd.mul_left (pow_dvd_pow 2 (by omega)) _)

/-- The search meets a decimal that is read as the magnitude before its steps are used up. -/
theorem exists_onGrid? (hm : m.units ≠ 0) :
    ∃ e, m.onGrid? e ≠ none ∧ e ≤ m.topExponent ∧ m.topExponent < e + (1100 : Nat) := by
  have hreads {d : Decimal} (hd : d.toMagnitude? = some m) :
      m.onGrid? d.exponent ≠ none ∧ d.exponent ≤ m.topExponent := by
    constructor
    · intro hnone
      exact onGrid?_eq_none hnone d.digits hd
    · by_contra habove
      exact not_reads_above hm (Int.lt_of_not_ge habove) hd
  by_cases hwhole : m.units % one = 0
  · have hlog := log2_units_lt hm
    have hscale := m.scale_lt
    obtain ⟨hsome, hle⟩ := hreads (Decimal.toMagnitude?_whole hwhole)
    refine ⟨0, hsome, hle, ?_⟩
    rw [topExponent]
    omega
  · have hscale := scale_lt_of_not_whole hwhole
    have hlog := log2_units_lt hm
    obtain ⟨hsome, hle⟩ := hreads (Decimal.toMagnitude?_exactDecimal m)
    refine ⟨m.exactDecimal.exponent, hsome, hle, ?_⟩
    have hexp : m.exactDecimal.exponent = -1074 := rfl
    rw [topExponent, hexp]
    omega

/-- A decimal on the coarsest grid where any is read as the magnitude, and the nearest there. -/
structure Coarsest (m : Magnitude) (s : Decimal) : Prop where
  reads : s.toMagnitude? = some m
  exponent_le : ∀ d : Decimal, d.toMagnitude? = some m → d.exponent ≤ s.exponent
  nearest : ∀ n, Decimal.toMagnitude? ⟨n, s.exponent⟩ = some m →
    |s.value - m.value| ≤ |Decimal.value ⟨n, s.exponent⟩ - m.value|

theorem coarsest_shortest (hm : m.units ≠ 0) : m.Coarsest m.shortest := by
  obtain ⟨e, hsome, hle, hsteps⟩ := exists_onGrid? hm
  obtain ⟨e', hfound, hnone⟩ := searchDown_spec m.exactDecimal hsome hle hsteps
  have hshortest : searchDown m.onGrid? m.exactDecimal 1100 m.topExponent = m.shortest := rfl
  rw [hshortest] at hfound
  obtain ⟨he, hreads, hnearest⟩ := onGrid?_eq_some hfound
  subst he
  refine ⟨hreads, fun d hd => ?_, hnearest⟩
  by_contra hlt
  have htop : d.exponent ≤ m.topExponent := by
    by_contra habove
    exact not_reads_above hm (Int.lt_of_not_ge habove) hd
  exact onGrid?_eq_none (hnone d.exponent (Int.lt_of_not_ge hlt) htop) d.digits hd

theorem units_of_tiny : 1 / 5 < (10 : ℚ) ^ (-324 : ℤ) * one ∧
    (10 : ℚ) ^ (-324 : ℤ) * one ≤ 4 / 19 := by
  obtain ⟨k, hk⟩ : ∃ k, k = 1074 := ⟨_, rfl⟩
  obtain ⟨p, hp⟩ : ∃ p, p = 324 := ⟨_, rfl⟩
  have hnat : 10 ^ p < 5 * 2 ^ k ∧ 19 * 2 ^ k ≤ 4 * 10 ^ p := by
    rw [hk, hp]
    decide +kernel
  have hrat : (10 : ℚ) ^ p < 5 * 2 ^ k ∧ (19 : ℚ) * 2 ^ k ≤ 4 * 10 ^ p := by
    exact_mod_cast hnat
  have hexp : (-324 : ℤ) = -p := by rw [hp]; rfl
  have hvalue : (10 : ℚ) ^ (-324 : ℤ) * one = 2 ^ k / 10 ^ p := by
    rw [one_eq_pow hk, hexp, zpow_neg, zpow_natCast, inv_mul_eq_div]
    push_cast
    rfl
  rw [hvalue, lt_div_iff₀ (by positivity), div_le_iff₀ (by positivity)]
  constructor <;> linarith

/-- Where nine and ten of a power of ten are rounded to one magnitude, that is nearer to ten. Steps
that wide there are only at the least magnitudes, and one power of ten fits. -/
theorem nearer_to_ten (hm : m.units ≠ 0) (nine : Rounds (9 * (10 ^ e * one)) m)
    (ten : Rounds (10 * (10 ^ e * one)) m) : 19 * (10 ^ e * one) ≤ (2 * m.units : ℚ) := by
  have hunit : (1 : ℚ) ≤ m.units := by exact_mod_cast Nat.pos_of_ne_zero hm
  obtain ⟨hnine, hnine'⟩ := abs_le.mp nine.near
  obtain ⟨hten, hten'⟩ := abs_le.mp ten.near
  obtain ⟨hlower, hupper⟩ := units_of_tiny
  have hscale {i j : ℤ} (h : i ≤ j) : (10 : ℚ) ^ i * one ≤ 10 ^ j * one :=
    mul_le_mul_of_nonneg_right (zpow_le_zpow_right₀ (by norm_num) h) one_pos_rat.le
  have hexp : e = -324 := by
    rcases Int.lt_trichotomy e (-324) with hlt | heq | hgt
    · have hle := hscale (show e ≤ -324 - 1 by omega)
      rw [zpow_sub_one₀ (by norm_num)] at hle
      linarith
    · exact heq
    · have hle := hscale (show -324 + 1 ≤ e by omega)
      rw [zpow_add_one₀ (by norm_num)] at hle
      linarith
  subst hexp
  have htwo : 1 < m.units := by
    have hlt : (1 : ℚ) < m.units := by linarith
    exact_mod_cast hlt
  have htwo' : (2 : ℚ) ≤ m.units := by exact_mod_cast htwo
  linarith

namespace Coarsest

variable {s d : Decimal} {k : Nat}

theorem not_reads_coarser (h : m.Coarsest s) (n : Nat) :
    Decimal.toMagnitude? ⟨n, s.exponent + 1⟩ ≠ some m := by
  intro hn
  have hle := h.exponent_le _ hn
  simp only at hle
  omega

/-- Such a decimal does not end with a zero. -/
theorem digits_mod_ten (h : m.Coarsest s) : s.digits % 10 ≠ 0 := by
  intro hmod
  apply h.not_reads_coarser (s.digits / 10)
  rw [← Decimal.toMagnitude?_mul_ten, Nat.div_mul_cancel (Nat.dvd_of_mod_eq_zero hmod)]
  exact h.reads

/-- A power of ten between two decimals that are read as the magnitude is on a coarser grid, unless
it is the first. -/
theorem power_eq_one (h : m.Coarsest s) (hd : d.toMagnitude? = some m)
    (hle : d.value ≤ Decimal.value ⟨10 ^ k, s.exponent⟩) (hk : 10 ^ k ≤ s.digits) : k = 0 := by
  by_contra hne
  obtain ⟨j, rfl⟩ := Nat.exists_eq_succ_of_ne_zero hne
  apply h.not_reads_coarser (10 ^ j)
  rw [← Decimal.toMagnitude?_mul_ten, ← Nat.pow_succ]
  exact reads_among hd h.reads hle (Decimal.value_le hk le_rfl)

theorem fewest (h : m.Coarsest s) (hm : m.units ≠ 0) (hd : d.toMagnitude? = some m)
    (hk : 10 ^ k ≤ s.digits) : 10 ^ k ≤ d.digits := by
  by_contra hlt
  have hle : d.value ≤ Decimal.value ⟨10 ^ k, s.exponent⟩ :=
    Decimal.value_le (Nat.lt_of_not_ge hlt).le (h.exponent_le d hd)
  obtain rfl := h.power_eq_one hd hle hk
  exact hlt (Nat.pos_of_ne_zero (digits_ne_zero_of_reads hm hd))

theorem nearest_of_fewest (h : m.Coarsest s) (hm : m.units ≠ 0) (hd : d.toMagnitude? = some m)
    (hk : 10 ^ k ≤ s.digits) (hlt : d.digits < 10 ^ (k + 1)) :
    |s.value - m.value| ≤ |d.value - m.value| := by
  obtain ⟨n, f⟩ := d
  rcases Int.lt_or_eq_of_le (h.exponent_le _ hd) with hfiner | hsame
  · -- a decimal on a finer grid has a power of ten between itself and the shortest
    simp only at hfiner hlt
    have hten : Decimal.value ⟨10 ^ (k + 1), s.exponent - 1⟩ =
        Decimal.value ⟨10 ^ k, s.exponent⟩ := by
      rw [Decimal.value, Decimal.value, zpow_sub_one₀ (by norm_num)]
      push_cast
      ring
    have hle : Decimal.value ⟨n, f⟩ ≤ Decimal.value ⟨10 ^ k, s.exponent⟩ :=
      hten ▸ Decimal.value_le hlt.le (by omega)
    obtain rfl := h.power_eq_one hd hle hk
    have hone : Decimal.toMagnitude? ⟨1, s.exponent⟩ = some m :=
      reads_among hd h.reads hle (Decimal.value_le hk le_rfl)
    have hnine : Decimal.value ⟨n, f⟩ ≤ Decimal.value ⟨9, s.exponent - 1⟩ :=
      Decimal.value_le (by omega) (by omega)
    have hreads : Decimal.toMagnitude? ⟨9, s.exponent - 1⟩ = some m :=
      reads_among hd hone hnine (hten ▸ Decimal.value_le (by decide) le_rfl)
    have hunits := h.nearest 1 hone
    rw [Decimal.toMagnitude?_eq_some_iff] at hone hreads
    have hvalue : Decimal.value ⟨1, s.exponent⟩ = 10 * 10 ^ (s.exponent - 1) := by
      rw [← Nat.pow_zero 10, ← hten, Decimal.value]
      norm_num
    have hvalue' : Decimal.value ⟨9, s.exponent - 1⟩ = 9 * 10 ^ (s.exponent - 1) := by
      rw [Decimal.value]
      norm_num
    rw [hvalue, mul_assoc] at hone
    rw [hvalue', mul_assoc] at hreads
    have hnear := nearer_to_ten hm hreads hone
    rw [← value_mul_one, ← mul_assoc, ← mul_assoc] at hnear
    have hclose := le_of_mul_le_mul_right hnear one_pos_rat
    rw [hvalue] at hunits
    rw [hvalue'] at hnine
    calc |s.value - m.value|
      _ ≤ |10 * 10 ^ (s.exponent - 1) - m.value| := hunits
      _ ≤ m.value - Decimal.value ⟨n, f⟩ := by
        have hpos : (0 : ℚ) < 10 ^ (s.exponent - 1) := by positivity
        rw [abs_le]
        constructor <;> linarith
      _ ≤ |Decimal.value ⟨n, f⟩ - m.value| := by
        rw [abs_sub_comm]
        exact le_abs_self _
  · obtain rfl := hsame
    exact h.nearest n hd

end Coarsest

/-- A decimal that is read as a magnitude, has the fewest digits of all that are, and is the nearest
of those with as few. -/
structure Shortest (m : Magnitude) (s : Decimal) : Prop where
  reads : s.toMagnitude? = some m
  fewest : ∀ d : Decimal, d.toMagnitude? = some m → s.length ≤ d.length
  nearest : ∀ d : Decimal, d.toMagnitude? = some m → d.length = s.length →
    |s.value - m.value| ≤ |d.value - m.value|

theorem Coarsest.isShortest {s : Decimal} (h : m.Coarsest s) (hm : m.units ≠ 0) :
    m.Shortest s := by
  obtain ⟨k, hk, hpow⟩ := Decimal.exists_length (digits_ne_zero_of_reads hm h.reads)
  refine ⟨h.reads, fun d hd => ?_, fun d hd hlen => ?_⟩
  · by_contra hlt
    have hfew : d.length ≤ k := by omega
    have hkpos : 0 < k := Nat.lt_of_lt_of_le d.length_pos hfew
    rw [d.length_le_iff hkpos] at hfew
    exact absurd (h.fewest hm hd hpow) (Nat.not_le_of_lt hfew)
  · refine h.nearest_of_fewest hm hd hpow ?_
    rw [← d.length_le_iff (Nat.succ_pos k)]
    omega

/-- The search gives the shortest decimal. -/
theorem shortest_isShortest (hm : m.units ≠ 0) : m.Shortest m.shortest :=
  (coarsest_shortest hm).isShortest hm

end Magnitude
end Script
