import Script.Proofs.Shortest

/-!
# The nearest double

A decimal is read as the double nearest to it, and from half way as the one whose significand is
even; from half a step behind the largest double on as an infinite one. Whole numbers up to
`2 ^ 53` are doubles themselves.
-/
namespace Script

namespace Magnitude

attribute [local irreducible] one

/-- From half way a quotient is rounded to the even one of two whole numbers. -/
theorem halfEven_tie {num den n : Nat} (hd : 0 < den) (h : 2 * num = (halfEven num den + n) * den)
    (hn : n ≠ halfEven num den) : halfEven num den % 2 = 0 ∧ n % 2 = 1 := by
  obtain ⟨hup, hdown⟩ := halfEven_near num hd
  have hle : halfEven num den + n ≤ 2 * halfEven num den + 1 :=
    Nat.le_of_mul_le_mul_right (h ▸ hup) hd
  have hge : 2 * halfEven num den ≤ halfEven num den + n + 1 := by
    refine Nat.le_of_mul_le_mul_right ?_ hd
    rwa [Nat.add_mul, Nat.one_mul, ← h]
  -- `n` is next to the whole number rounded to, so the quotient lies half way between them
  obtain ⟨below, hsum⟩ : ∃ below, halfEven num den + n = 2 * below + 1 :=
    ⟨min n (halfEven num den), by omega⟩
  have htwice : 2 * num = 2 * (below * den) + den := by
    rw [h, hsum]
    ring
  have hquotient : num / den = below := by
    refine Nat.div_eq_of_lt_le ?_ ?_
    · omega
    · rw [Nat.add_mul]
      omega
  have hrest : 2 * (num % den) = den := by
    have hdiv := Nat.div_add_mod num den
    rw [hquotient, Nat.mul_comm] at hdiv
    omega
  have heven : halfEven num den = if below % 2 = 0 then below else below + 1 := by
    simp only [halfEven, hquotient, hrest, Nat.lt_irrefl, true_and, false_or]
  split_ifs at heven <;> omega

/-- Half a step before an even number a quotient is already rounded to it. -/
theorem halfEven_lt_iff (num : Nat) {den n : Nat} (hd : 0 < den) (hn : (n + 1) % 2 = 0) :
    halfEven num den < n + 1 ↔ 2 * num < (2 * n + 1) * den := by
  obtain ⟨hup, hdown⟩ := halfEven_near num hd
  constructor
  · intro hlt
    have hle : 2 * num ≤ (2 * n + 1) * den := hup.trans (Nat.mul_le_mul_right den (by omega))
    refine Nat.lt_of_le_of_ne hle fun heq => ?_
    have hge : 2 * n + 1 ≤ 2 * halfEven num den + 1 := Nat.le_of_mul_le_mul_right (heq ▸ hup) hd
    have hhalf : 2 * num = (halfEven num den + (n + 1)) * den := by
      rw [heq]
      congr 1
      omega
    obtain ⟨heven, -⟩ := halfEven_tie hd hhalf (by omega)
    omega
  · intro hlt
    have hlt' : 2 * halfEven num den * den < (2 * n + 1 + 1) * den := by
      rw [Nat.add_mul (2 * n + 1), Nat.one_mul]
      omega
    have := Nat.lt_of_mul_lt_mul_right hlt'
    omega

section Grid

variable {num den : Nat} {m : Magnitude} (hd : 0 < den)

include hd

/-- What a number is rounded to has the significand that it has on its grid, unless this is too
large. -/
theorem significand_of_round (h : round num den = some m) :
    m.significand = significandFor num den ∧ significandFor num den < 2 ^ 53 ∨
      m.significand = 2 ^ 52 ∧ significandFor num den = 2 ^ 53 ∧ scaleFor num den < 2045 := by
  have hle := significandFor_le num hd
  rw [round_eq, Nat.one_shiftLeft, Nat.one_shiftLeft, ofParts?, ofParts?] at h
  split_ifs at h with hlt hfits hfits
  · obtain rfl := Option.some.inj h
    exact .inl ⟨rfl, hlt⟩
  · obtain rfl := Option.some.inj h
    exact .inr ⟨rfl, by omega, by omega⟩

/-- A number of units, on its grid. -/
theorem abs_sub_grid (j : Nat) : |(num : ℚ) / den - j * 2 ^ scaleFor num den| =
    |(j : ℚ) - num / (den * 2 ^ scaleFor num den : ℕ)| * 2 ^ scaleFor num den := by
  have hden : (0 : ℚ) < den := by exact_mod_cast hd
  have hpow : (0 : ℚ) < 2 ^ scaleFor num den := by positivity
  rw [abs_sub_comm, ← abs_of_pos hpow, ← abs_mul, abs_of_pos hpow]
  congr 1
  push_cast
  field_simp

theorem grid_nearest (j : Nat) :
    |(num : ℚ) / den - (significandFor num den : ℕ) * 2 ^ scaleFor num den| ≤
      |(num : ℚ) / den - j * 2 ^ scaleFor num den| := by
  rw [abs_sub_grid hd, abs_sub_grid hd, significandFor, Nat.shiftLeft_eq]
  refine mul_le_mul_of_nonneg_right ?_ (by positivity)
  exact halfEven_nearest num (Nat.mul_pos hd (Nat.pow_pos (by decide))) j

theorem grid_tie {j : Nat} (hj : j ≠ significandFor num den)
    (h : |(num : ℚ) / den - j * 2 ^ scaleFor num den| =
      |(num : ℚ) / den - (significandFor num den : ℕ) * 2 ^ scaleFor num den|) :
    significandFor num den % 2 = 0 ∧ j % 2 = 1 := by
  have hstep : 0 < den * 2 ^ scaleFor num den := Nat.mul_pos hd (Nat.pow_pos (by decide))
  have hstep' : (0 : ℚ) < (den * 2 ^ scaleFor num den : ℕ) := by exact_mod_cast hstep
  have hpow : (2 : ℚ) ^ scaleFor num den ≠ 0 := by positivity
  rw [abs_sub_grid hd, abs_sub_grid hd, mul_left_inj' hpow, abs_eq_abs] at h
  rw [significandFor, Nat.shiftLeft_eq] at hj h ⊢
  refine halfEven_tie hstep ?_ hj
  rcases h with h | h
  · exact absurd (by exact_mod_cast sub_left_inj.mp h) hj
  · have hsum : 2 * (num / (den * 2 ^ scaleFor num den : ℕ) : ℚ) =
        halfEven num (den * 2 ^ scaleFor num den) + j := by linarith
    rw [mul_div_assoc', div_eq_iff hstep'.ne'] at hsum
    exact_mod_cast hsum

/-- A magnitude lies on the grid, or it is further away than what is on the grid. -/
theorem on_grid_or_further (n : Magnitude) :
    (∃ j, n.units = j * 2 ^ scaleFor num den ∧ (j % 2 = 1 → n.significand % 2 = 1)) ∨
      |(num : ℚ) / den - (significandFor num den : ℕ) * 2 ^ scaleFor num den| <
        |(num : ℚ) / den - n.units| := by
  rcases Nat.lt_or_ge n.scale (scaleFor num den) with hlt | hle
  · -- a magnitude of a finer grid is less than the least number of this grid's binade
    have hleast : 2 ^ 52 * (den * 2 ^ scaleFor num den) ≤ num := le_of_scaleFor num hd (by omega)
    have hunits : n.units < 2 ^ 52 * 2 ^ scaleFor num den := by
      calc n.units < 2 ^ 53 * 2 ^ n.scale := by
            rw [units_eq]
            exact Nat.mul_lt_mul_of_pos_right n.significand_lt_pow (Nat.pow_pos (by decide))
        _ = 2 ^ 52 * 2 ^ (n.scale + 1) := by ring
        _ ≤ 2 ^ 52 * 2 ^ scaleFor num den :=
          Nat.mul_le_mul_left _ (Nat.pow_le_pow_right (by decide) hlt)
    have hden : (0 : ℚ) < den := by exact_mod_cast hd
    have hleast' : (2 ^ 52 * 2 ^ scaleFor num den : ℚ) ≤ num / den := by
      rw [le_div_iff₀ hden]
      calc (2 ^ 52 * 2 ^ scaleFor num den * den : ℚ)
        _ = ((2 ^ 52 * (den * 2 ^ scaleFor num den) : ℕ) : ℚ) := by push_cast; ring
        _ ≤ num := by exact_mod_cast hleast
    have hunits' : (n.units : ℚ) < 2 ^ 52 * 2 ^ scaleFor num den := by exact_mod_cast hunits
    have hnear := @grid_nearest num den hd (2 ^ 52)
    rw [Nat.cast_pow, Nat.cast_ofNat, abs_of_nonneg (sub_nonneg.mpr hleast')] at hnear
    refine .inr (lt_of_le_of_lt hnear ?_)
    rw [abs_of_nonneg (sub_nonneg.mpr (hunits'.le.trans hleast'))]
    linarith
  · refine .inl ⟨n.significand * 2 ^ (n.scale - scaleFor num den), ?_, fun hodd => ?_⟩
    · rw [units_eq, Nat.mul_assoc, ← Nat.pow_add, Nat.sub_add_cancel hle]
    · exact (Nat.odd_mul.mp (Nat.odd_iff.mpr hodd)).1 |> Nat.odd_iff.mp

theorem cast_units_of_round (h : round num den = some m) :
    (m.units : ℚ) = (significandFor num den : ℕ) * 2 ^ scaleFor num den := by
  rw [(units_of_round num hd h).1, unitsFor]
  push_cast
  rfl

theorem round_nearest (h : round num den = some m) (n : Magnitude) :
    |(num : ℚ) / den - m.units| ≤ |(num : ℚ) / den - n.units| := by
  rw [cast_units_of_round hd h]
  rcases on_grid_or_further hd n with ⟨j, hj, -⟩ | hfurther
  · rw [hj]
    push_cast
    exact grid_nearest hd j
  · exact hfurther.le

theorem round_tie (h : round num den = some m) {n : Magnitude} (hn : n ≠ m)
    (htie : |(num : ℚ) / den - n.units| = |(num : ℚ) / den - m.units|) :
    m.significand % 2 = 0 ∧ n.significand % 2 = 1 := by
  rw [cast_units_of_round hd h] at htie
  rcases on_grid_or_further hd n with ⟨j, hj, hodd⟩ | hfurther
  · have hne : j ≠ significandFor num den := by
      rintro rfl
      exact hn (units_injective (hj.trans (units_of_round num hd h).1.symm))
    rw [hj] at htie
    push_cast at htie
    obtain ⟨heven, hodd'⟩ := grid_tie hd hne htie
    refine ⟨?_, hodd hodd'⟩
    rcases significand_of_round hd h with ⟨hsig, -⟩ | ⟨hsig, -⟩
    · rw [hsig, heven]
    · rw [hsig]
      decide
  · exact absurd htie hfurther.ne'

theorem two_mul_lt_of_scaleFor_lt {top : Nat} (h : scaleFor num den < top) :
    2 * num < (2 * (2 ^ 53 - 1) + 1) * (den * 2 ^ top) := by
  calc 2 * num < 2 * (2 ^ 53 * (den * 2 ^ scaleFor num den)) :=
        Nat.mul_lt_mul_of_pos_left (lt_of_scaleFor num hd) (by decide)
    _ = 2 ^ 53 * (den * 2 ^ (scaleFor num den + 1)) := by ring
    _ ≤ (2 * (2 ^ 53 - 1) + 1) * (den * 2 ^ top) :=
      Nat.mul_le_mul (by decide) (Nat.mul_le_mul_left _ (Nat.pow_le_pow_right (by decide) h))

theorem le_two_mul_of_lt_scaleFor {top : Nat} (h : top < scaleFor num den) :
    (2 * (2 ^ 53 - 1) + 1) * (den * 2 ^ top) ≤ 2 * num := by
  calc (2 * (2 ^ 53 - 1) + 1) * (den * 2 ^ top) ≤ 2 ^ 54 * (den * 2 ^ top) :=
        Nat.mul_le_mul_right _ (by decide)
    _ = 2 * (2 ^ 52 * (den * 2 ^ (top + 1))) := by ring
    _ ≤ 2 * (2 ^ 52 * (den * 2 ^ scaleFor num den)) := by
      refine Nat.mul_le_mul_left _ (Nat.mul_le_mul_left _ (Nat.mul_le_mul_left _ ?_))
      exact Nat.pow_le_pow_right (by decide) h
    _ ≤ 2 * num :=
      Nat.mul_le_mul_left 2 (le_of_scaleFor num hd (Nat.ne_of_gt (Nat.zero_lt_of_lt h)))

/-- On the last grid the significand decides. -/
theorem isSome_round_last_iff (h : scaleFor num den = 2045) :
    (round num den).isSome ↔ significandFor num den < 2 ^ 53 := by
  constructor
  · intro hsome
    obtain ⟨m, hm⟩ := Option.isSome_iff_exists.mp hsome
    rcases significand_of_round hd hm with ⟨-, hlt⟩ | ⟨-, -, hsmall⟩
    · exact hlt
    · omega
  · intro hlt
    have hfull := le_significandFor num hd (by omega)
    replace hlt : significandFor num den < 1 <<< 53 := hlt
    rw [round_eq, if_pos hlt, ofParts?, dif_pos ⟨hlt, by omega, .inr hfull⟩]
    rfl

/-- From half a step behind the largest magnitude on numbers are too large. The exponent is a
variable, so that nothing computes the power. -/
theorem isSome_round_iff {top : Nat} (htop : top = 2045) :
    (round num den).isSome ↔ 2 * num < (2 * (2 ^ 53 - 1) + 1) * (den * 2 ^ top) := by
  rcases Nat.lt_trichotomy (scaleFor num den) top with hlt | heq | hgt
  · obtain ⟨m, hm⟩ := exists_round num hd (by omega)
    exact iff_of_true (by rw [hm]; rfl) (two_mul_lt_of_scaleFor_lt hd hlt)
  · have hstep : 0 < den * 2 ^ top := Nat.mul_pos hd (Nat.pow_pos (by decide))
    rw [isSome_round_last_iff hd (heq.trans htop), significandFor, Nat.shiftLeft_eq, heq]
    exact halfEven_lt_iff num hstep (by decide)
  · refine iff_of_false (fun hsome => ?_) (Nat.not_lt.mpr (le_two_mul_of_lt_scaleFor hd hgt))
    obtain ⟨m, hm⟩ := Option.isSome_iff_exists.mp hsome
    have hscale := (units_of_round num hd hm).2
    omega

end Grid

/-- The magnitude nearest to a number, from half way the even one. -/
structure Nearest (x : ℚ) (m : Magnitude) : Prop where
  nearest : ∀ n : Magnitude, |x - m.value| ≤ |x - n.value|
  even : ∀ n ≠ m, |x - n.value| = |x - m.value| → m.significand % 2 = 0

/-- From here on a number is too large for the format: the largest magnitude is
`2 ^ 1024 - 2 ^ 971`, and half a step behind it numbers are no longer rounded to it. -/
def limit : ℚ := 2 ^ 1024 - 2 ^ 970

theorem limit_mul_one {top : Nat} (htop : top = 2045) :
    limit * one = (2 * (2 ^ 53 - 1) + 1) * 2 ^ top / 2 := by
  obtain ⟨k, hk⟩ : ∃ k, k = 1074 := ⟨_, rfl⟩
  obtain ⟨e, he⟩ : ∃ e, e = 970 := ⟨_, rfl⟩
  rw [limit, one_eq_pow hk, ← he, show 1024 = e + 54 by omega, show top = e + k + 1 by omega]
  push_cast
  ring

theorem isSome_round_iff_lt (num : Nat) {den : Nat} (hd : 0 < den) :
    (round num den).isSome ↔ (num : ℚ) / den < limit * one := by
  obtain ⟨top, htop⟩ : ∃ top, top = 2045 := ⟨_, rfl⟩
  have hden : (0 : ℚ) < den := by exact_mod_cast hd
  have hcast : (((2 * (2 ^ 53 - 1) + 1) * (den * 2 ^ top) : ℕ) : ℚ) =
      (2 * (2 ^ 53 - 1) + 1) * 2 ^ top * den := by
    norm_num
    ring
  rw [isSome_round_iff hd htop, limit_mul_one htop, lt_div_iff₀ two_pos, div_mul_eq_mul_div,
    div_lt_iff₀ hden, ← hcast, mul_comm (num : ℚ)]
  exact_mod_cast Iff.rfl

theorem abs_sub_value (x : ℚ) (m : Magnitude) : |x - m.value| = |x * one - m.units| / one := by
  have hone := one_pos_rat
  rw [← value_mul_one, ← sub_mul, abs_mul, abs_of_pos hone, mul_div_cancel_right₀ _ hone.ne']

/-- The nearest magnitude is the one that rounding gives. -/
theorem round_eq_some_iff {x : ℚ} {num den : Nat} (hd : 0 < den) (hx : x * one = num / den)
    (m : Magnitude) : round num den = some m ↔ x < limit ∧ m.Nearest x := by
  have hone := one_pos_rat
  have hlimit : (round num den).isSome ↔ x < limit := by
    rw [isSome_round_iff_lt num hd, ← hx, mul_lt_mul_iff_left₀ hone]
  have hnearest {m : Magnitude} (h : round num den = some m) (n : Magnitude) :
      |x - m.value| ≤ |x - n.value| := by
    rw [abs_sub_value, abs_sub_value, hx, div_le_div_iff_of_pos_right hone]
    exact round_nearest hd h n
  have htie {m n : Magnitude} (h : round num den = some m) (hn : n ≠ m)
      (heq : |x - n.value| = |x - m.value|) : m.significand % 2 = 0 ∧ n.significand % 2 = 1 := by
    rw [abs_sub_value, abs_sub_value, hx, div_left_inj' hone.ne'] at heq
    exact round_tie hd h hn heq
  constructor
  · intro h
    exact ⟨hlimit.mp (by rw [h]; rfl), hnearest h, fun n hn heq => (htie h hn heq).1⟩
  · rintro ⟨hlt, hm⟩
    obtain ⟨r, hr⟩ := Option.isSome_iff_exists.mp (hlimit.mpr hlt)
    rw [hr, Option.some.injEq]
    -- of two nearest magnitudes only one is even
    by_contra hne
    have heq : |x - m.value| = |x - r.value| := le_antisymm (hm.nearest r) (hnearest hr m)
    have hodd := (htie hr (Ne.symm hne) heq).2
    have heven := hm.even r hne heq.symm
    omega

end Magnitude

/-- The double nearest to a number with a sign. -/
inductive Double.Nearest (negative : Bool) (x : ℚ) : Double → Prop
  | finite {m : Magnitude} (hx : x < Magnitude.limit) (hm : m.Nearest x) :
      Nearest negative x (.finite negative m)
  | infinite (hx : Magnitude.limit ≤ x) : Nearest negative x (.infinite negative)

namespace Decimal

theorem toMagnitude?_eq_some_iff_nearest (d : Decimal) (m : Magnitude) :
    d.toMagnitude? = some m ↔ d.value < Magnitude.limit ∧ m.Nearest d.value :=
  Magnitude.round_eq_some_iff (pow_ten_pos _) d.value_mul_one m

theorem isSome_toMagnitude?_iff (d : Decimal) :
    d.toMagnitude?.isSome ↔ d.value < Magnitude.limit := by
  rw [toMagnitude?, Magnitude.isSome_round_iff_lt _ (pow_ten_pos _), Nat.pow_eq, Nat.pow_eq,
    ← value_mul_one, mul_lt_mul_iff_left₀ Magnitude.one_pos_rat]

theorem toDouble_of_eq_none {d : Decimal} (negative : Bool) (h : d.toMagnitude? = none) :
    d.toDouble negative = .infinite negative := by
  unfold toDouble
  split_ifs with hsmall hlarge
  · exfalso
    rcases hsmall with hdigits | htiny
    · obtain ⟨n, e⟩ := d
      obtain rfl : n = 0 := hdigits
      cases h.symm.trans (Magnitude.toMagnitude?_zero e)
    · cases h.symm.trans (toMagnitude?_of_tiny htiny)
  · rfl
  · rw [h]

/-- A decimal is read as the double nearest to it. -/
theorem nearest_iff (negative : Bool) (d : Decimal) (x : Double) :
    Double.Nearest negative d.value x ↔ d.toDouble negative = x := by
  constructor
  · rintro (⟨hx, hm⟩ | hx)
    · exact toDouble_of_toMagnitude? negative ((d.toMagnitude?_eq_some_iff_nearest _).mpr ⟨hx, hm⟩)
    · refine toDouble_of_eq_none negative (Option.not_isSome_iff_eq_none.mp fun hsome => ?_)
      exact absurd ((isSome_toMagnitude?_iff d).mp hsome) hx.not_gt
  · rintro rfl
    cases h : d.toMagnitude? with
    | some m =>
      rw [toDouble_of_toMagnitude? negative h]
      obtain ⟨hx, hm⟩ := (d.toMagnitude?_eq_some_iff_nearest m).mp h
      exact .finite hx hm
    | none =>
      rw [toDouble_of_eq_none negative h]
      refine .infinite (not_lt.mp fun hlt => ?_)
      have hsome := (isSome_toMagnitude?_iff d).mpr hlt
      rw [h] at hsome
      cases hsome

end Decimal

theorem Magnitude.exists_round_whole {n : Nat} (hn : n ≤ 2 ^ 53) :
    ∃ m, round (n * one) 1 = some m ∧ m.units = n * one := by
  obtain ⟨k, hk⟩ : ∃ k, k = 1074 := ⟨_, rfl⟩
  rcases Nat.eq_zero_or_pos n with rfl | hpos
  · refine ⟨zero, ?_, by simp [units, zero]⟩
    rw [Nat.zero_mul]
    exact Decimal.round_eq_zero Nat.one_pos
  have hlog : (n * one).log2 = n.log2 + k := by
    have hpow : 0 < 2 ^ k := Nat.pow_pos (by decide)
    rw [one_eq_pow hk, Nat.log2_eq_iff (Nat.mul_pos hpos hpow).ne', Nat.add_right_comm, Nat.pow_add,
      Nat.pow_add]
    exact ⟨Nat.mul_le_mul_right _ (Nat.log2_self_le hpos.ne'),
      Nat.mul_lt_mul_of_pos_right Nat.lt_log2_self hpow⟩
  have hscale : scaleFor (n * one) 1 = n.log2 + k - 52 := by rw [scaleFor, Nat.div_one, hlog]
  -- only the last of these numbers has more than 53 digits
  have hdvd : 2 ^ scaleFor (n * one) 1 ∣ n * one := by
    rw [hscale, one_eq_pow hk]
    rcases hn.lt_or_eq with hlt | rfl
    · have hsmall : n.log2 < 53 := (Nat.log2_lt hpos.ne').mpr hlt
      exact Dvd.dvd.mul_left (pow_dvd_pow 2 (by omega)) n
    · rw [Nat.log2_two_pow, ← Nat.pow_add]
      exact pow_dvd_pow 2 (by omega)
  have hbits : n.log2 ≤ 53 := by
    rw [← Nat.lt_succ_iff, Nat.log2_lt hpos.ne']
    exact Nat.lt_of_le_of_lt hn (by decide)
  obtain ⟨m, hm⟩ := exists_round (n * one) Nat.one_pos (by omega)
  exact ⟨m, hm, by rw [(units_of_round _ Nat.one_pos hm).1, unitsFor_of_dvd hdvd]⟩

theorem Double.rounded_of_round {num den : Nat} {m : Magnitude} (negative : Bool)
    (h : Magnitude.round num den = some m) : rounded negative num den = .finite negative m := by
  unfold rounded
  split
  · rename_i h'
    rw [Option.some.inj (h'.symm.trans h)]
  · rename_i h'
    cases h'.symm.trans h

/-- A whole number up to `2 ^ 53` is a double. -/
theorem Double.exists_ofInt {i : Int} (hi : i.natAbs ≤ 2 ^ 53) :
    ∃ m : Magnitude, ofInt i = .finite (i < 0) m ∧ m.units = i.natAbs * Magnitude.one := by
  obtain ⟨m, hm, hunits⟩ := Magnitude.exists_round_whole hi
  exact ⟨m, rounded_of_round _ hm, hunits⟩

end Script
