import Script.Proofs.NumberTexts
import Script.Proofs.Shortest

/-!
# Shapes of number texts

The text of a finite number has a sign, whole digits, a fraction and an exponent, none of them with
a zero too many. Which of them are there depends on how large the number is and on whether it is
whole; and wherever the digits are not those of a whole number, they are the shortest decimal that
is read as the number.
-/
namespace Script

namespace Numeral

open Text (digits ofDigits)

attribute [local irreducible] Magnitude.one

/-- Digits without a leading zero. -/
structure IsCount (cs : List Char) : Prop where
  digit : ∀ c ∈ cs, c.isDigit = true
  head : ∃ c ds, cs = c :: ds ∧ c ≠ '0'

/-- Digits without a closing zero. -/
structure IsFraction (cs : List Char) : Prop where
  digit : ∀ c ∈ cs, c.isDigit = true
  last : cs.getLast? ≠ some '0'

/-- What the text of a number is made of. An exponent has a sign and digits. -/
structure Parts where
  negative : Bool
  whole : List Char
  fraction : List Char
  exponent? : Option (Bool × List Char)

namespace Parts

def fractionText (p : Parts) : List Char :=
  if p.fraction = [] then [] else '.' :: p.fraction

def exponentText (p : Parts) : List Char :=
  match p.exponent? with
  | some (negative, ds) => 'e' :: (if negative then '-' else '+') :: ds
  | none => []

def text (p : Parts) : List Char :=
  signed p.negative (p.whole ++ p.fractionText ++ p.exponentText)

def power (p : Parts) : Int :=
  match p.exponent? with
  | some (negative, ds) => if negative then -(ofDigits ds : Int) else ofDigits ds
  | none => 0

def decimal (p : Parts) : Decimal := ⟨ofDigits (p.whole ++ p.fraction), p.power - p.fraction.length⟩

/-- No part has a zero too many, and before an exponent there is one whole digit. -/
structure Regular (p : Parts) : Prop where
  whole : p.whole = ['0'] ∨ IsCount p.whole
  fraction : IsFraction p.fraction
  exponent : ∀ negative ds, p.exponent? = some (negative, ds) → IsCount ds
  single : p.exponent? ≠ none → ∃ c, p.whole = [c] ∧ c ≠ '0'

end Parts

theorem digitChar_ne_zero {n : Nat} (h : n < 10) (hn : n ≠ 0) : n.digitChar ≠ '0' := by
  have hall : ∀ n < 10, n ≠ 0 → n.digitChar ≠ '0' := by decide
  exact hall n h hn

/-- The digits of a number that is not zero do not start with one. -/
theorem isCount_digits {n : Nat} (hn : n ≠ 0) : IsCount (digits n) := by
  refine ⟨fun c hc => isDigit_of_mem_digits hc, ?_⟩
  induction n using Nat.strongRecOn with
  | ind n ih =>
    rw [digits, Nat.toDigits_eq_if (by decide)]
    split_ifs with hlt
    · exact ⟨_, [], rfl, digitChar_ne_zero hlt hn⟩
    · obtain ⟨c, ds, hcs, hc⟩ := ih (n / 10) (by omega) (by omega)
      rw [digits] at hcs
      exact ⟨c, ds ++ [(n % 10).digitChar], by rw [hcs]; rfl, hc⟩

/-- The digits of a number that is no multiple of ten do not end with a zero. -/
theorem isFraction_digits {n : Nat} (hn : n % 10 ≠ 0) : IsFraction (digits n) := by
  refine ⟨fun c hc => isDigit_of_mem_digits hc, ?_⟩
  have hne := digitChar_ne_zero (Nat.mod_lt n (by decide)) hn
  rw [digits, Nat.toDigits_eq_if (by decide)]
  split_ifs with hlt
  · rw [Nat.mod_eq_of_lt hlt] at hne
    simpa using hne
  · simpa using hne

theorem IsFraction.append {cs ds : List Char} (h : IsFraction ds) (hne : ds ≠ [])
    (hc : ∀ c ∈ cs, c.isDigit = true) : IsFraction (cs ++ ds) := by
  refine ⟨List.forall_mem_append.mpr ⟨hc, h.digit⟩, ?_⟩
  rw [List.getLast?_append_of_ne_nil _ hne]
  exact h.last

theorem IsFraction.drop {cs : List Char} (h : IsFraction cs) (k : Nat) :
    IsFraction (cs.drop k) := by
  refine ⟨fun c hc => h.digit c (List.mem_of_mem_drop hc), ?_⟩
  rw [List.getLast?_drop]
  split_ifs
  · simp
  · exact h.last

theorem IsCount.take {cs : List Char} (h : IsCount cs) {k : Nat} (hk : 0 < k) :
    IsCount (cs.take k) := by
  refine ⟨fun c hc => h.digit c (List.mem_of_mem_take hc), ?_⟩
  obtain ⟨c, ds, rfl, hc⟩ := h.head
  obtain ⟨j, rfl⟩ := Nat.exists_eq_succ_of_ne_zero hk.ne'
  exact ⟨c, ds.take j, rfl, hc⟩

/-- Where there is no closing zero, all digits are shown. -/
theorem layoutParts_of_mod_ten {d : Decimal} (h : d.digits % 10 ≠ 0) :
    layoutParts d = (digits d.digits, d.length + d.exponent) := by
  have hlast := (isFraction_digits h).last
  obtain ⟨k, hk⟩ := exists_digits_eq d
  obtain rfl : k = 0 := by
    by_contra hne
    obtain ⟨j, rfl⟩ := Nat.exists_eq_succ_of_ne_zero hne
    rw [hk, List.replicate_succ', ← List.append_assoc, List.getLast?_concat] at hlast
    exact hlast rfl
  have hshown : (layoutParts d).1 = digits d.digits := by
    rw [hk, List.replicate_zero, List.append_nil]
  exact Prod.ext hshown rfl

theorem Parts.regular_plain {whole fraction : List Char} (hwhole : whole = ['0'] ∨ IsCount whole)
    (hfraction : IsFraction fraction) (negative : Bool) :
    Parts.Regular ⟨negative, whole, fraction, none⟩ := by
  refine ⟨hwhole, hfraction, ?_, fun hnone => absurd rfl hnone⟩
  rintro _ _ ⟨⟩

section Layouts

variable {d : Decimal} (h : d.digits % 10 ≠ 0) (negative : Bool)

include h

theorem digits_ne_zero_of_mod : d.digits ≠ 0 := by
  intro hzero
  rw [hzero] at h
  exact h rfl

/-- Without an exponent, a decimal that is not whole is shown with a fraction. -/
theorem positional_parts (he : d.exponent < 0) :
    ∃ p : Parts, p.negative = negative ∧ p.exponent? = none ∧ p.fraction ≠ [] ∧ p.Regular ∧
      p.text = signed negative (positional (digits d.digits) (d.length + d.exponent)) ∧
      p.decimal = d := by
  have hcount := isCount_digits (digits_ne_zero_of_mod h)
  have hfraction := isFraction_digits h
  have hlen : (digits d.digits).length = d.length := rfl
  have hnil : digits d.digits ≠ [] := Nat.toDigits_ne_nil
  unfold positional
  split_ifs with hleft hamong
  · -- the point stands before all digits
    obtain ⟨k, hk⟩ : ∃ k, (-(d.length + d.exponent)).toNat = k := ⟨_, rfl⟩
    have hzeros : ∀ c ∈ List.replicate k '0', c.isDigit = true := isDigit_of_mem_zeros
    have hsome : List.replicate k '0' ++ digits d.digits ≠ [] := by simp [hnil]
    refine ⟨⟨negative, ['0'], List.replicate k '0' ++ digits d.digits, none⟩, rfl, rfl, hsome,
      Parts.regular_plain (.inl rfl) (hfraction.append hnil hzeros) negative, ?_, ?_⟩
    · rw [hk]
      simp [Parts.text, Parts.fractionText, Parts.exponentText, hnil]
    · have hvalue : ofDigits (['0'] ++ (List.replicate k '0' ++ digits d.digits)) = d.digits := by
        have hskip := ofDigits_zeros_append hfraction.digit (k + 1)
        rwa [ofDigits_digits, List.replicate_succ] at hskip
      have hexp : 0 - ((List.replicate k '0' ++ digits d.digits).length : Int) = d.exponent := by
        rw [List.length_append, List.length_replicate, hlen]
        omega
      simp only [Parts.decimal, Parts.power, hvalue, hexp]
  · -- the point stands among the digits
    obtain ⟨k, hk⟩ : ∃ k, (d.length + d.exponent).toNat = k := ⟨_, rfl⟩
    rw [hlen] at hamong
    have hsome : (digits d.digits).drop k ≠ [] := by
      rw [Ne, List.drop_eq_nil_iff, hlen]
      omega
    refine ⟨⟨negative, (digits d.digits).take k, (digits d.digits).drop k, none⟩, rfl, rfl, hsome,
      Parts.regular_plain (.inr (hcount.take (by omega))) (hfraction.drop k) negative, ?_, ?_⟩
    · simp [Parts.text, Parts.fractionText, Parts.exponentText, hsome, hk]
    · have hexp : 0 - (((digits d.digits).drop k).length : Int) = d.exponent := by
        rw [List.length_drop, hlen]
        omega
      simp only [Parts.decimal, Parts.power, List.take_append_drop, ofDigits_digits, hexp]
  · rw [hlen] at hamong
    omega

/-- With an exponent, a decimal is shown with one digit before the point. -/
theorem exponential_parts (he : d.length + d.exponent ≠ 1) :
    ∃ p : Parts, p.negative = negative ∧ p.exponent? ≠ none ∧ p.Regular ∧
      p.text = signed negative (exponential (digits d.digits) (d.length + d.exponent)) ∧
      p.decimal = d := by
  have hfraction := isFraction_digits h
  have hlen : (digits d.digits).length = d.length := rfl
  obtain ⟨c, ds, hds, hc⟩ := (isCount_digits (digits_ne_zero_of_mod h)).head
  obtain ⟨e, hexp⟩ : ∃ e, d.length + d.exponent - 1 = e := ⟨_, rfl⟩
  have hdrop : IsFraction ds := by
    have hrest := hfraction.drop 1
    rwa [hds] at hrest
  have hpower :
      (if e ≤ 0 then -(ofDigits (digits e.natAbs) : Int) else ofDigits (digits e.natAbs)) = e := by
    rw [ofDigits_digits]
    split_ifs <;> omega
  refine ⟨⟨negative, [c], ds, some (decide (e ≤ 0), digits e.natAbs)⟩, rfl, by simp,
    ⟨?_, hdrop, ?_, ?_⟩, ?_, ?_⟩
  · exact .inr ⟨fun x hx => hfraction.digit x (by rw [hds]; simp_all), c, [], rfl, hc⟩
  · rintro _ _ ⟨⟩
    exact isCount_digits (by omega)
  · intro _
    exact ⟨c, rfl, hc⟩
  · have hsign : (if e > 0 then '+' else '-') = if decide (e ≤ 0) then '-' else '+' := by
      by_cases hpos : e > 0
      · simp [hpos]
      · simp [hpos, Int.not_lt.mp hpos]
    rw [exponential, hexp, hds, hsign]
    cases ds <;> simp [Parts.text, Parts.fractionText, Parts.exponentText]
  · have hlength : (1 : Int) + ds.length = d.length := by
      rw [← hlen, hds, List.length_cons]
      omega
    have hvalue : ofDigits ([c] ++ ds) = d.digits := by
      rw [List.singleton_append, ← hds, ofDigits_digits]
    have hexponent : e - ds.length = d.exponent := by omega
    simp only [Parts.decimal, Parts.power, decide_eq_true_eq, hpower, hvalue, hexponent]

end Layouts

section Point

variable {d : Decimal} {m : Magnitude} (h : d.toMagnitude? = some m)

include h

/-- From `10 ^ 21` on, an exponent is positive. -/
theorem point_of_large (hm : leastExponential ≤ m.units) : 1 < d.length + d.exponent := by
  by_contra hle
  have hten : (Decimal.toMagnitude? ⟨1, 1⟩).any (fun t => t.units < leastExponential) = true := by
    decide +kernel
  obtain ⟨hsome, hlt⟩ := (Option.any_eq_true_iff_get _ _).mp hten
  have ht := (Option.some_get hsome).symm
  have hvalue : d.value ≤ Decimal.value ⟨1, 1⟩ :=
    d.value_le_power.trans (Decimal.value_le le_rfl (by omega))
  have hunits := Magnitude.units_le_of_value_le h ht hvalue
  exact absurd (of_decide_eq_true hlt) (Nat.not_lt_of_le (hm.trans hunits))

/-- Below `10 ^ -6`, an exponent is negative. -/
theorem point_of_small (hd : d.digits ≠ 0) (hm : m.units < leastPositional) :
    d.length + d.exponent < 1 := by
  by_contra hge
  have hone : (Decimal.toMagnitude? ⟨1, 0⟩).any (fun t => leastPositional ≤ t.units) = true := by
    decide +kernel
  obtain ⟨hsome, hle⟩ := (Option.any_eq_true_iff_get _ _).mp hone
  have ht := (Option.some_get hsome).symm
  have hvalue : Decimal.value ⟨1, 0⟩ ≤ d.value :=
    (Decimal.value_le le_rfl (by omega)).trans (Decimal.power_le_value hd)
  have hunits := Magnitude.units_le_of_value_le ht h hvalue
  exact absurd hm (Nat.not_lt_of_le ((of_decide_eq_true hle).trans hunits))

end Point

attribute [local irreducible] leastExponential leastPositional

theorem leastPositional_le_one : leastPositional ≤ Magnitude.one := by
  decide +kernel

/-- How a whole number below `10 ^ 21` is shown. -/
theorem plain_parts {m : Magnitude} (h : m.units % Magnitude.one = 0 ∧ m.units < leastExponential)
    (negative : Bool) :
    ∃ p : Parts, p.negative = negative ∧ p.exponent? = none ∧ p.fraction = [] ∧ p.Regular ∧
      p.text = signed negative (formatMagnitude m) := by
  have hwhole : digits (m.units / Magnitude.one) = ['0'] ∨
      IsCount (digits (m.units / Magnitude.one)) := by
    rcases Nat.eq_zero_or_pos (m.units / Magnitude.one) with hzero | hpos
    · rw [hzero]
      exact .inl (Nat.toDigits_zero 10)
    · exact .inr (isCount_digits hpos.ne')
  refine ⟨⟨negative, digits (m.units / Magnitude.one), [], none⟩, rfl, rfl, rfl,
    Parts.regular_plain hwhole ⟨by simp, by simp⟩ negative, ?_⟩
  rw [formatMagnitude, if_pos h]
  simp [Parts.text, Parts.fractionText, Parts.exponentText]

section Shown

variable {m : Magnitude} (h : ¬ (m.units % Magnitude.one = 0 ∧ m.units < leastExponential))

include h

theorem formatMagnitude_of_not_plain : formatMagnitude m =
    if leastPositional ≤ m.units ∧ m.units < leastExponential then
      positional (digits m.shortest.digits) (m.shortest.length + m.shortest.exponent)
    else exponential (digits m.shortest.digits) (m.shortest.length + m.shortest.exponent) := by
  have hmod := (Magnitude.coarsest_shortest (units_ne_zero_of_not_plain h)).digits_mod_ten
  rw [formatMagnitude, if_neg h, layoutParts_of_mod_ten hmod]

/-- How the decimal of a magnitude that is not a whole number below `10 ^ 21` is shown. -/
theorem shown_parts {s : Decimal} (hs : m.Coarsest s) (negative : Bool) :
    ∃ p : Parts, p.negative = negative ∧ p.Regular ∧ p.decimal = s ∧
      p.text = signed negative
        (if leastPositional ≤ m.units ∧ m.units < leastExponential then
          positional (digits s.digits) (s.length + s.exponent)
        else exponential (digits s.digits) (s.length + s.exponent)) ∧
      (p.exponent? ≠ none ↔ leastExponential ≤ m.units ∨ m.units < leastPositional) ∧
      (p.exponent? = none → p.fraction ≠ []) := by
  have hdigits := Magnitude.digits_ne_zero_of_reads (units_ne_zero_of_not_plain h) hs.reads
  split_ifs with hpositional
  · have hexp : s.exponent < 0 := by
      by_contra hge
      exact h ⟨Magnitude.whole_of_reads hs.reads (Int.not_lt.mp hge), hpositional.2⟩
    obtain ⟨p, hneg, hnone, hfraction, hregular, htext, hp⟩ :=
      positional_parts hs.digits_mod_ten negative hexp
    refine ⟨p, hneg, hregular, hp, htext, ?_, fun _ => hfraction⟩
    rw [hnone]
    simp only [ne_eq, not_true_eq_false, false_iff]
    omega
  · have hpoint : (s.length : Int) + s.exponent ≠ 1 := by
      by_cases hlarge : leastExponential ≤ m.units
      · exact (point_of_large hs.reads hlarge).ne'
      · exact (point_of_small hs.reads hdigits (by omega)).ne
    obtain ⟨p, hneg, hsome, hregular, htext, hp⟩ :=
      exponential_parts hs.digits_mod_ten negative hpoint
    refine ⟨p, hneg, hregular, hp, htext, ?_, fun hnone => absurd hnone hsome⟩
    simp only [hsome, ne_eq, not_false_eq_true, true_iff]
    omega

end Shown

/-- The double for one with an exponent of ten. -/
theorem units_of_powers :
    (∃ t, Decimal.toMagnitude? ⟨1, 21⟩ = some t ∧ t.units = leastExponential) ∧
    ∃ t, Decimal.toMagnitude? ⟨1, -6⟩ = some t ∧ t.units = leastPositional := by
  have hlarge :
      (Decimal.toMagnitude? ⟨1, 21⟩).any (fun t => t.units = leastExponential) = true := by
    decide +kernel
  have hsmall : (Decimal.toMagnitude? ⟨1, -6⟩).any (fun t => t.units = leastPositional) = true := by
    decide +kernel
  obtain ⟨hsome, hunits⟩ := (Option.any_eq_true_iff_get _ _).mp hlarge
  obtain ⟨hsome', hunits'⟩ := (Option.any_eq_true_iff_get _ _).mp hsmall
  exact ⟨⟨_, (Option.some_get hsome).symm, of_decide_eq_true hunits⟩,
    ⟨_, (Option.some_get hsome').symm, of_decide_eq_true hunits'⟩⟩

theorem ofList_digits (n : Nat) : String.ofList (digits n) = toString (n : Int) :=
  Nat.toString_eq_ofList_toDigits.symm

theorem ofList_neg_digits {n : Nat} (hn : n ≠ 0) :
    String.ofList ('-' :: digits n) = toString (-(n : Int)) := by
  obtain ⟨k, rfl⟩ := Nat.exists_eq_succ_of_ne_zero hn
  have hrepr : toString (-((k + 1 : Nat) : Int)) = "-" ++ Nat.repr (k + 1) := rfl
  rw [hrepr, Nat.repr_eq_ofList_toDigits, ← String.toList_inj]
  simp [digits]

/-- A whole number below `10 ^ 21` is written by its exact digits. -/
theorem format_whole {m : Magnitude} (negative : Bool)
    (h : m.units % Magnitude.one = 0 ∧ m.units < leastExponential) :
    format (.finite negative m) = toString (Double.finite negative m).truncate := by
  have hunits : m.units / Magnitude.one * Magnitude.one = m.units :=
    Nat.div_mul_cancel (Nat.dvd_of_mod_eq_zero h.1)
  rw [format_finite, formatMagnitude, if_pos h, Double.truncate]
  generalize m.units / Magnitude.one = whole at hunits
  cases negative with
  | false => simpa [signed] using ofList_digits whole
  | true =>
    rcases Nat.eq_zero_or_pos whole with rfl | hpos
    · have hnone : m.units = 0 := by rw [← hunits, Nat.zero_mul]
      simpa [signed, hnone] using ofList_digits 0
    · have hsome : m.units ≠ 0 := by
        rw [← hunits]
        exact (Nat.mul_pos hpos Magnitude.one_pos).ne'
      simpa [signed, hsome] using ofList_neg_digits hpos.ne'

theorem whole?_eq_some {negative : Bool} {m : Magnitude} {i : Int}
    (h : (Double.finite negative m).whole? = some i) :
    m.units % Magnitude.one = 0 ∧ (Double.finite negative m).truncate = i := by
  rw [Double.whole?] at h
  split_ifs at h with hmod
  exact ⟨hmod, Option.some.inj h⟩

theorem whole?_eq_none {negative : Bool} {m : Magnitude} :
    (Double.finite negative m).whole? = none ↔ m.units % Magnitude.one ≠ 0 := by
  rw [Double.whole?]
  split_ifs with hmod <;> simp [hmod]

/-- Comparing finite numbers without a sign is comparing their units. -/
theorem unsigned_lt (m n : Magnitude) :
    (Double.finite false m).lt (.finite false n) = true ↔ m.units < n.units := by
  simp [Double.lt, Double.signedUnits]

theorem unsigned_le (m n : Magnitude) :
    (Double.finite false m).le (.finite false n) = true ↔ m.units ≤ n.units := by
  simp [Double.le, Double.signedUnits]

theorem lt_zero_iff (negative : Bool) (m : Magnitude) :
    (Double.finite negative m).lt .zero = true ↔ negative = true ∧ m.units ≠ 0 := by
  have hzero : Magnitude.zero.units = 0 := rfl
  cases negative <;> simp [Double.lt, Double.zero, Double.signedUnits, hzero, Nat.pos_iff_ne_zero]

theorem zero_lt_iff (m : Magnitude) :
    Double.zero.lt (.finite false m) = true ↔ m.units ≠ 0 := by
  rw [Double.zero, unsigned_lt, ← Nat.pos_iff_ne_zero]
  rfl

/-- The shape of the text of a finite number. An exponent is there from `10 ^ 21` upwards and below
`10 ^ -6`; outside of that a fraction is there exactly if the number is not whole, and a whole
number is written by its exact digits. A sign is there exactly below zero. Unless the text is that
of a whole number without an exponent, its digits are the shortest decimal of the number. -/
theorem format_shape (negative : Bool) (m : Magnitude) :
    let x := Double.finite negative m
    let size := Double.finite false m
    let small := Decimal.toDouble false ⟨1, -6⟩
    let large := Decimal.toDouble false ⟨1, 21⟩
    ∃ p : Parts, (format x).toList = p.text ∧ p.Regular ∧
      (p.exponent? ≠ none ↔
        large.le size = true ∨ Double.zero.lt size = true ∧ size.lt small = true) ∧
      (p.exponent? = none → (p.fraction ≠ [] ↔ x.whole? = none)) ∧
      (∀ i, x.whole? = some i → size.lt large = true → format x = toString i) ∧
      (p.negative = true ↔ x.lt .zero = true) ∧
      (x.whole? = none ∨ p.exponent? ≠ none → m.Shortest p.decimal) := by
  intro x size small large
  obtain ⟨⟨t, ht, hlarge⟩, u, hu, hsmall⟩ := units_of_powers
  have hlarge' : large = .finite false t := Decimal.toDouble_of_toMagnitude? false ht
  have hsmall' : small = .finite false u := Decimal.toDouble_of_toMagnitude? false hu
  rw [hlarge', hsmall', unsigned_le, unsigned_lt, zero_lt_iff, unsigned_lt, hlarge, hsmall,
    whole?_eq_none, lt_zero_iff]
  have hexact : ∀ i, x.whole? = some i → m.units < leastExponential → format x = toString i := by
    intro i hi hlt
    obtain ⟨hmod, rfl⟩ := whole?_eq_some hi
    exact format_whole negative ⟨hmod, hlt⟩
  by_cases hplain : m.units % Magnitude.one = 0 ∧ m.units < leastExponential
  · have hexponent : ¬ (leastExponential ≤ m.units ∨ m.units ≠ 0 ∧ m.units < leastPositional) := by
      rintro (hle | ⟨hne, hlt⟩)
      · exact absurd hplain.2 (Nat.not_lt_of_le hle)
      · have hone := Nat.le_of_dvd (Nat.pos_of_ne_zero hne) (Nat.dvd_of_mod_eq_zero hplain.1)
        exact absurd hlt (Nat.not_lt_of_le (leastPositional_le_one.trans hone))
    obtain ⟨p, hneg, hnone, hnil, hregular, htext⟩ := plain_parts hplain
      (decide (negative = true ∧ m.units ≠ 0))
    refine ⟨p, ?_, hregular, ?_, ?_, hexact, ?_, ?_⟩
    · rw [format_finite, String.toList_ofList, htext]
    · simp only [hnone, hexponent, ne_eq, not_true_eq_false]
    · simp only [hnil, hplain.1, ne_eq, not_true_eq_false, implies_true]
    · rw [hneg, decide_eq_true_eq]
    · rintro (hmod | hsome)
      · exact absurd hplain.1 hmod
      · exact absurd hnone hsome
  · have hunits := units_ne_zero_of_not_plain hplain
    obtain ⟨p, hneg, hregular, hdecimal, htext, hexponent, hfraction⟩ := shown_parts hplain
      (Magnitude.coarsest_shortest hunits) (decide (negative = true ∧ m.units ≠ 0))
    refine ⟨p, ?_, hregular, ?_, ?_, hexact, ?_, ?_⟩
    · rw [format_finite, String.toList_ofList, htext, formatMagnitude_of_not_plain hplain]
    · simp only [hexponent, hunits, ne_eq, not_false_eq_true, true_and]
    · intro hnone
      have hwhole : m.units % Magnitude.one ≠ 0 := by
        intro hmod
        have hlarge : leastExponential ≤ m.units := Nat.le_of_not_lt fun hlt => hplain ⟨hmod, hlt⟩
        exact hexponent.mpr (.inl hlarge) hnone
      exact iff_of_true (hfraction hnone) hwhole
    · rw [hneg, decide_eq_true_eq]
    · intro _
      rw [hdecimal]
      exact Magnitude.shortest_isShortest hunits

end Numeral
end Script
