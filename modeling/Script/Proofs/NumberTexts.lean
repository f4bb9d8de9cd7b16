import Script.Library
import Script.Proofs.Rounding

/-!
# Texts of numbers

The text of a double is read as that double: as a literal, as a numeral at the start of a text and
by the library. The sign of a zero is all that is lost.
-/
namespace Script

namespace Numeral

open Text (digits isDigit ofDigits)

theorem digit?_of_char {c : Char} (h : c.isDigit = true) : Text.digit? c = some (c.toNat - 48) := by
  have hc := toNat_of_isDigit h
  obtain ⟨rest, hzeros⟩ : ∃ rest, Text.zeros = 48 :: rest := ⟨_, rfl⟩
  have hfirst : (decide (48 ≤ c.toNat) && decide (c.toNat < 48 + 10)) = true := by
    rw [Bool.and_eq_true, decide_eq_true_eq, decide_eq_true_eq]
    omega
  rw [Text.digit?, hzeros, List.find?_cons, hfirst]
  rfl

theorem ofDigits_eq {cs : List Char} (h : ∀ c ∈ cs, c.isDigit = true) :
    ofDigits cs = Nat.ofDigitChars 10 cs 0 := by
  have hfold (n : Nat) : cs.foldl (fun n c => 10 * n + (Text.digit? c).getD 0) n =
      Nat.ofDigitChars 10 cs n := by
    induction cs generalizing n with
    | nil => rfl
    | cons c cs ih =>
      obtain ⟨hc, hcs⟩ := List.forall_mem_cons.mp h
      rw [List.foldl_cons, digit?_of_char hc, ih hcs, Nat.ofDigitChars_cons]
      rfl
  exact hfold 0

theorem ofDigits_digits (n : Nat) : ofDigits (digits n) = n := by
  rw [ofDigits_eq fun c hc => isDigit_of_mem_digits hc, digits, Nat.ofDigitChars_ten_toDigits]

theorem isDigit_of_mem_zeros {n : Nat} : ∀ c ∈ List.replicate n '0', c.isDigit = true := by
  intro c hc
  rw [List.eq_of_mem_replicate hc]
  rfl

theorem ofDigits_zeros_append {cs : List Char} (h : ∀ c ∈ cs, c.isDigit = true) (n : Nat) :
    ofDigits (List.replicate n '0' ++ cs) = ofDigits cs := by
  rw [ofDigits_eq (List.forall_mem_append.mpr ⟨isDigit_of_mem_zeros, h⟩), ofDigits_eq h,
    Nat.ofDigitChars_append, Nat.ofDigitChars_replicate_zero, Nat.mul_zero]

theorem ofDigits_append_zeros {cs : List Char} (h : ∀ c ∈ cs, c.isDigit = true) (n : Nat) :
    ofDigits (cs ++ List.replicate n '0') = ofDigits cs * 10 ^ n := by
  rw [ofDigits_eq (List.forall_mem_append.mpr ⟨h, isDigit_of_mem_zeros⟩), ofDigits_eq h,
    Nat.ofDigitChars_append, Nat.ofDigitChars_replicate_zero, Nat.mul_comm]

/-- The text is a decimal and read as the magnitude. -/
structure Denotes (cs : List Char) (m : Magnitude) : Prop where
  isDecimal : IsDecimal cs
  read : ∃ d, decimal? cs = some (d, []) ∧ d.toMagnitude? = some m

/-- The digits of a layout with the closing zeros that it leaves out. -/
theorem exists_digits_eq (d : Decimal) :
    ∃ k, digits d.digits = (layoutParts d).1 ++ List.replicate k '0' := by
  have hzeros : ∀ c ∈ (digits d.digits).reverse.takeWhile (fun c => decide (c = '0')), c = '0' := by
    intro c hc
    have hd := List.mem_takeWhile_imp hc
    exact of_decide_eq_true hd
  have hsplit := List.takeWhile_append_dropWhile (p := fun c => decide (c = '0'))
    (l := (digits d.digits).reverse)
  refine ⟨((digits d.digits).reverse.takeWhile (fun c => decide (c = '0'))).length, ?_⟩
  rw [← List.reverse_inj, List.reverse_append, List.reverse_replicate, layoutParts,
    List.reverse_reverse, ← List.eq_replicate_of_mem hzeros]
  exact hsplit.symm

/-- The digits of a layout, with the point where it stands, are the decimal. -/
theorem toMagnitude?_layoutParts (d : Decimal) :
    Decimal.toMagnitude? ⟨ofDigits (layoutParts d).1,
      (layoutParts d).2 - (layoutParts d).1.length⟩ = d.toMagnitude? := by
  have hshown : ∀ c ∈ (layoutParts d).1, c.isDigit = true :=
    fun c hc => isDigit_of_mem_layoutParts hc
  obtain ⟨k, hk⟩ := exists_digits_eq d
  have hdigits : ofDigits (layoutParts d).1 * 10 ^ k = d.digits := by
    rw [← ofDigits_append_zeros hshown, ← hk, ofDigits_digits]
  have hpoint : (layoutParts d).2 - (layoutParts d).1.length = d.exponent + k := by
    have hlen := congrArg List.length hk
    rw [List.length_append, List.length_replicate] at hlen
    have hsnd : (layoutParts d).2 = (digits d.digits).length + d.exponent := rfl
    omega
  rw [hpoint, ← Decimal.toMagnitude?_mul_pow, hdigits]

section Points

variable {shown : List Char} (hshown : ∀ c ∈ shown, c.isDigit = true)

include hshown

/-- The digits behind the point and so many zeros. -/
theorem decimal?_point_before (k : Nat) :
    decimal? ('0' :: '.' :: (List.replicate k '0' ++ shown)) =
      some (⟨ofDigits shown, -k - shown.length⟩, []) := by
  have hfraction : ∀ c ∈ List.replicate k '0' ++ shown, c.isDigit = true :=
    List.forall_mem_append.mpr ⟨isDigit_of_mem_zeros, hshown⟩
  have hread := decimal?_fraction (r := []) (List.cons_ne_nil '0' [])
    (isDigit_of_mem_zeros (n := 1)) hfraction (by simp)
  have hvalue : ofDigits (['0'] ++ (List.replicate k '0' ++ shown)) = ofDigits shown :=
    ofDigits_zeros_append hshown (k + 1)
  have hexp : (exponent []).1 - ((List.replicate k '0' ++ shown).length : Int) =
      -k - shown.length := by
    rw [List.length_append, List.length_replicate]
    simp only [exponent]
    omega
  rw [hvalue, hexp, List.append_nil] at hread
  exact hread

/-- So many digits before the point, and others behind it. -/
theorem decimal?_point_among {k : Nat} (hpos : 0 < k) (hk : k < shown.length) :
    decimal? (shown.take k ++ '.' :: shown.drop k) =
      some (⟨ofDigits shown, k - shown.length⟩, []) := by
  have htake : shown.take k ≠ [] := by
    rw [← List.length_pos_iff, List.length_take]
    omega
  have hdrop : ∀ c ∈ shown.drop k, c.isDigit = true :=
    fun c hc => hshown c (List.mem_of_mem_drop hc)
  have hread := decimal?_fraction (r := []) htake
    (fun c hc => hshown c (List.mem_of_mem_take hc)) hdrop (by simp)
  have hexp : (exponent []).1 - ((shown.drop k).length : Int) = k - shown.length := by
    rw [List.length_drop]
    simp only [exponent]
    omega
  rw [List.take_append_drop, hexp, List.append_nil] at hread
  exact hread

/-- The digits and so many zeros, without a point. -/
theorem decimal?_point_behind {k : Nat} (hk : 0 < shown.length + k) :
    decimal? (shown ++ List.replicate k '0') = some (⟨ofDigits shown * 10 ^ k, 0⟩, []) := by
  have hall : ∀ c ∈ shown ++ List.replicate k '0', c.isDigit = true :=
    List.forall_mem_append.mpr ⟨hshown, isDigit_of_mem_zeros⟩
  have hne : shown ++ List.replicate k '0' ≠ [] := by
    rwa [← List.length_pos_iff, List.length_append, List.length_replicate]
  have hread := decimal?_whole (r := []) hne hall (by simp)
  rw [ofDigits_append_zeros hshown, List.append_nil] at hread
  exact hread

end Points

section Layout

variable {shown : List Char} {point : Int} {m : Magnitude}
  (hshown : ∀ c ∈ shown, c.isDigit = true)
  (hm : Decimal.toMagnitude? ⟨ofDigits shown, point - shown.length⟩ = some m)

include hshown hm

theorem positional_denotes : Denotes (positional shown point) m := by
  refine ⟨.plain (positional_isMantissa hshown point), ?_⟩
  unfold positional
  split_ifs with hleft hamong
  · have hpoint : -((-point).toNat : Int) = point := by omega
    refine ⟨_, decimal?_point_before hshown _, ?_⟩
    rwa [hpoint]
  · have hpoint : (point.toNat : Int) = point := by omega
    refine ⟨_, decimal?_point_among hshown (by omega) (by omega), ?_⟩
    rwa [hpoint]
  · have hexp : (0 : Int) + (point - shown.length).toNat = point - shown.length := by omega
    refine ⟨_, decimal?_point_behind hshown (by omega), ?_⟩
    rwa [Decimal.toMagnitude?_mul_pow, hexp]

omit hshown hm in
theorem exponent_written (e : Int) :
    exponent ('e' :: (if e > 0 then '+' else '-') :: digits e.natAbs) = (e, []) := by
  have hdigits : ∀ c ∈ digits e.natAbs, c.isDigit = true := fun c hc => isDigit_of_mem_digits hc
  obtain ⟨ht, hd⟩ := split_digits (r := []) hdigits (by simp)
  rw [List.append_nil] at ht hd
  have hempty : (digits e.natAbs).isEmpty = false := by
    rw [List.isEmpty_eq_false_iff]
    exact Nat.toDigits_ne_nil
  split_ifs with he
  · have habs : (e.natAbs : Int) = e := by omega
    generalize e.natAbs = k at ht hd hempty habs ⊢
    simp [exponent, sign, ht, hd, hempty, ofDigits_digits, habs]
  · have habs : -(e.natAbs : Int) = e := by omega
    generalize e.natAbs = k at ht hd hempty habs ⊢
    simp [exponent, sign, ht, hd, hempty, ofDigits_digits, habs]

theorem exponential_denotes (hn : shown ≠ []) : Denotes (exponential shown point) m := by
  refine ⟨exponential_isDecimal hn hshown point, ⟨ofDigits shown, point - shown.length⟩, ?_, hm⟩
  have hpos : 0 < shown.length := List.length_pos_iff.mpr hn
  have htake : shown.take 1 ≠ [] := by simpa using hn
  have hfirst : ∀ c ∈ shown.take 1, c.isDigit = true :=
    fun c hc => hshown c (List.mem_of_mem_take hc)
  have hrest : ∀ c ∈ shown.drop 1, c.isDigit = true :=
    fun c hc => hshown c (List.mem_of_mem_drop hc)
  have hexponent := exponent_written (point - 1)
  generalize he : 'e' :: (if point - 1 > 0 then '+' else '-') :: digits (point - 1).natAbs = r
    at hexponent
  have hr : ∀ c ∈ r.head?, c = 'e' := by
    rw [← he]
    simp
  simp only [exponential, he]
  split_ifs with hone
  · have hwhole : shown.take 1 = shown := List.take_of_length_le hone
    have hread := decimal?_whole htake hfirst hr
    have hexp : point - 1 = point - shown.length := by omega
    rw [hexponent, hwhole, hexp] at hread
    rw [List.append_nil, hwhole]
    exact hread
  · have hread := decimal?_fraction htake hfirst hrest hr
    have hexp : point - 1 - ((shown.drop 1).length : Int) = point - shown.length := by
      rw [List.length_drop]
      omega
    rw [List.take_append_drop, hexponent, hexp] at hread
    rw [List.append_assoc]
    exact hread

end Layout

attribute [local irreducible] leastExponential leastPositional Magnitude.one

/-- What is written for a magnitude is read as it. -/
theorem formatMagnitude_denotes (m : Magnitude) : Denotes (formatMagnitude m) m := by
  have hshown : ∀ c ∈ (layoutParts m.shortest).1, c.isDigit = true :=
    fun c hc => isDigit_of_mem_layoutParts hc
  have hread := (toMagnitude?_layoutParts m.shortest).trans (Decimal.toMagnitude?_shortest m)
  have hdecimal := formatMagnitude_isDecimal m
  by_cases hwhole : m.units % Magnitude.one = 0 ∧ m.units < leastExponential
  · refine ⟨hdecimal, _, ?_, Decimal.toMagnitude?_whole hwhole.1⟩
    have hsome : digits (m.units / Magnitude.one) ≠ [] := Nat.toDigits_ne_nil
    have hdigits := decimal?_whole (r := []) hsome (fun c hc => isDigit_of_mem_digits hc) (by simp)
    rw [ofDigits_digits, List.append_nil] at hdigits
    rw [formatMagnitude, if_pos hwhole]
    exact hdigits
  · rw [formatMagnitude, if_neg hwhole]
    by_cases hpositional : leastPositional ≤ m.units ∧ m.units < leastExponential
    · simp only [if_pos hpositional]
      exact positional_denotes hshown hread
    · have hdigits : m.shortest.digits ≠ 0 :=
        Magnitude.shortest_digits_ne_zero (units_ne_zero_of_not_plain hwhole)
      simp only [if_neg hpositional]
      exact exponential_denotes hshown hread (layoutParts_ne_nil hdigits)

theorem trim_of_plain {cs : List Char} (h : ∀ c ∈ cs, IsPlain c) :
    Text.trimLeft cs = cs ∧ Text.trim cs = cs := by
  have hleft {ds : List Char} (hd : ∀ c ∈ ds, IsPlain c) : ds.dropWhile Text.isBlank = ds := by
    cases ds with
    | nil => rfl
    | cons c ds => simp [(hd c (by simp)).not_isBlank]
  have hrev : ∀ c ∈ cs.reverse, IsPlain c := fun c hc => h c (List.mem_reverse.mp hc)
  refine ⟨hleft h, ?_⟩
  rw [Text.trim, Text.trimLeft, hleft h, Text.trimRight, hleft hrev, List.reverse_reverse]

theorem read?_signed {cs : List Char} {d : Decimal} (h : IsDecimal cs)
    (hd : decimal? cs = some (d, [])) (negative : Bool) :
    read? (signed negative cs) = some (d.toDouble negative, []) := by
  have hletters : infinityWord = ['I', 'n', 'f', 'i', 'n', 'i', 't', 'y'] := by decide +kernel
  have hword : infinityWord.isPrefixOf cs = false := by
    obtain ⟨c, ds, hc, rfl⟩ := h.head
    have hne : ('I' == c) = false := by
      rw [beq_eq_false_iff_ne]
      rintro rfl
      cases hc
    rw [hletters, List.isPrefixOf, hne, Bool.false_and]
  simp only [read?, sign_signed h, hword, hd]
  rfl

end Numeral

namespace Double

/-- The number itself, but the positive zero for the negative one. -/
def unsigned (x : Double) : Double := if x.isZero then zero else x

theorem isZero_finite (negative : Bool) (m : Magnitude) :
    (finite negative m).isZero = true ↔ m.units = 0 := by
  constructor
  · intro h
    have hsig : m.significand = 0 := of_decide_eq_true h
    rw [Magnitude.units, hsig, Nat.zero_shiftLeft]
  · intro h
    rw [Magnitude.units_eq_zero h]
    rfl

theorem unsigned_finite (negative : Bool) (m : Magnitude) :
    (finite negative m).unsigned = finite (decide (negative = true ∧ m.units ≠ 0)) m := by
  rw [unsigned]
  split_ifs with h
  · have hunits := (isZero_finite negative m).mp h
    rw [Magnitude.units_eq_zero hunits]
    simp [zero, Magnitude.units, Magnitude.zero]
  · have hunits : m.units ≠ 0 := fun hzero => h ((isZero_finite negative m).mpr hzero)
    simp [hunits]

theorem unsigned_unsigned (x : Double) : x.unsigned.unsigned = x.unsigned := by
  by_cases h : x.isZero = true
  · simp only [unsigned, h, if_true]
    rfl
  · simp only [unsigned, h, if_false, Bool.false_eq_true]

theorem eq_or_isZero_of_unsigned {x y : Double} (h : x.unsigned = y.unsigned) :
    x = y ∨ x.isZero = true ∧ y.isZero = true := by
  have hzero : zero.isZero = true := rfl
  unfold unsigned at h
  split_ifs at h with hx hy hy
  · exact .inr ⟨hx, hy⟩
  · exact absurd (h ▸ hzero) hy
  · exact absurd (h ▸ hzero) hx
  · exact .inl h

end Double

namespace Numeral

theorem format_finite (negative : Bool) (m : Magnitude) :
    format (.finite negative m) =
      String.ofList (signed (decide (negative = true ∧ m.units ≠ 0)) (formatMagnitude m)) := by
  simp [format, signed]

/-- The text of a double as a literal. -/
theorem literal?_format_eq (x : Double) : literal? (format x) = some x.unsigned := by
  cases x with
  | nan => decide +kernel
  | infinite negative => cases negative <;> decide +kernel
  | finite negative m =>
    obtain ⟨hdecimal, d, hd, hm⟩ := formatMagnitude_denotes m
    rw [format_finite, literal?_signed hdecimal hd, Decimal.toDouble_of_toMagnitude? _ hm,
      Double.unsigned_finite]

/-- The text of a number is a numeral from end to end, without blanks around it. -/
theorem read?_format {x : Double} (hx : x ≠ .nan) :
    read? (format x).toList = some (x.unsigned, []) ∧
      Text.trimLeft (format x).toList = (format x).toList ∧
      Text.trim (format x).toList = (format x).toList := by
  cases x with
  | nan => exact absurd rfl hx
  | infinite negative => cases negative <;> decide +kernel
  | finite negative m =>
    obtain ⟨hdecimal, d, hd, hm⟩ := formatMagnitude_denotes m
    rw [format_finite, String.toList_ofList, read?_signed hdecimal hd,
      Decimal.toDouble_of_toMagnitude? _ hm, Double.unsigned_finite]
    exact ⟨rfl, trim_of_plain (hdecimal.plain_signed _)⟩

theorem format_unsigned (x : Double) : format x.unsigned = format x := by
  cases x with
  | finite negative m =>
    rw [Double.unsigned_finite, format_finite, format_finite]
    simp
  | _ => rfl

theorem ofText_format (x : Double) : Library.ofText (format x) = x.unsigned := by
  by_cases hx : x = .nan
  · subst hx
    decide +kernel
  · obtain ⟨hread, -, htrim⟩ := read?_format hx
    rw [Library.ofText, htrim]
    cases htext : (format x).toList with
    | nil =>
      rw [htext] at hread
      cases hread
    | cons c cs =>
      rw [htext] at hread
      simp only [ofWhole?, hread, Option.getD_some]

/-- The text of a double loses nothing but the sign of a zero. It is read as the double: as a
literal, and unless it says that there is no number also as a numeral from end to end, at the start
of a text and by the library, which gives the same text. So it is the text of what is read, and
different numbers have different texts. -/
theorem format_loses_nothing (x : Double) :
    literal? (format x) = some x.unsigned ∧
      (x ≠ .nan → ofWhole? (format x).toList = some x.unsigned ∧ ofStart (format x) = x.unsigned) ∧
      (∀ m, (do Library.call .number [← Library.call .string [.ofDouble x]] : Run Value) m =
        .ok (.ofDouble x) m) ∧
      (∀ y, literal? (format x) = some y → format y = format x) ∧
      ∀ y, format x = format y → x = y ∨ x.isZero = true ∧ y.isZero = true := by
  refine ⟨literal?_format_eq x, ?_, ?_, ?_, ?_⟩
  · intro hx
    obtain ⟨hread, hleft, -⟩ := read?_format hx
    simp only [ofWhole?, ofStart, hleft, hread, and_self]
  · intro m
    change EStateM.Result.ok (Value.ofDouble (Library.ofText (format x))) m = _
    rw [ofText_format, Value.ofDouble, format_unsigned]
    rfl
  · intro y hy
    rw [literal?_format_eq] at hy
    rw [← Option.some.inj hy, format_unsigned]
  · intro y hy
    have hread := congrArg literal? hy
    rw [literal?_format_eq, literal?_format_eq] at hread
    exact Double.eq_or_isZero_of_unsigned (Option.some.inj hread)

end Numeral
end Script
