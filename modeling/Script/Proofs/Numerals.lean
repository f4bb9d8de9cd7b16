import Script.Numeral
import Script.Proofs.Shape
import Mathlib.Data.List.TakeWhile

/-!
# Numerals are read

Every number literal of a source text, and every text that a double is written as, is a number in
literal notation: signs, digits, a point and an exponent, each in its place.
-/
namespace Script

namespace Numeral

open Text (digits isDigit)

theorem toNat_of_isDigit {c : Char} (h : c.isDigit = true) : 48 ≤ c.toNat ∧ c.toNat ≤ 57 := by
  simp only [Char.isDigit, Bool.and_eq_true, decide_eq_true_eq, ge_iff_le,
    UInt32.le_iff_toNat_le] at h
  exact h

theorem isDigit_of_char {c : Char} (h : c.isDigit = true) : isDigit c = true := by
  have hc := toNat_of_isDigit h
  simp only [isDigit, Text.digit?, Option.isSome_map, List.find?_isSome, Bool.and_eq_true,
    decide_eq_true_eq]
  exact ⟨48, by simp [Text.zeros], by omega, by omega⟩

theorem not_isBlank_of_char {c : Char} (h : c.isDigit = true) : Text.isBlank c = false := by
  have hc := toNat_of_isDigit h
  simp only [Text.isBlank, Bool.or_eq_false_iff, Bool.and_eq_false_iff, decide_eq_false_iff_not,
    beq_eq_false_iff_ne]
  omega

def IsPlain (c : Char) : Prop := c.isDigit = true ∨ c ∈ ['.', 'e', '+', '-']

theorem IsPlain.not_isBlank {c : Char} (h : IsPlain c) : Text.isBlank c = false := by
  rcases h with h | h
  · exact not_isBlank_of_char h
  · have hall : ['.', 'e', '+', '-'].all (!Text.isBlank ·) = true := by decide
    simpa using List.all_eq_true.mp hall c h

theorem IsPlain.not_isMargin {c : Char} (h : IsPlain c) : isMargin c = false := by
  rw [isMargin, h.not_isBlank, Bool.false_and]

theorem IsPlain.ne_mark {c : Char} (h : IsPlain c) : c ≠ '_' := by
  rintro rfl
  revert h
  simp [IsPlain, Char.isDigit]

theorem dropWhile_isMargin {cs : List Char} (h : ∀ c ∈ cs, IsPlain c) :
    cs.dropWhile isMargin = cs := by
  cases cs with
  | nil => rfl
  | cons c cs => simp [(h c (by simp)).not_isMargin]

theorem dropMarks_of_plain {cs : List Char} (h : ∀ c ∈ cs, IsPlain c) (b : Bool) :
    dropMarks b cs = some cs := by
  induction cs generalizing b with
  | nil => rfl
  | cons c cs ih =>
    obtain ⟨hc, hcs⟩ := List.forall_mem_cons.mp h
    rw [dropMarks, ih hcs]
    · rfl
    · exact hc.ne_mark

/-- Digits, and what follows them, are told apart. -/
theorem span_digits {ds r : List Char} (hd : ∀ c ∈ ds, isDigit c = true)
    (hr : ∀ c ∈ r.head?, isDigit c = false) :
    (ds ++ r).takeWhile isDigit = ds ∧ (ds ++ r).dropWhile isDigit = r := by
  rw [List.takeWhile_append_of_pos hd, List.dropWhile_append_of_pos hd]
  cases r with
  | nil => simp
  | cons c cs => simp [hr c (by simp)]

/-- The digits before and behind the point, and how they are written. -/
inductive MantissaText : List Char → List Char → List Char → Prop
  | whole {ds} (hn : ds ≠ []) (hd : ∀ c ∈ ds, isDigit c = true) : MantissaText ds [] ds
  | pointed {ds fs} (hn : ds ≠ []) (hd : ∀ c ∈ ds, isDigit c = true)
      (hf : ∀ c ∈ fs, isDigit c = true) : MantissaText ds fs (ds ++ '.' :: fs)
  | fraction {fs} (hn : fs ≠ []) (hf : ∀ c ∈ fs, isDigit c = true) :
      MantissaText [] fs ('.' :: fs)

/-- A text that a mantissa does not go on with. -/
def Ends (ms r : List Char) : Prop := ∀ c ∈ r.head?, isDigit c = false ∧ (c = '.' → '.' ∈ ms)

/-- A mantissa that does not go on is read up to its end. -/
theorem MantissaText.decimal?_append {whole fraction ms r : List Char}
    (h : MantissaText whole fraction ms) (hr : Ends ms r) :
    decimal? (ms ++ r) = some
      (⟨Text.ofDigits (whole ++ fraction), (exponent r).1 - fraction.length⟩, (exponent r).2) := by
  have hdigit : ∀ c ∈ r.head?, isDigit c = false := fun c hc => (hr c hc).1
  have hpoint : isDigit '.' = false := by decide
  cases h with
  | whole hn hd =>
    obtain ⟨htake, hdrop⟩ := span_digits hd hdigit
    have hempty : whole.isEmpty = false := by simpa using hn
    rw [decimal?, htake, hdrop]
    cases r with
    | nil => simp [hempty]
    | cons c r =>
      have hc : c ≠ '.' := fun hc => by
        have hmem := hd _ ((hr c rfl).2 hc)
        rw [hpoint] at hmem
        cases hmem
      simp [hempty, hc]
  | pointed hn hd hf =>
    obtain ⟨htake, hdrop⟩ := span_digits (r := '.' :: (fraction ++ r)) hd (by simp [hpoint])
    obtain ⟨hftake, hfdrop⟩ := span_digits hf hdigit
    have hempty : whole.isEmpty = false := by simpa using hn
    rw [List.append_assoc, List.cons_append, decimal?, htake, hdrop]
    simp [hempty, hftake, hfdrop]
  | fraction hn hf =>
    obtain ⟨hftake, hfdrop⟩ := span_digits hf hdigit
    have hempty : fraction.isEmpty = false := by simpa using hn
    simp [decimal?, hpoint, hempty, hftake, hfdrop]

/-- Digits, perhaps with a point and more digits behind them. -/
inductive IsMantissa : List Char → Prop
  | whole {ds} (hn : ds ≠ []) (hd : ∀ c ∈ ds, c.isDigit = true) : IsMantissa ds
  | fraction {ds es} (hn : ds ≠ []) (hd : ∀ c ∈ ds, c.isDigit = true)
      (he : ∀ c ∈ es, c.isDigit = true) : IsMantissa (ds ++ '.' :: es)

/-- A mantissa, perhaps with an exponent. -/
inductive IsDecimal : List Char → Prop
  | plain {ms} (h : IsMantissa ms) : IsDecimal ms
  | scaled {ms s es} (h : IsMantissa ms) (hs : s ∈ ['+', '-']) (hn : es ≠ [])
      (he : ∀ c ∈ es, c.isDigit = true) : IsDecimal (ms ++ 'e' :: s :: es)

theorem split_digits {ds r : List Char} (hd : ∀ c ∈ ds, c.isDigit = true)
    (hr : ∀ c ∈ r.head?, isDigit c = false) :
    (ds ++ r).takeWhile isDigit = ds ∧ (ds ++ r).dropWhile isDigit = r :=
  span_digits (fun c hc => isDigit_of_char (hd c hc)) hr

theorem exponent_scaled {s : Char} {es : List Char} (hs : s ∈ ['+', '-']) (hn : es ≠ [])
    (he : ∀ c ∈ es, c.isDigit = true) : ∃ e, exponent ('e' :: s :: es) = (e, []) := by
  obtain ⟨ht, hd⟩ := split_digits (r := []) he (by simp)
  rw [List.append_nil] at ht hd
  have hempty : es.isEmpty = false := by simpa using hn
  simp only [List.mem_cons, List.not_mem_nil, or_false] at hs
  rcases hs with rfl | rfl
  · exact ⟨_, by simp [exponent, sign, ht, hd, hempty]; rfl⟩
  · exact ⟨_, by simp [exponent, sign, ht, hd, hempty]; rfl⟩

theorem Ends.of_exponent {ms r : List Char} (hr : ∀ c ∈ r.head?, c = 'e') : Ends ms r := by
  intro c hc
  obtain rfl := hr c hc
  exact ⟨by decide, fun h => absurd h (by decide)⟩

/-- Digits, and perhaps an exponent behind them. -/
theorem decimal?_whole {ds r : List Char} (hn : ds ≠ []) (hd : ∀ c ∈ ds, c.isDigit = true)
    (hr : ∀ c ∈ r.head?, c = 'e') :
    decimal? (ds ++ r) = some (⟨Text.ofDigits ds, (exponent r).1⟩, (exponent r).2) := by
  have hm : MantissaText ds [] ds := .whole hn fun c hc => isDigit_of_char (hd c hc)
  simpa using hm.decimal?_append (.of_exponent hr)

/-- Digits with a point among them, and perhaps an exponent behind them. -/
theorem decimal?_fraction {ds es r : List Char} (hn : ds ≠ []) (hd : ∀ c ∈ ds, c.isDigit = true)
    (hes : ∀ c ∈ es, c.isDigit = true) (hr : ∀ c ∈ r.head?, c = 'e') :
    decimal? (ds ++ '.' :: (es ++ r)) =
      some (⟨Text.ofDigits (ds ++ es), (exponent r).1 - es.length⟩, (exponent r).2) := by
  have hm : MantissaText ds es (ds ++ '.' :: es) :=
    .pointed hn (fun c hc => isDigit_of_char (hd c hc)) fun c hc => isDigit_of_char (hes c hc)
  simpa using hm.decimal?_append (.of_exponent hr)

/-- A mantissa, and perhaps an exponent behind it. -/
theorem decimal?_mantissa {ms r : List Char} (h : IsMantissa ms) (hr : ∀ c ∈ r.head?, c = 'e') :
    ∃ d, decimal? (ms ++ r) = some (d, (exponent r).2) := by
  cases h with
  | whole hn hd => exact ⟨_, decimal?_whole hn hd hr⟩
  | fraction hn hd he =>
    rw [List.append_assoc, List.cons_append]
    exact ⟨_, decimal?_fraction hn hd he hr⟩

theorem decimal?_of_isDecimal {cs : List Char} (h : IsDecimal cs) :
    ∃ d, decimal? cs = some (d, []) := by
  cases h with
  | plain h => simpa [exponent] using decimal?_mantissa (r := []) h (by simp)
  | scaled h hs hn he =>
    obtain ⟨e, hex⟩ := exponent_scaled hs hn he
    obtain ⟨d, hd⟩ := decimal?_mantissa (r := 'e' :: _ :: _) h (by simp)
    rw [hex] at hd
    exact ⟨d, hd⟩

theorem IsMantissa.plain {ms : List Char} (h : IsMantissa ms) : ∀ c ∈ ms, IsPlain c := by
  cases h with
  | whole _ hd => exact fun c hc => .inl (hd c hc)
  | fraction _ hd he =>
    simp only [List.mem_append, List.mem_cons]
    rintro c (hc | rfl | hc)
    · exact .inl (hd c hc)
    · exact .inr (by simp)
    · exact .inl (he c hc)

theorem IsDecimal.plain_chars {cs : List Char} (h : IsDecimal cs) : ∀ c ∈ cs, IsPlain c := by
  cases h with
  | plain h => exact h.plain
  | @scaled ms s es h hs _ he =>
    simp only [List.mem_append, List.mem_cons]
    rintro c (hc | rfl | rfl | hc)
    · exact h.plain c hc
    · exact .inr (by simp)
    · exact .inr (by simp_all)
    · exact .inl (he c hc)

theorem IsMantissa.head {ms : List Char} (h : IsMantissa ms) :
    ∃ c ds, c.isDigit = true ∧ ms = c :: ds := by
  cases h with
  | whole hn hd =>
    obtain ⟨c, ds, rfl⟩ := List.exists_cons_of_ne_nil hn
    exact ⟨c, ds, hd c (by simp), rfl⟩
  | fraction hn hd he =>
    obtain ⟨c, ds, rfl⟩ := List.exists_cons_of_ne_nil hn
    exact ⟨c, _, hd c (by simp), rfl⟩

/-- A decimal begins with a digit. -/
theorem IsDecimal.head {cs : List Char} (h : IsDecimal cs) :
    ∃ c ds, c.isDigit = true ∧ cs = c :: ds := by
  cases h with
  | plain h => exact h.head
  | scaled h =>
    obtain ⟨c, ds, hc, rfl⟩ := h.head
    exact ⟨c, _, hc, rfl⟩

theorem IsDecimal.sign {cs : List Char} (h : IsDecimal cs) : sign cs = (false, cs) := by
  obtain ⟨c, ds, hc, rfl⟩ := h.head
  have h₁ : c ≠ '-' := by
    rintro rfl
    cases hc
  have h₂ : c ≠ '+' := by
    rintro rfl
    cases hc
  unfold Numeral.sign
  split <;> simp_all

def signed (negative : Bool) (cs : List Char) : List Char := if negative then '-' :: cs else cs

theorem sign_signed {cs : List Char} (h : IsDecimal cs) (negative : Bool) :
    sign (signed negative cs) = (negative, cs) := by
  cases negative with
  | false => exact h.sign
  | true => rfl

theorem IsDecimal.plain_signed {cs : List Char} (h : IsDecimal cs) (negative : Bool) :
    ∀ c ∈ signed negative cs, IsPlain c := by
  cases negative with
  | false => exact h.plain_chars
  | true => exact List.forall_mem_cons.mpr ⟨.inr (by simp), h.plain_chars⟩

/-- No word is a decimal, in whatever case its letters are. -/
theorem IsDecimal.ne_word {cs : List Char} (h : IsDecimal cs) {w : Char} (hw : 57 < w.toNat)
    (ws : List Char) : String.ofList (cs.map Char.toLower) ≠ String.ofList (w :: ws) := by
  obtain ⟨c, ds, hc, rfl⟩ := h.head
  have hnat := toNat_of_isDigit hc
  have hsame : c.toLower = c := by
    refine dif_neg ?_
    rintro ⟨hle, -⟩
    have hupper : 65 ≤ c.toNat := UInt32.le_iff_toNat_le.mp hle
    omega
  intro heq
  have hlower : c.toLower = w := (List.cons.inj (String.ofList_injective heq)).1
  rw [← hlower, hsame] at hw
  omega

/-- A decimal with or without a minus is a number. -/
theorem literal?_signed {cs : List Char} {d : Decimal} (h : IsDecimal cs)
    (hd : decimal? cs = some (d, [])) (negative : Bool) :
    literal? (String.ofList (signed negative cs)) = some (d.toDouble negative) := by
  have hplain := h.plain_signed negative
  have hrev : ∀ c ∈ (signed negative cs).reverse, IsPlain c :=
    fun c hc => hplain c (List.mem_reverse.mp hc)
  have hinf : String.ofList (cs.map Char.toLower) ≠ "inf" := h.ne_word (by decide) ['n', 'f']
  have hinfinity : String.ofList (cs.map Char.toLower) ≠ "infinity" :=
    h.ne_word (by decide) "nfinity".toList
  have hnan : String.ofList (cs.map Char.toLower) ≠ "nan" := h.ne_word (by decide) ['a', 'n']
  simp only [literal?, String.toList_ofList, dropWhile_isMargin hplain, dropWhile_isMargin hrev,
    List.reverse_reverse, dropMarks_of_plain hplain, Option.bind_eq_bind, Option.bind_some,
    sign_signed h, hd, hinf, hinfinity, hnan, or_self, if_false]

theorem literal?_isSome {cs : List Char} (h : IsDecimal cs) (negative : Bool) :
    (literal? (String.ofList (signed negative cs))).isSome = true := by
  obtain ⟨d, hd⟩ := decimal?_of_isDecimal h
  rw [literal?_signed h hd]
  rfl

theorem literal?_of_isNumeral {cs : List Char} (h : Token.IsNumeral cs) :
    (literal? (String.ofList cs)).isSome = true := by
  refine literal?_isSome (.plain ?_) false
  cases h with
  | whole hn hd => exact .whole hn hd
  | fraction hn hd _ he => exact .fraction hn hd he

theorem isDigit_of_mem_digits {n : Nat} {c : Char} (h : c ∈ digits n) : c.isDigit = true :=
  Nat.isDigit_of_mem_toDigits (by decide) (by decide) h

theorem isDigit_of_mem_layoutParts {d : Decimal} {c : Char} (h : c ∈ (layoutParts d).1) :
    c.isDigit = true := by
  simp only [layoutParts, List.mem_reverse] at h
  exact isDigit_of_mem_digits (List.mem_reverse.mp ((List.dropWhile_suffix _).subset h))

theorem layoutParts_ne_nil {d : Decimal} (h : d.digits ≠ 0) : (layoutParts d).1 ≠ [] := by
  intro hnil
  simp only [layoutParts, List.reverse_eq_nil_iff, List.dropWhile_eq_nil_iff, List.mem_reverse,
    decide_eq_true_eq] at hnil
  have hzero : digits d.digits = List.replicate (digits d.digits).length '0' :=
    List.eq_replicate_of_mem hnil
  have hvalue := Nat.ofDigitChars_ten_toDigits (n := d.digits)
  rw [← digits, hzero, Nat.ofDigitChars_replicate_zero, Nat.mul_zero] at hvalue
  exact h hvalue.symm

theorem positional_isMantissa {shown : List Char} (h : ∀ c ∈ shown, c.isDigit = true)
    (point : Int) : IsMantissa (positional shown point) := by
  have hzeros (n : Nat) : ∀ c ∈ List.replicate n '0', c.isDigit = true := by
    intro c hc
    rw [List.eq_of_mem_replicate hc]
    rfl
  unfold positional
  split
  · have hall : ∀ c ∈ List.replicate (-point).toNat '0' ++ shown, c.isDigit = true := by
      intro c hc
      rcases List.mem_append.mp hc with hc | hc
      · exact hzeros _ c hc
      · exact h c hc
    exact IsMantissa.fraction (List.cons_ne_nil '0' []) (hzeros 1) hall
  split
  · refine .fraction ?_ (fun c hc => h c (List.mem_of_mem_take hc))
      fun c hc => h c (List.mem_of_mem_drop hc)
    have hlen : (shown.take point.toNat).length ≠ 0 := by
      rw [List.length_take]
      omega
    exact List.length_eq_zero_iff.not.mp hlen
  · refine .whole ?_ ?_
    · have hlen : (shown ++ List.replicate (point - shown.length).toNat '0').length ≠ 0 := by
        rw [List.length_append, List.length_replicate]
        omega
      exact List.length_eq_zero_iff.not.mp hlen
    · simp only [List.mem_append]
      rintro c (hc | hc)
      · exact h c hc
      · exact hzeros _ c hc

theorem exponential_isDecimal {shown : List Char} (hn : shown ≠ [])
    (h : ∀ c ∈ shown, c.isDigit = true) (point : Int) : IsDecimal (exponential shown point) := by
  have htake : shown.take 1 ≠ [] := by simpa using hn
  have hdigit : ∀ c ∈ shown.take 1, c.isDigit = true := fun c hc => h c (List.mem_of_mem_take hc)
  have hmantissa : IsMantissa
      (shown.take 1 ++ if shown.length ≤ 1 then [] else '.' :: shown.drop 1) := by
    split
    · rw [List.append_nil]
      exact .whole htake hdigit
    · exact .fraction htake hdigit fun c hc => h c (List.mem_of_mem_drop hc)
  refine .scaled hmantissa ?_ Nat.toDigits_ne_nil fun c hc => isDigit_of_mem_digits hc
  split <;> simp

end Numeral

namespace Magnitude

theorem one_pos : 0 < one := by
  have hpow (n : Nat) : 0 < 1 <<< n := by
    rw [Nat.shiftLeft_eq, Nat.one_mul]
    exact Nat.pow_pos (by decide)
  exact hpow 1074

attribute [local irreducible] one

theorem halfEven_zero (den : Nat) : halfEven 0 den = 0 := by
  rcases Nat.eq_zero_or_pos den with rfl | h
  · simp [halfEven]
  · simp [halfEven, h]

theorem halfEven_eq_or (num den : Nat) :
    halfEven num den = num / den ∨ halfEven num den = num / den + 1 := by
  simp only [halfEven]
  split
  · exact .inl rfl
  · exact .inr rfl

theorem toMagnitude?_zero (exponent : Int) : Decimal.toMagnitude? ⟨0, exponent⟩ = some zero := by
  simp [Decimal.toMagnitude?, round, scaleFor, halfEven_zero, ofParts?, zero]

/-- What is found next to a quotient reads back. -/
theorem toMagnitude?_of_neighbour? {m : Magnitude} {exponent : Int} {num den : Nat} {d : Decimal}
    (h : m.neighbour? exponent num den = some d) : d.toMagnitude? = some m := by
  simp only [neighbour?] at h
  split_ifs at h with hb ha ha
  · obtain rfl := Option.some.inj h
    rcases halfEven_eq_or num den with he | he
    · rw [he]
      exact hb
    · rw [he]
      exact ha
  · obtain rfl := Option.some.inj h
    exact hb
  · obtain rfl := Option.some.inj h
    exact ha

theorem exactDecimal_digits_ne_zero {m : Magnitude} (h : m.units ≠ 0) :
    m.exactDecimal.digits ≠ 0 := by
  have hdigits : m.exactDecimal.digits = m.units * Nat.pow 5 1074 := rfl
  -- with a number for the exponent the power would be computed
  generalize 1074 = n at hdigits
  rw [hdigits]
  exact Nat.mul_ne_zero h (Nat.pow_pos (by decide)).ne'

/-- A search ends with a find or with what it gives otherwise. -/
theorem searchDown_eq_or {α : Type} (find? : Int → Option α) (otherwise : α) (steps : Nat)
    (exponent : Int) : searchDown find? otherwise steps exponent = otherwise ∨
      ∃ e, find? e = some (searchDown find? otherwise steps exponent) := by
  induction steps generalizing exponent with
  | zero => exact .inl rfl
  | succ steps ih =>
    rw [searchDown]
    cases hf : find? exponent with
    | none => exact ih _
    | some found => exact .inr ⟨exponent, hf⟩

/-- The shortest decimal of a number that is not zero is not zero. -/
theorem shortest_digits_ne_zero {m : Magnitude} (h : m.units ≠ 0) : m.shortest.digits ≠ 0 := by
  rcases searchDown_eq_or m.onGrid? m.exactDecimal 1100 m.topExponent with he | ⟨e, he⟩
  · rw [shortest, he]
    exact exactDecimal_digits_ne_zero h
  · intro hzero
    rw [← shortest, onGrid?] at he
    have hread := toMagnitude?_of_neighbour? he
    generalize m.shortest = d at hzero hread
    obtain ⟨digits, exponent⟩ := d
    obtain rfl : digits = 0 := hzero
    rw [toMagnitude?_zero] at hread
    rw [← Option.some.inj hread] at h
    exact h rfl

end Magnitude

namespace Numeral

theorem leastExponential_pos : 0 < leastExponential :=
  Nat.mul_pos (Nat.pow_pos (by decide)) Magnitude.one_pos

theorem units_ne_zero_of_not_plain {m : Magnitude}
    (h : ¬ (m.units % Magnitude.one = 0 ∧ m.units < leastExponential)) : m.units ≠ 0 := by
  intro hzero
  exact h ⟨by rw [hzero, Nat.zero_mod], hzero ▸ leastExponential_pos⟩

attribute [local irreducible] leastExponential leastPositional Magnitude.one

theorem formatMagnitude_isDecimal (m : Magnitude) : IsDecimal (formatMagnitude m) := by
  have hshown : ∀ c ∈ (layoutParts m.shortest).1, c.isDigit = true :=
    fun c hc => isDigit_of_mem_layoutParts hc
  by_cases hwhole : m.units % Magnitude.one = 0 ∧ m.units < leastExponential
  · rw [formatMagnitude, if_pos hwhole]
    exact .plain (.whole Nat.toDigits_ne_nil fun c hc => isDigit_of_mem_digits hc)
  · rw [formatMagnitude, if_neg hwhole]
    by_cases hpositional : leastPositional ≤ m.units ∧ m.units < leastExponential
    · simp only [if_pos hpositional]
      exact .plain (positional_isMantissa hshown _)
    · have hdigits : m.shortest.digits ≠ 0 :=
        Magnitude.shortest_digits_ne_zero (units_ne_zero_of_not_plain hwhole)
      simp only [if_neg hpositional]
      exact exponential_isDecimal (layoutParts_ne_nil hdigits) hshown _

/-- Every text that a double is written as is a number. -/
theorem literal?_format (x : Double) : (literal? (format x)).isSome = true := by
  cases x with
  | nan => decide +kernel
  | infinite negative => cases negative <;> decide +kernel
  | finite negative m =>
    have h := literal?_isSome (formatMagnitude_isDecimal m) (decide (negative = true ∧ m.units ≠ 0))
    simpa [format, signed] using h

end Numeral

end Script
