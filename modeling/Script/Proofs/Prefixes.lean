import Script.Proofs.NearestEven
import Mathlib.Data.Nat.Digits.Defs

/-!
# Numerals at the start of a text

A numeral has a sign or none, and then the word for an infinite number, or digits with a point or
none and an exponent or none. Reading takes the longest numeral that a text starts with, though it
never goes back: a point or an exponent that is not complete ends the numeral before it. What is
read is the double nearest to what the digits say.
-/
namespace Script

namespace Numeral

open Text (isDigit ofDigits)

/-- What digits are worth: the last one itself, the one before it ten times as much, and so on. -/
def worth (ds : List Char) : ℕ := Nat.ofDigits 10 (ds.reverse.map fun c => (Text.digit? c).getD 0)

inductive SignText : Bool → List Char → Prop
  | none : SignText false []
  | plus : SignText false ['+']
  | minus : SignText true ['-']

def signedWorth (negative : Bool) (ds : List Char) : Int :=
  if negative then -worth ds else worth ds

/-- A power of ten, and how it is written. -/
inductive ScaleText : Int → List Char → Prop
  | none : ScaleText 0 []
  | scaled {e negative sg ds} (he : e = 'e' ∨ e = 'E') (hs : SignText negative sg) (hn : ds ≠ [])
      (hd : ∀ c ∈ ds, isDigit c = true) :
      ScaleText (signedWorth negative ds) (e :: (sg ++ ds))

/-- A numeral with its sign and the number behind the sign, unless that is infinite. -/
inductive Spells : List Char → Bool → Option ℚ → Prop
  | infinity {negative sg} (hs : SignText negative sg) : Spells (sg ++ infinityWord) negative none
  | decimal {negative sg whole fraction ms e es} (hs : SignText negative sg)
      (hm : MantissaText whole fraction ms) (he : ScaleText e es) :
      Spells (sg ++ (ms ++ es)) negative
        (some ((worth whole + worth fraction / 10 ^ fraction.length) * 10 ^ e))

def IsNumeral (p : List Char) : Prop := ∃ negative size, Spells p negative size

/-- A numeral and the double nearest to it. -/
inductive Reads : List Char → Double → Prop
  | infinite {p negative} (h : Spells p negative none) : Reads p (.infinite negative)
  | finite {p negative q x} (h : Spells p negative (some q)) (hx : Double.Nearest negative q x) :
      Reads p x

theorem Reads.isNumeral {p : List Char} {x : Double} (h : Reads p x) : IsNumeral p := by
  cases h with
  | infinite h => exact ⟨_, _, h⟩
  | finite h => exact ⟨_, _, h⟩

theorem worth_append (ds es : List Char) :
    worth (ds ++ es) = worth ds * 10 ^ es.length + worth es := by
  rw [worth, List.reverse_append, List.map_append, Nat.ofDigits_append, ← worth, ← worth,
    List.length_map, List.length_reverse]
  ring

theorem ofDigits_eq_worth (ds : List Char) : ofDigits ds = worth ds := by
  induction ds using List.reverseRecOn with
  | nil => rfl
  | append_singleton ds c ih =>
    rw [worth_append, ← ih, ofDigits, List.foldl_append]
    simp [worth, ofDigits, Nat.mul_comm]

theorem length_dropWhile_le (cs : List Char) : (cs.dropWhile isDigit).length ≤ cs.length :=
  (List.dropWhile_suffix isDigit).length_le

theorem takeWhile_digits (cs : List Char) : ∀ c ∈ cs.takeWhile isDigit, isDigit c = true :=
  fun _ hc => List.mem_takeWhile_imp hc

/-- A text starts with digits, perhaps none, and then something else. -/
theorem exists_span (cs : List Char) : ∃ ds r, cs = ds ++ r ∧
    (∀ c ∈ ds, isDigit c = true) ∧ ∀ c ∈ r.head?, isDigit c = false := by
  refine ⟨_, _, List.takeWhile_append_dropWhile.symm, takeWhile_digits cs, fun c hc => ?_⟩
  have hnot := List.head?_dropWhile_not isDigit cs
  rw [Option.mem_def.mp hc] at hnot
  exact hnot

theorem sign_sound (cs : List Char) : ∃ sg, SignText (sign cs).1 sg ∧ cs = sg ++ (sign cs).2 := by
  unfold sign
  split
  · exact ⟨_, .minus, rfl⟩
  · exact ⟨_, .plus, rfl⟩
  · exact ⟨_, .none, rfl⟩

theorem sign_append {negative : Bool} {sg body : List Char} (hs : SignText negative sg)
    (hb : ∀ c ∈ body.head?, c ∉ ['+', '-']) : sign (sg ++ body) = (negative, body) := by
  cases hs with
  | plus => rfl
  | minus => rfl
  | none =>
    rw [List.nil_append]
    unfold sign
    split
    · exact absurd (by simp) (hb '-' rfl)
    · exact absurd (by simp) (hb '+' rfl)
    · rfl

theorem not_sign_of_isDigit {c : Char} (h : isDigit c = true) : c ∉ ['+', '-'] := by
  have hall : ['+', '-'].all (!isDigit ·) = true := by decide
  intro hc
  have hnot := List.all_eq_true.mp hall c hc
  rw [h] at hnot
  cases hnot

theorem exponent_sound (cs : List Char) :
    ∃ es, ScaleText (exponent cs).1 es ∧ cs = es ++ (exponent cs).2 := by
  match cs with
  | [] => exact ⟨_, .none, rfl⟩
  | e :: rest =>
    obtain ⟨sg, hs, hrest⟩ := sign_sound rest
    by_cases he : e = 'e' ∨ e = 'E'
    · by_cases hempty : ((sign rest).2.takeWhile isDigit).isEmpty = true
      · refine ⟨[], ?_, ?_⟩ <;> simp only [exponent, if_pos he, if_pos hempty]
        · exact .none
        · rfl
      · simp only [exponent, if_pos he, if_neg hempty, ofDigits_eq_worth]
        refine ⟨_, .scaled he hs (fun hnil => hempty ?_) (takeWhile_digits _), ?_⟩
        · rw [hnil, List.isEmpty_nil]
        · rw [List.cons_append, List.append_assoc, List.takeWhile_append_dropWhile, ← hrest]
    · refine ⟨[], ?_, ?_⟩ <;> simp only [exponent, if_neg he]
      · exact .none
      · rfl

/-- A text that no numeral goes on with. -/
def Stops (r : List Char) : Prop := ∀ c ∈ r.head?, isDigit c = false ∧ c ∉ ['.', 'e', 'E']

theorem exponent_of_stops {r : List Char} (h : Stops r) : exponent r = (0, r) := by
  unfold exponent
  split
  · rename_i e rest
    have hne : ¬ (e = 'e' ∨ e = 'E') := fun he => (h e rfl).2 (by simpa using .inr he)
    rw [if_neg hne]
  · rfl

theorem exponent_scaled_append {e : Char} {negative : Bool} {sg ds : List Char}
    (he : e = 'e' ∨ e = 'E') (hs : SignText negative sg) (hn : ds ≠ [])
    (hd : ∀ c ∈ ds, isDigit c = true) (r : List Char) :
    exponent (e :: (sg ++ ds) ++ r) =
      (signedWorth negative (ds ++ r.takeWhile isDigit), r.dropWhile isDigit) := by
  have hsign : sign (sg ++ ds ++ r) = (negative, ds ++ r) := by
    rw [List.append_assoc]
    refine sign_append hs fun c hc => ?_
    obtain ⟨d, ds, rfl⟩ := List.exists_cons_of_ne_nil hn
    obtain rfl : d = c := by simpa using hc
    exact not_sign_of_isDigit (hd d (by simp))
  have hrun : (ds ++ r.takeWhile isDigit).isEmpty = false := by simp [hn]
  rw [List.cons_append, exponent, if_pos he, hsign]
  simp only [List.takeWhile_append_of_pos hd, List.dropWhile_append_of_pos hd, hrun,
    Bool.false_eq_true, if_false, ofDigits_eq_worth, signedWorth]

theorem exponent_append {e : Int} {es : List Char} (h : ScaleText e es) (r : List Char) :
    (exponent (es ++ r)).2.length ≤ r.length ∧ (Stops r → exponent (es ++ r) = (e, r)) := by
  cases h with
  | none =>
    obtain ⟨es, -, hr⟩ := exponent_sound r
    refine ⟨?_, exponent_of_stops⟩
    have hlength := congrArg List.length hr
    rw [List.length_append] at hlength
    rw [List.nil_append]
    omega
  | scaled he hs hn hd =>
    rw [exponent_scaled_append he hs hn hd]
    refine ⟨length_dropWhile_le r, fun hr => ?_⟩
    have hnone : ∀ c ∈ ([] : List Char), isDigit c = true := by simp
    obtain ⟨htake, hdrop⟩ := span_digits hnone fun c hc => (hr c hc).1
    rw [List.nil_append] at htake hdrop
    rw [htake, hdrop, List.append_nil]

theorem Ends.of_stops {r : List Char} (h : Stops r) (ms : List Char) : Ends ms r := by
  intro c hc
  obtain ⟨hdigit, hne⟩ := h c hc
  exact ⟨hdigit, fun hpoint => absurd (by simp [hpoint]) hne⟩

theorem Ends.of_letter {e : Char} (he : e = 'e' ∨ e = 'E') (ms r : List Char) :
    Ends ms (e :: r) := by
  intro c hc
  obtain rfl : e = c := by simpa using hc
  rcases he with rfl | rfl
  · exact ⟨by decide, fun h => absurd h (by decide)⟩
  · exact ⟨by decide, fun h => absurd h (by decide)⟩

namespace MantissaText

variable {whole fraction ms : List Char}

theorem exists_head (h : MantissaText whole fraction ms) :
    ∃ c cs, ms = c :: cs ∧ (isDigit c = true ∨ c = '.') := by
  cases h with
  | whole hn hd =>
    obtain ⟨c, cs, rfl⟩ := List.exists_cons_of_ne_nil hn
    exact ⟨c, cs, rfl, .inl (hd c (by simp))⟩
  | pointed hn hd _ =>
    obtain ⟨c, cs, rfl⟩ := List.exists_cons_of_ne_nil hn
    exact ⟨c, _, rfl, .inl (hd c (by simp))⟩
  | fraction => exact ⟨'.', _, rfl, .inr rfl⟩

/-- A mantissa at the start of a text goes on as far as it can. -/
theorem extend (h : MantissaText whole fraction ms) (r : List Char) :
    ∃ whole' fraction' ms' r', MantissaText whole' fraction' ms' ∧ ms ++ r = ms' ++ r' ∧
      r'.length ≤ r.length ∧ Ends ms' r' := by
  obtain ⟨ds, r, rfl, hds, hr⟩ := exists_span r
  have happend {es : List Char} (he : ∀ c ∈ es, isDigit c = true) :
      ∀ c ∈ es ++ ds, isDigit c = true := List.forall_mem_append.mpr ⟨he, hds⟩
  cases h with
  | pointed hn hd hf =>
    exact ⟨whole, fraction ++ ds, _, r, .pointed hn hd (happend hf), by simp, by simp,
      fun c hc => ⟨hr c hc, by simp⟩⟩
  | fraction hn hf =>
    exact ⟨[], fraction ++ ds, _, r, .fraction (by simp [hn]) (happend hf), by simp, by simp,
      fun c hc => ⟨hr c hc, by simp⟩⟩
  | whole hn hd =>
    by_cases hpoint : '.' ∈ r.head?
    · obtain ⟨r, rfl⟩ := List.head?_eq_some_iff.mp hpoint
      obtain ⟨fs, r, rfl, hfs, hr'⟩ := exists_span r
      refine ⟨whole ++ ds, fs, _, r, .pointed (by simp [hn]) (happend hd) hfs, by simp, ?_,
        fun c hc => ⟨hr' c hc, by simp⟩⟩
      simp only [List.length_append, List.length_cons]
      omega
    · exact ⟨whole ++ ds, [], _, r, .whole (by simp [hn]) (happend hd), by simp, by simp,
        fun c hc => ⟨hr c hc, fun h => absurd (h ▸ hc) hpoint⟩⟩

end MantissaText

/-- A text that starts with no mantissa has no decimal. -/
theorem exists_mantissa {cs : List Char} (h : decimal? cs ≠ none) :
    ∃ whole fraction ms r, MantissaText whole fraction ms ∧ cs = ms ++ r ∧ Ends ms r := by
  obtain ⟨ds, r, rfl, hds, hr⟩ := exists_span cs
  by_cases hn : ds = []
  · subst hn
    by_cases hpoint : '.' ∈ r.head?
    · obtain ⟨r, rfl⟩ := List.head?_eq_some_iff.mp hpoint
      obtain ⟨fs, r, rfl, hfs, hr'⟩ := exists_span r
      refine ⟨[], fs, _, r, .fraction (fun hempty => h ?_) hfs, by simp,
        fun c hc => ⟨hr' c hc, by simp⟩⟩
      subst hempty
      obtain ⟨hftake, -⟩ := span_digits hfs hr'
      obtain ⟨htake, hdrop⟩ := span_digits hds hr
      rw [decimal?, htake, hdrop]
      simp only [hftake, List.isEmpty_nil, Bool.and_self, if_true]
    · refine absurd ?_ h
      obtain ⟨htake, hdrop⟩ := span_digits hds hr
      rw [decimal?, htake, hdrop]
      cases r with
      | nil => rfl
      | cons c r =>
        have hc : c ≠ '.' := fun hc => hpoint (by simp [hc])
        simp [hc]
  · obtain ⟨whole, fraction, ms, r', hm, heq, -, hends⟩ := (MantissaText.whole hn hds).extend r
    exact ⟨whole, fraction, ms, r', hm, heq, hends⟩

variable {p q r rest cs : List Char} {x : Double}

theorem value_eq (whole fraction : List Char) (e : Int) :
    Decimal.value ⟨ofDigits (whole ++ fraction), e - fraction.length⟩ =
      (worth whole + worth fraction / 10 ^ fraction.length) * 10 ^ e := by
  have hpow : (10 : ℚ) ^ fraction.length ≠ 0 := by positivity
  rw [Decimal.value, ofDigits_eq_worth, worth_append, zpow_sub₀ (by norm_num), zpow_natCast]
  push_cast
  field_simp

theorem decimal?_sound {d : Decimal} (h : decimal? cs = some (d, rest)) :
    ∃ whole fraction ms e es, MantissaText whole fraction ms ∧ ScaleText e es ∧
      cs = ms ++ (es ++ rest) ∧
      d.value = (worth whole + worth fraction / 10 ^ fraction.length) * 10 ^ e := by
  obtain ⟨whole, fraction, ms, r, hm, rfl, hends⟩ := exists_mantissa (by rw [h]; simp)
  rw [hm.decimal?_append hends, Option.some.injEq, Prod.mk.injEq] at h
  obtain ⟨rfl, rfl⟩ := h
  obtain ⟨es, he, hr⟩ := exponent_sound r
  exact ⟨whole, fraction, ms, _, es, hm, he, by rw [← hr], value_eq ..⟩

theorem decimal?_complete {whole fraction ms es : List Char} {e : Int}
    (hm : MantissaText whole fraction ms) (he : ScaleText e es) (hr : Stops r) :
    decimal? (ms ++ (es ++ r)) =
      some (⟨ofDigits (whole ++ fraction), e - fraction.length⟩, r) := by
  have hends : Ends ms (es ++ r) := by
    cases he with
    | none => exact .of_stops hr ms
    | scaled he => exact .of_letter he ms _
  rw [hm.decimal?_append hends, (exponent_append he r).2 hr]

/-- A decimal that a text starts with is read, or a longer one. -/
theorem decimal?_longest {whole fraction ms es : List Char} {e : Int}
    (hm : MantissaText whole fraction ms) (he : ScaleText e es) (r : List Char) :
    ∃ d rest, decimal? (ms ++ (es ++ r)) = some (d, rest) ∧ rest.length ≤ r.length := by
  cases he with
  | none =>
    obtain ⟨whole', fraction', ms', r', hm', heq, hle, hends⟩ := hm.extend r
    have hd := hm'.decimal?_append hends
    rw [← heq] at hd
    exact ⟨_, _, hd, (exponent_append .none r').1.trans hle⟩
  | scaled he hs hn hd =>
    exact ⟨_, _, hm.decimal?_append (.of_letter he ms _),
      (exponent_append (.scaled he hs hn hd) r).1⟩

theorem infinityWord_isPrefixOf_mantissa {whole fraction ms : List Char}
    (hm : MantissaText whole fraction ms) (r : List Char) :
    infinityWord.isPrefixOf (ms ++ r) = false := by
  have hletters : infinityWord = 'I' :: "nfinity".toList := by decide +kernel
  obtain ⟨c, cs, rfl, hc⟩ := hm.exists_head
  have hne : ('I' == c) = false := by
    rw [beq_eq_false_iff_ne]
    rintro rfl
    revert hc
    decide
  rw [hletters, List.cons_append, List.isPrefixOf, hne, Bool.false_and]

theorem sign_mantissa {negative : Bool} {sg whole fraction ms : List Char}
    (hs : SignText negative sg) (hm : MantissaText whole fraction ms) (r : List Char) :
    sign (sg ++ (ms ++ r)) = (negative, ms ++ r) := by
  refine sign_append hs fun c hc => ?_
  obtain ⟨d, ds, rfl, hd⟩ := hm.exists_head
  obtain rfl : d = c := by simpa using hc
  rcases hd with hd | rfl
  · exact not_sign_of_isDigit hd
  · decide

theorem read?_infinity {negative : Bool} {sg : List Char} (hs : SignText negative sg)
    (r : List Char) : read? (sg ++ infinityWord ++ r) = some (.infinite negative, r) := by
  have hsign : sign (sg ++ (infinityWord ++ r)) = (negative, infinityWord ++ r) := by
    refine sign_append hs fun c hc => ?_
    have hletters : infinityWord = 'I' :: "nfinity".toList := by decide +kernel
    rw [hletters] at hc
    obtain rfl : 'I' = c := by simpa using hc
    decide
  have hstart : infinityWord.isPrefixOf (infinityWord ++ r) = true :=
    List.isPrefixOf_iff_prefix.mpr (List.prefix_append _ _)
  rw [List.append_assoc, read?, hsign]
  simp only [hstart, if_true, List.drop_left]

/-- What is read is a numeral that the text starts with. -/
theorem read?_sound (h : read? cs = some (x, rest)) : ∃ p, cs = p ++ rest ∧ Reads p x := by
  obtain ⟨sg, hs, hcs⟩ := sign_sound cs
  simp only [read?] at h
  split_ifs at h with hstart
  · obtain ⟨r, hr⟩ := List.isPrefixOf_iff_prefix.mp hstart
    rw [Option.some.injEq, Prod.mk.injEq, ← hr, List.drop_left] at h
    obtain ⟨rfl, rfl⟩ := h
    exact ⟨sg ++ infinityWord, by rw [List.append_assoc, hr, ← hcs], .infinite (.infinity hs)⟩
  · obtain ⟨⟨d, rest'⟩, hd, heq⟩ := Option.map_eq_some_iff.mp h
    rw [Prod.mk.injEq] at heq
    obtain ⟨rfl, rfl⟩ := heq
    obtain ⟨whole, fraction, ms, e, es, hm, he, hbody, hvalue⟩ := decimal?_sound hd
    refine ⟨sg ++ (ms ++ es), ?_, .finite (.decimal hs hm he) ?_⟩
    · rw [List.append_assoc, List.append_assoc, ← hbody, ← hcs]
    · rw [← hvalue, Decimal.nearest_iff]

/-- A numeral is read up to its end if nothing that a numeral could go on with follows. -/
theorem read?_complete (h : Reads p x) (hr : Stops r) : read? (p ++ r) = some (x, r) := by
  cases h with
  | infinite h =>
    cases h with
    | infinity hs => exact read?_infinity hs r
  | finite h hx =>
    cases h with
    | decimal hs hm he =>
      rw [← value_eq, Decimal.nearest_iff] at hx
      have hword := infinityWord_isPrefixOf_mantissa hm
      rw [List.append_assoc, List.append_assoc, read?, sign_mantissa hs hm]
      simp only [hword, Bool.false_eq_true, if_false, decimal?_complete hm he hr, Option.map_some,
        hx]

/-- A numeral that a text starts with is read, or a longer one. -/
theorem read?_longest (h : IsNumeral q) (r : List Char) :
    ∃ x rest, read? (q ++ r) = some (x, rest) ∧ rest.length ≤ r.length := by
  obtain ⟨negative, size, h⟩ := h
  cases h with
  | infinity hs => exact ⟨_, r, read?_infinity hs r, Nat.le_refl _⟩
  | decimal hs hm he =>
    obtain ⟨d, rest, hd, hle⟩ := decimal?_longest hm he r
    refine ⟨d.toDouble negative, rest, ?_, hle⟩
    have hword := infinityWord_isPrefixOf_mantissa hm
    rw [List.append_assoc, List.append_assoc, read?, sign_mantissa hs hm]
    simp only [hword, Bool.false_eq_true, if_false, hd, Option.map_some]

theorem stops_nil : Stops [] := by simp [Stops]

/-- A numeral is read as one double. -/
theorem Reads.iff_eq (h : Reads p x) (z : Double) : Reads p z ↔ z = x := by
  refine ⟨fun hz => ?_, fun hz => hz ▸ h⟩
  have hread := (read?_complete hz stops_nil).symm.trans (read?_complete h stops_nil)
  rw [Option.some.injEq, Prod.mk.injEq] at hread
  exact hread.1

theorem IsNumeral.exists_reads (h : IsNumeral p) : ∃ x, Reads p x := by
  obtain ⟨x, rest, hread, hle⟩ := read?_longest h []
  obtain ⟨q, hq, hreads⟩ := read?_sound hread
  rw [List.eq_nil_of_length_eq_zero (Nat.le_zero.mp hle), List.append_nil, List.append_nil] at hq
  exact ⟨x, hq ▸ hreads⟩

theorem ofWhole?_eq_some_iff : ofWhole? p = some x ↔ Reads p x := by
  constructor
  · intro h
    unfold ofWhole? at h
    split at h
    · rename_i z hread
      obtain ⟨q, hq, hreads⟩ := read?_sound hread
      rw [List.append_nil] at hq
      rw [← Option.some.inj h, hq]
      exact hreads
    · cases h
  · intro h
    have hread := read?_complete h stops_nil
    rw [List.append_nil] at hread
    rw [ofWhole?, hread]

end Numeral
end Script
