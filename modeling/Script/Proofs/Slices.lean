import Script.Proofs.CodePoints
import Script.Proofs.NearestEven
import Script.Proofs.NumberTexts
import Mathlib.Data.List.DropRight
import Mathlib.Data.Rat.Floor

/-!
# Slices and pieces of strings

A number beside a string counts characters: those to leave out at one end, those to keep, or how
often the string is repeated. A string beside a string is cut out where it first occurs. Division
takes a string to pieces: to pairs of characters, to single ones, or to what stands between the
occurrences of a separator.
-/
namespace Script

open Text (Code CutAround TwoByTwo Stripped Separated)

namespace Double

/-- The number that a double is; one that is not finite counts as zero. -/
def value : Double → ℚ
  | .finite negative m => if negative then -m.value else m.value
  | _ => 0

theorem floor_value (m : Magnitude) : ⌊m.value⌋ = (m.units / Magnitude.one : ℕ) := by
  rw [Magnitude.value, Rat.floor_natCast_div_natCast, Int.natCast_div]

/-- The whole part of a number is what is left when it is cut toward zero. -/
theorem truncate_eq (x : Double) :
    x.truncate = if 0 ≤ x.value then ⌊x.value⌋ else ⌈x.value⌉ := by
  match x with
  | .nan | .infinite _ => simp [truncate, value]
  | .finite false m =>
    have hpos : 0 ≤ m.value := div_nonneg (Nat.cast_nonneg _) (Nat.cast_nonneg _)
    simp [truncate, value, hpos, floor_value]
  | .finite true m =>
    have hpos : 0 ≤ m.value := div_nonneg (Nat.cast_nonneg _) (Nat.cast_nonneg _)
    simp only [truncate, value, if_true, ← floor_value, Int.ceil_neg, Left.nonneg_neg_iff]
    split_ifs with hzero
    · rw [le_antisymm hzero hpos, neg_zero, Int.floor_zero, neg_zero]
    · rfl

theorem truncate_unsigned (x : Double) : x.unsigned.truncate = x.truncate := by
  match x with
  | .nan | .infinite _ => rfl
  | .finite negative m =>
    rw [unsigned_finite]
    by_cases hm : m.units = 0
    · simp [truncate, hm]
    · simp [truncate, hm]

theorem truncate_ofInt {i : Int} (hi : i.natAbs ≤ 2 ^ 53) : (ofInt i).truncate = i := by
  obtain ⟨m, hm, hunits⟩ := exists_ofInt hi
  have hwhole : m.units / Magnitude.one = i.natAbs := by
    rw [hunits, Nat.mul_div_cancel _ Magnitude.one_pos]
  rw [hm]
  simp only [truncate, hwhole, decide_eq_true_eq]
  split_ifs <;> omega

end Double

namespace Value

def Counts (b : Value) (n : Int) : Prop := (∃ text, b = .number text) ∧ b.toInt = .ok n

theorem counts_of_literal? {text : String} {x : Double} (h : Numeral.literal? text = some x) :
    (Value.number text).Counts x.truncate :=
  ⟨⟨text, rfl⟩, by simp [toInt, toDouble, readNumber, h]⟩

theorem counts_ofInt {i : Int} (hi : i.natAbs ≤ 2 ^ 53) : (ofDouble (.ofInt i)).Counts i := by
  have h := counts_of_literal? (Numeral.literal?_format_eq (.ofInt i))
  rwa [Double.truncate_unsigned, Double.truncate_ofInt hi] at h

end Value

namespace Operator

open Value

variable (i : Identity) (s t : List Code) {a b c : Value} {m n : Int}

theorem minus_count (hb : b.Counts n) : apply i "-" (ofCodes s) b = .ok (ofCodes
    (if n = 0 then s
    else if 0 < n then s.take (s.length - n.toNat) else s.take (min (-n).toNat s.length))) := by
  obtain ⟨⟨text, rfl⟩, hn⟩ := hb
  refine (subtract_count s hn).trans ?_
  have hkeep : s.take (-n).toNat = s.take (min (-n).toNat s.length) := List.take_eq_take_min
  rw [dropLast, hkeep]

theorem count_minus (hb : b.Counts n) : apply i "-" b (ofCodes s) = .ok (ofCodes
    (if 0 ≤ n then s.drop (min n.toNat s.length) else s.rtake (min (-n).toNat s.length))) := by
  obtain ⟨⟨text, rfl⟩, hn⟩ := hb
  refine (subtract_from_count s hn).trans ?_
  have hdrop : s.drop n.toNat = s.drop (min n.toNat s.length) := List.drop_eq_drop_min
  have hlast : s.length - (-n).toNat = s.length - min (-n).toNat s.length := by omega
  rw [dropFirst, hdrop, hlast, List.rtake]

/-- Copies that are few enough and make a string that is short enough. -/
theorem times_count (hb : b.Counts n) (hn : n < 2 ^ 63) (hfit : s.length * n.toNat < 2 ^ 63) :
    apply i "*" (ofCodes s) b = .ok (ofCodes (List.replicate n.toNat s).flatten) := by
  obtain ⟨⟨text, rfl⟩, hcount⟩ := hb
  have hlimit : Content.copyLimit = 2 ^ 63 := by decide
  have hcopies : Content.copiesFit n.toNat s.length = .ok () := by
    rw [Content.copiesFit, if_neg (by omega)]
  refine (multiply_count s hcount).trans ?_
  rw [hcopies]
  rfl

theorem times_count_refused (hb : b.Counts n)
    (hlong : 2 ^ 63 ≤ n ∨ 2 ^ 63 ≤ s.length * n.toNat) :
    apply i "*" (ofCodes s) b = .error (@Fault.tooManyCopies n.toNat s.length) := by
  obtain ⟨⟨text, rfl⟩, hcount⟩ := hb
  have hlimit : Content.copyLimit = 2 ^ 63 := by decide
  have hcopies : Content.copiesFit n.toNat s.length =
      .error (@Fault.tooManyCopies n.toNat s.length) := by
    rw [Content.copiesFit, if_pos (by omega)]
  refine (multiply_count s hcount).trans ?_
  rw [hcopies]
  rfl

theorem times_sum (ha : a.Counts m) (hb : b.Counts n) (hc : c.Counts (m + n)) (hm : 0 ≤ m)
    (hn : 0 ≤ n) (hcount : m + n < 2 ^ 63) (hfit : s.length * (m + n).toNat < 2 ^ 63) :
    apply i "*" (ofCodes s) c =
      (do apply i "+" (← apply i "*" (ofCodes s) a) (← apply i "*" (ofCodes s) b)) := by
  have hsum : (m + n).toNat = m.toNat + n.toNat := by omega
  rw [hsum, Nat.mul_add] at hfit
  rw [times_count i s hc hcount (by rwa [hsum, Nat.mul_add]),
    times_count i s ha (by omega) (by omega), times_count i s hb (by omega) (by omega), hsum,
    List.replicate_add, List.flatten_append]
  exact (add_texts _ _).symm

theorem front_and_last (hb : b.Counts n) (hc : c.Counts (-n)) (hn : 1 ≤ n) (hle : n ≤ s.length) :
    (do apply i "+" (← apply i "-" (ofCodes s) b) (← apply i "-" c (ofCodes s))) =
      .ok (ofCodes s) := by
  rw [minus_count i s hb, count_minus i s hc, if_neg (by omega), if_pos (by omega),
    if_neg (by omega), List.rtake]
  refine (add_texts _ _).trans ?_
  have hcut : s.length - min (- -n).toNat s.length = s.length - n.toNat := by omega
  rw [hcut, List.take_append_drop]

theorem front_and_rest {k : Nat} (hb : b.Counts (s.length - k)) (hc : c.Counts k)
    (hk : k ≤ s.length) :
    (do apply i "+" (← apply i "-" (ofCodes s) b) (← apply i "-" c (ofCodes s))) =
      .ok (ofCodes s) := by
  have hdrop : min (k : Int).toNat s.length = k := by omega
  rw [minus_count i s hb, count_minus i s hc, if_pos (Int.natCast_nonneg k), hdrop]
  refine (add_texts _ _).trans ?_
  rcases hk.lt_or_eq with hlt | rfl
  · have htake : s.length - ((s.length : Int) - k).toNat = k := by omega
    rw [if_neg (by omega), if_pos (by omega), htake, List.take_append_drop]
  · rw [if_pos (by omega), List.drop_length, List.append_nil]

theorem minus_text_of_infix (h : t <:+: s) : ∃ p q, CutAround t s p q ∧
    apply i "-" (ofCodes s) (ofCodes t) = .ok (ofCodes (p ++ q)) := by
  rcases Text.eraseFirst_cases t s with ⟨p, q, herase, haround⟩ | ⟨-, hnot⟩
  · refine ⟨p, q, haround, (subtract_text s t).trans ?_⟩
    rw [herase]
  · exact absurd h hnot

theorem minus_text_of_not_infix (h : ¬ t <:+: s) :
    apply i "-" (ofCodes s) (ofCodes t) = .ok (ofCodes s) := by
  rcases Text.eraseFirst_cases t s with ⟨p, q, -, haround⟩ | ⟨herase, -⟩
  · exact absurd ⟨p, q, haround.joined.symm⟩ h
  · refine (subtract_text s t).trans ?_
    rw [herase]

/-- A string that is put behind another and cut out again leaves one of the same length, though it
may have occurred before. -/
theorem plus_minus_text : ∃ u : List Code, u.length = s.length ∧
    (do apply i "-" (← apply i "+" (ofCodes s) (ofCodes t)) (ofCodes t)) = .ok (ofCodes u) := by
  obtain ⟨p, q, haround, happly⟩ :=
    minus_text_of_infix i (s ++ t) t (List.suffix_append s t).isInfix
  refine ⟨p ++ q, ?_, ?_⟩
  · have hlength := congrArg List.length haround.joined
    simp only [List.length_append] at hlength ⊢
    omega
  · have hplus : apply i "+" (ofCodes s) (ofCodes t) = .ok (ofCodes (s ++ t)) := add_texts s t
    rw [hplus]
    exact happly

/-- Slices of strings by numbers and by strings, and the laws that follow. -/
theorem slices_of_strings :
    -- what numbers count
    (∀ text x, Numeral.literal? text = some x →
      (Value.number text).Counts (if 0 ≤ x.value then ⌊x.value⌋ else ⌈x.value⌉)) ∧
    (∀ n : Int, n.natAbs ≤ 2 ^ 53 → (ofDouble (.ofInt n)).Counts n) ∧
    -- a string and a number
    (∀ b n, b.Counts n →
      apply i "-" (ofCodes s) b = .ok (ofCodes
        (if n = 0 then s
        else if 0 < n then s.take (s.length - n.toNat) else s.take (min (-n).toNat s.length))) ∧
      apply i "-" b (ofCodes s) = .ok (ofCodes
        (if 0 ≤ n then s.drop (min n.toNat s.length) else s.rtake (min (-n).toNat s.length))) ∧
      (n < 2 ^ 63 → s.length * n.toNat < 2 ^ 63 →
        apply i "*" (ofCodes s) b = .ok (ofCodes (List.replicate n.toNat s).flatten)) ∧
      (2 ^ 63 ≤ n ∨ 2 ^ 63 ≤ s.length * n.toNat →
        apply i "*" (ofCodes s) b = .error (@Fault.tooManyCopies n.toNat s.length))) ∧
    -- two strings
    (t <:+: s → ∃ p q, CutAround t s p q ∧
      apply i "-" (ofCodes s) (ofCodes t) = .ok (ofCodes (p ++ q))) ∧
    (¬ t <:+: s → apply i "-" (ofCodes s) (ofCodes t) = .ok (ofCodes s)) ∧
    -- laws
    (∀ b c (n : Int), 1 ≤ n → n ≤ s.length → b.Counts n → c.Counts (-n) →
      (do apply i "+" (← apply i "-" (ofCodes s) b) (← apply i "-" c (ofCodes s))) =
        .ok (ofCodes s)) ∧
    (∀ b c (k : Nat), k ≤ s.length → b.Counts (s.length - k) → c.Counts k →
      (do apply i "+" (← apply i "-" (ofCodes s) b) (← apply i "-" c (ofCodes s))) =
        .ok (ofCodes s)) ∧
    (∀ a b c (m n : Int), 0 ≤ m → 0 ≤ n → m + n < 2 ^ 63 →
      s.length * (m + n).toNat < 2 ^ 63 → a.Counts m → b.Counts n → c.Counts (m + n) →
      apply i "*" (ofCodes s) c =
        (do apply i "+" (← apply i "*" (ofCodes s) a) (← apply i "*" (ofCodes s) b))) ∧
    ∃ u : List Code, u.length = s.length ∧
      (do apply i "-" (← apply i "+" (ofCodes s) (ofCodes t)) (ofCodes t)) = .ok (ofCodes u) := by
  refine ⟨fun text x hx => ?_, fun n hn => counts_ofInt hn, fun b n hb =>
    ⟨minus_count i s hb, count_minus i s hb, times_count i s hb, times_count_refused i s hb⟩,
    minus_text_of_infix i s t, minus_text_of_not_infix i s t,
    fun b c n hn hle hb hc => front_and_last i s hb hc hn hle,
    fun b c k hk hb hc => front_and_rest i s hb hc hk,
    fun a b c m n hm hn hcount hfit ha hb hc => times_sum i s ha hb hc hm hn hcount hfit,
    plus_minus_text i s t⟩
  rw [← Double.truncate_eq]
  exact counts_of_literal? hx

theorem counts_of_truncate {text : String} {k : Int}
    (h : (Numeral.literal? text).map Double.truncate = some k) : (Value.number text).Counts k := by
  obtain ⟨x, hx, rfl⟩ := Option.map_eq_some_iff.mp h
  exact counts_of_literal? hx

/-- Fewer than `2 ^ 63` copies may make too long a string, and the empty string can be repeated
`2 ^ 62` times and joined with itself, but not repeated `2 ^ 63` times. -/
theorem copies_refused_by_length_and_sum :
    let half : Value := .number "4611686018427387904"
    let all : Value := .number "9223372036854775808"
    (half.Counts (2 ^ 62) ∧ apply 0 "*" (.ofText "ab") half =
      .error (@Fault.tooManyCopies (2 ^ 62) 2)) ∧
    all.Counts (2 ^ 62 + 2 ^ 62) ∧
      apply 0 "*" (.ofText "") all = .error (@Fault.tooManyCopies (2 ^ 63) 0) ∧
      (do apply 0 "+" (← apply 0 "*" (.ofText "") half) (← apply 0 "*" (.ofText "") half)) =
        .ok (.ofText "") := by
  intro half all
  have hhalf : half.Counts (2 ^ 62) := counts_of_truncate (by decide +kernel)
  have hall : all.Counts (2 ^ 63) := counts_of_truncate (by decide +kernel)
  have hempty : apply 0 "*" (ofCodes []) half = .ok (ofCodes []) := by
    have h := times_count 0 [] hhalf (by decide) (by decide)
    rwa [List.flatten_replicate_nil] at h
  have htexts : Value.ofText "ab" = ofCodes [.char 'a', .char 'b'] ∧ Value.ofText "" = ofCodes [] :=
    ⟨rfl, rfl⟩
  rw [htexts.1, htexts.2, hempty]
  refine ⟨⟨hhalf, times_count_refused 0 _ hhalf (.inr (by decide))⟩, hall,
    times_count_refused 0 [] hall (.inl (by decide)), ?_⟩
  exact add_texts [] []

theorem over_number (b : String) : ∃ ps : List (List Code),
    apply i "/" (ofCodes s) (.number b) = .ok (.array i (ps.map ofCodes)) ∧
      ps.flatten = s ∧ TwoByTwo ps ∧ (ps = [] ↔ s = []) :=
  ⟨Text.pairs s, divide_count s i b, Text.flatten_pairs s, Text.pairs_twoByTwo s,
    Text.pairs_eq_nil⟩

theorem over_text (ht : t ≠ []) : ∃ ps : List (List Code),
    apply i "/" (ofCodes s) (ofCodes t) = .ok (.array i (ps.map ofCodes)) ∧
      (∀ p ∈ ps, p ≠ [] ∧ ¬ t <:+: p) ∧ Stripped t s ps.flatten ∧ Separated t ps s := by
  have hsplits := Text.splitOn_splits ht s
  refine ⟨Content.pieces t s, divide_text s t i ht, fun p hp => ?_, ?_, hsplits.separated⟩
  · obtain ⟨hmem, hset⟩ := List.mem_filter.mp hp
    exact ⟨by simpa using hset, hsplits.not_infix ht p hmem⟩
  · rw [Content.pieces, List.flatten_filter_not_isEmpty]
    exact hsplits.stripped

/-- Division loses nothing of a string but separators and empty pieces. -/
theorem pieces_of_strings :
    (∀ b : String, ∃ ps : List (List Code),
      apply i "/" (ofCodes s) (.number b) = .ok (.array i (ps.map ofCodes)) ∧
        ps.flatten = s ∧ TwoByTwo ps ∧ (ps = [] ↔ s = [])) ∧
    apply i "/" (ofCodes s) (ofCodes []) = .ok (.array i (s.map fun c => ofCodes [c])) ∧
    (t ≠ [] → ∃ ps : List (List Code),
      apply i "/" (ofCodes s) (ofCodes t) = .ok (.array i (ps.map ofCodes)) ∧
        (∀ p ∈ ps, p ≠ [] ∧ ¬ t <:+: p) ∧ Stripped t s ps.flatten ∧ Separated t ps s) :=
  ⟨over_number i s, divide_empty s i, over_text i s t⟩

end Operator
end Script
