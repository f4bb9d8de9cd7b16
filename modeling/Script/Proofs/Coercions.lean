import Script.Proofs.CodePoints
import Script.Proofs.NumberTexts
import Script.Proofs.Prefixes
import Mathlib.Data.List.DropRight

/-!
# Strings as numbers

Ordering sees in a string the longest numeral that it starts with, behind blanks. The library makes
a number of a string only if it is a numeral from end to end, blanks around it aside. Where both
see a number, they see the same one.
-/
namespace Script

open Text (Code)
open Numeral (IsNumeral Reads Stops)

namespace Text.Code

theorem leading_cons_char (c : Char) (cs : List Code) :
    leading (.char c :: cs) = c :: leading cs := by simp [leading, char?]

theorem leading_cons_half (distance : Fin 0x800) (cs : List Code) :
    leading (.half distance :: cs) = [] := by simp [leading, char?]

theorem leading_map_char_append (chars : List Char) (cs : List Code) :
    leading (chars.map .char ++ cs) = chars ++ leading cs := by
  induction chars with
  | nil => rfl
  | cons c chars ih => rw [List.map_cons, List.cons_append, leading_cons_char, ih, List.cons_append]

theorem leading_map_char (chars : List Char) : leading (chars.map .char) = chars := by
  simpa [leading] using leading_map_char_append chars []

/-- The characters that a text starts with are among its leading ones. -/
theorem map_char_prefix_iff (p : List Char) (cs : List Code) :
    p.map .char <+: cs ↔ p <+: leading cs := by
  induction p generalizing cs with
  | nil => simp
  | cons c p ih =>
    match cs with
    | [] => simp [leading]
    | .half distance :: cs => simp [leading_cons_half]
    | .char d :: cs => simp [leading_cons_char, List.cons_prefix_cons, ih]

theorem trimLeft_leading (cs : List Code) :
    Text.trimLeft (leading cs) = leading (cs.dropWhile isBlank) := by
  induction cs with
  | nil => rfl
  | cons c cs ih =>
    cases c with
    | half distance => simp [leading_cons_half, isBlank, Text.trimLeft]
    | char c =>
      have hblank : isBlank (.char c) = Text.isBlank c := rfl
      rw [leading_cons_char, Text.trimLeft, List.dropWhile_cons, List.dropWhile_cons, hblank]
      split_ifs
      · exact ih
      · rw [leading_cons_char]

def strip (cs : List Code) : List Code := (cs.dropWhile isBlank).rdropWhile isBlank

variable {u v cs : List Code}

theorem strip_append (hu : ∀ c ∈ u, isBlank c = true) (hv : ∀ c ∈ v, isBlank c = true) :
    strip (u ++ cs ++ v) = strip cs := by
  have hright (ds : List Code) : (ds ++ v).rdropWhile isBlank = ds.rdropWhile isBlank := by
    have hv' : ∀ c ∈ v.reverse, isBlank c = true := fun c hc => hv c (List.mem_reverse.mp hc)
    rw [List.rdropWhile, List.reverse_append, List.dropWhile_append_of_pos hv', List.rdropWhile]
  rw [strip, List.append_assoc, List.dropWhile_append_of_pos hu, List.dropWhile_append, strip]
  split_ifs with h
  · rw [List.isEmpty_iff.mp h, List.dropWhile_eq_nil_iff.mpr hv]
  · exact hright _

/-- A text goes on with blanks behind what is left of it. -/
theorem exists_dropWhile_eq (cs : List Code) :
    ∃ v, (∀ c ∈ v, isBlank c = true) ∧ cs.dropWhile isBlank = strip cs ++ v :=
  ⟨_, fun _ hc => List.mem_rtakeWhile_imp hc, (List.rdropWhile_append_rtakeWhile ..).symm⟩

/-- What is left of a text stands between blanks. -/
theorem exists_strip (cs : List Code) : ∃ u v, (∀ c ∈ u, isBlank c = true) ∧
    (∀ c ∈ v, isBlank c = true) ∧ cs = u ++ strip cs ++ v := by
  obtain ⟨v, hv, hdrop⟩ := exists_dropWhile_eq cs
  refine ⟨cs.takeWhile isBlank, v, fun _ hc => List.mem_takeWhile_imp hc, hv, ?_⟩
  rw [List.append_assoc, ← hdrop, List.takeWhile_append_dropWhile]

theorem strip_eq_nil_iff : strip cs = [] ↔ ∀ c ∈ cs, isBlank c = true := by
  constructor
  · intro h
    obtain ⟨u, v, hu, hv, hcs⟩ := exists_strip cs
    rw [h, List.append_nil] at hcs
    rw [hcs]
    exact List.forall_mem_append.mpr ⟨hu, hv⟩
  · intro h
    have hstrip : strip (cs ++ [] ++ []) = strip [] := strip_append h (by simp)
    simpa [strip] using hstrip

theorem strip_map_char (chars : List Char) :
    strip (chars.map .char) = (Text.trim chars).map .char := by
  have hblank : isBlank ∘ Code.char = Text.isBlank := rfl
  rw [strip, List.rdropWhile, List.dropWhile_map, hblank, ← List.map_reverse, List.dropWhile_map,
    hblank, ← List.map_reverse]
  rfl

theorem exists_char_of_isBlank {c : Code} (h : isBlank c = true) :
    ∃ d, c = .char d ∧ Text.isBlank d = true := by
  cases c with
  | char d => exact ⟨d, rfl, h⟩
  | half distance => cases h

theorem exists_chars_of_blank (h : ∀ c ∈ cs, isBlank c = true) :
    ∃ chars : List Char, cs = chars.map .char ∧ ∀ c ∈ chars, Text.isBlank c = true := by
  induction cs with
  | nil => exact ⟨[], rfl, by simp⟩
  | cons c cs ih =>
    obtain ⟨hc, hcs⟩ := List.forall_mem_cons.mp h
    obtain ⟨d, rfl, hd⟩ := exists_char_of_isBlank hc
    obtain ⟨chars, rfl, hchars⟩ := ih hcs
    exact ⟨d :: chars, rfl, List.forall_mem_cons.mpr ⟨hd, hchars⟩⟩

/-- Blanks are characters, so half of a surrogate pair is never stripped. -/
theorem exists_chars_of_strip {p : List Char} (h : strip cs = p.map .char) :
    ∃ chars : List Char, cs = chars.map .char := by
  obtain ⟨u, v, hu, hv, hcs⟩ := exists_strip cs
  obtain ⟨chars, rfl, -⟩ := exists_chars_of_blank hu
  obtain ⟨chars', rfl, -⟩ := exists_chars_of_blank hv
  exact ⟨chars ++ p ++ chars', by rw [hcs, h, List.map_append, List.map_append]⟩

end Text.Code

theorem Text.not_isDigit_of_isBlank {c : Char} (h : Text.isBlank c = true) :
    Text.isDigit c = false := by
  have hzeros : Text.zeros.all (fun n => 32 < n && (n + 10 ≤ 0x85 || 0xa0 < n) &&
      (n + 10 ≤ 0x1680 || 0x1680 < n) && (n + 10 ≤ 0x2000 || 0x3000 < n)) = true := by decide
  rw [Text.isDigit, Text.digit?, Option.isSome_map, Bool.eq_false_iff, Ne, List.find?_isSome]
  rintro ⟨n, hn, hc⟩
  have hrun := List.all_eq_true.mp hzeros n hn
  simp only [Text.isBlank, Bool.or_eq_true, Bool.and_eq_true, decide_eq_true_eq, beq_iff_eq]
    at h hc hrun
  omega

theorem Numeral.stops_of_blank {cs : List Char} (h : ∀ c ∈ cs, Text.isBlank c = true) :
    Stops cs := by
  intro c hc
  have hblank := h c (List.mem_of_mem_head? hc)
  refine ⟨Text.not_isDigit_of_isBlank hblank, fun hmem => ?_⟩
  have hall : ['.', 'e', 'E'].all (!Text.isBlank ·) = true := by decide
  have hnot := List.all_eq_true.mp hall c hmem
  rw [hblank] at hnot
  cases hnot

/-- The longest numeral that a text starts with. -/
structure LongestNumeral (p : List Char) (cs : List Code) : Prop where
  numeral : IsNumeral p
  at_start : p.map .char <+: cs
  longest : ∀ {q}, IsNumeral q → q.map .char <+: cs → q.length ≤ p.length

namespace Value

variable (s : List Code)

theorem toDouble_ofCodes :
    (ofCodes s).toDouble = .ok (Numeral.ofStart (String.ofList (Code.leading s))) := by
  rcases Node.ofCodes_cases s with ⟨chars, rfl⟩ | h
  · rw [ofCodes, Node.ofCodes_map_char, Code.leading_map_char]
    rfl
  · rw [ofCodes, h]
    rfl

/-- Ordering sees the longest numeral at the start, or no number. -/
theorem toDouble_longest : ∃ x, (ofCodes s).toDouble = .ok x ∧
    ((x = .nan ∧ ∀ p, IsNumeral p → ¬ p.map .char <+: s.dropWhile Code.isBlank) ∨
      ∃ p, LongestNumeral p (s.dropWhile Code.isBlank) ∧ ∀ z, Reads p z ↔ z = x) := by
  refine ⟨_, toDouble_ofCodes s, ?_⟩
  rw [Numeral.ofStart, String.toList_ofList, Code.trimLeft_leading]
  cases hread : Numeral.read? (Code.leading (s.dropWhile Code.isBlank)) with
  | none =>
    refine .inl ⟨rfl, fun p hp hstart => ?_⟩
    obtain ⟨r, hr⟩ := (Code.map_char_prefix_iff ..).mp hstart
    obtain ⟨x, rest, hlonger, -⟩ := Numeral.read?_longest hp r
    rw [hr, hread] at hlonger
    cases hlonger
  | some found =>
    obtain ⟨x, rest⟩ := found
    obtain ⟨p, hp, hx⟩ := Numeral.read?_sound hread
    refine .inr ⟨p, ⟨hx.isNumeral, ?_, fun {q} hq hstart => ?_⟩, hx.iff_eq⟩
    · exact (Code.map_char_prefix_iff ..).mpr ⟨rest, hp.symm⟩
    · obtain ⟨r, hr⟩ := (Code.map_char_prefix_iff ..).mp hstart
      obtain ⟨x', rest', hlonger, hle⟩ := Numeral.read?_longest hq r
      rw [hr, hread, Option.some.injEq, Prod.mk.injEq] at hlonger
      obtain ⟨-, rfl⟩ := hlonger
      have hlength := congrArg List.length (hr.trans hp)
      rw [List.length_append, List.length_append] at hlength
      omega

end Value

namespace Library

/-- The number that a text without blanks around it is. -/
def ofStripped (cs : List Code) : Double :=
  match Code.chars? cs with
  | some [] => .zero
  | some p => (Numeral.ofWhole? p).getD .nan
  | none => .nan

theorem toNumber_ofCodes (s : List Code) :
    toNumber (.ofCodes s) = .ok (.ofDouble (ofStripped (Code.strip s))) := by
  rcases Node.ofCodes_cases s with ⟨chars, rfl⟩ | h
  · rw [Value.ofCodes, Node.ofCodes_map_char, toNumber, ofText, String.toList_ofList, ofStripped,
      Code.strip_map_char, Json.chars?_map_char]
    cases Text.trim chars <;> rfl
  · have hnone : Code.chars? (Code.strip s) = none := by
      by_contra hsome
      obtain ⟨p, hp⟩ := Option.ne_none_iff_exists'.mp hsome
      obtain ⟨chars, rfl⟩ := Code.exists_chars_of_strip (Code.eq_map_of_chars? hp)
      rw [Node.ofCodes_map_char] at h
      cases h
    rw [Value.ofCodes, h, toNumber, ofStripped, hnone]

theorem call_number (s : List Code) (m : Machine) :
    call .number [.ofCodes s] m = .ok (.ofDouble (ofStripped (Code.strip s))) m := by
  change (Run.ofExcept (toNumber (.ofCodes s))) m = _
  rw [toNumber_ofCodes]
  rfl

theorem ofStripped_reads {p : List Char} {z : Double} (h : Reads p z) :
    ofStripped (p.map .char) = z := by
  have hwhole := Numeral.ofWhole?_eq_some_iff.mpr h
  rw [ofStripped, Json.chars?_map_char]
  cases p with
  | nil => cases hwhole
  | cons c p => simp only [hwhole, Option.getD_some]

theorem ofStripped_eq_nan {cs : List Code} (hn : cs ≠ [])
    (h : ∀ p, IsNumeral p → cs ≠ p.map .char) : ofStripped cs = .nan := by
  unfold ofStripped
  split
  · rename_i hcs
    exact absurd (Code.eq_map_of_chars? hcs) hn
  · rename_i p _ hcs
    cases hwhole : Numeral.ofWhole? p with
    | none => rfl
    | some z =>
      have hreads := Numeral.ofWhole?_eq_some_iff.mp hwhole
      exact absurd (Code.eq_map_of_chars? hcs) (h p hreads.isNumeral)
  · rfl

end Library

namespace Value

variable (s : List Code)

/-- The library sees a numeral from end to end, or no number; the sign of a zero is lost in the text
of the number. -/
theorem number_whole : ∃ y, (ofDouble y).toDouble = .ok y ∧
    (∀ u v, (∀ c ∈ u, Code.isBlank c = true) → (∀ c ∈ v, Code.isBlank c = true) →
      ∀ m, Library.call .number [ofCodes (u ++ s ++ v)] m = .ok (ofDouble y) m) ∧
    ((∀ c ∈ s, Code.isBlank c = true) → y = .zero) ∧
    (∀ p, IsNumeral p → Code.strip s = p.map .char →
      ∃ z, y = z.unsigned ∧ ∀ w, Reads p w ↔ w = z) ∧
    ((∃ c ∈ s, Code.isBlank c = false) → (∀ p, IsNumeral p → Code.strip s ≠ p.map .char) →
      y = .nan) := by
  refine ⟨(Library.ofStripped (Code.strip s)).unsigned, ?_, ?_, ?_, ?_, ?_⟩
  · rw [ofDouble, toDouble, readNumber, Numeral.literal?_format_eq, Double.unsigned_unsigned]
  · intro u v hu hv m
    rw [Library.call_number, Code.strip_append hu hv, ofDouble, ofDouble, Numeral.format_unsigned]
  · intro h
    rw [Code.strip_eq_nil_iff.mpr h]
    rfl
  · intro p hp hstrip
    obtain ⟨z, hz⟩ := hp.exists_reads
    exact ⟨z, by rw [hstrip, Library.ofStripped_reads hz], hz.iff_eq⟩
  · rintro ⟨c, hc, hblank⟩ hnone
    have hn : Code.strip s ≠ [] := by
      intro hnil
      have hc' := Code.strip_eq_nil_iff.mp hnil c hc
      rw [hblank] at hc'
      cases hc'
    rw [Library.ofStripped_eq_nan hn hnone]
    rfl

/-- A numeral between blanks is what ordering sees. -/
theorem toDouble_of_strip {p : List Char} {z : Double} (hp : Code.strip s = p.map .char)
    (hz : Reads p z) : (ofCodes s).toDouble = .ok z := by
  obtain ⟨v, hv, hdrop⟩ := Code.exists_dropWhile_eq s
  obtain ⟨chars, rfl, hchars⟩ := Code.exists_chars_of_blank hv
  rw [toDouble_ofCodes, Numeral.ofStart, String.toList_ofList, Code.trimLeft_leading, hdrop, hp,
    Code.leading_map_char_append, Code.leading_map_char,
    Numeral.read?_complete hz (Numeral.stops_of_blank hchars)]

/-- What ordering and the library make of a string. Ordering sees the longest numeral at the start,
blanks aside; the library sees a numeral from end to end, whatever blanks surround it; and where the
library sees a number, it is the one that ordering sees, but for the sign of a zero. -/
theorem numbers_of_strings : ∃ x y,
    (ofCodes s).toDouble = .ok x ∧
    ((x = .nan ∧ ∀ p, IsNumeral p → ¬ p.map .char <+: s.dropWhile Code.isBlank) ∨
      ∃ p, LongestNumeral p (s.dropWhile Code.isBlank) ∧ ∀ z, Reads p z ↔ z = x) ∧
    (∀ m, Library.call .number [ofCodes s] m = .ok (ofDouble y) m) ∧
    (ofDouble y).toDouble = .ok y ∧
    ((∀ c ∈ s, Code.isBlank c = true) → y = .zero) ∧
    (∀ p, IsNumeral p → Code.strip s = p.map .char →
      ∃ z, y = z.unsigned ∧ ∀ w, Reads p w ↔ w = z) ∧
    ((∃ c ∈ s, Code.isBlank c = false) → (∀ p, IsNumeral p → Code.strip s ≠ p.map .char) →
      y = .nan) ∧
    (∀ u v, (∀ c ∈ u, Code.isBlank c = true) → (∀ c ∈ v, Code.isBlank c = true) →
      ∀ m, Library.call .number [ofCodes (u ++ s ++ v)] m = .ok (ofDouble y) m) ∧
    ((∃ c ∈ s, Code.isBlank c = false) → y ≠ .nan → y = x.unsigned) := by
  obtain ⟨x, hx, hlongest⟩ := toDouble_longest s
  obtain ⟨y, hy, hblanks, hzero, hwhole, hnan⟩ := number_whole s
  refine ⟨x, y, hx, hlongest, fun m => ?_, hy, hzero, hwhole, hnan, hblanks, fun hset hnumber => ?_⟩
  · simpa using hblanks [] [] (by simp) (by simp) m
  · obtain ⟨p, hp, hstrip⟩ : ∃ p, IsNumeral p ∧ Code.strip s = p.map .char := by
      by_contra hnone
      exact hnumber (hnan hset fun p hp heq => hnone ⟨p, hp, heq⟩)
    obtain ⟨z, hyz, hz⟩ := hwhole p hp hstrip
    have hxz := hx.symm.trans (toDouble_of_strip s hstrip ((hz z).mpr rfl))
    rw [hyz, Except.ok.inj hxz]

/-- Ordering sees the negative zero where the library gives the number zero. -/
theorem negative_zero_loses_sign : ∃ x y,
    (ofCodes [.char '-', .char '0']).toDouble = .ok x ∧
    (∀ m, Library.call .number [ofCodes [.char '-', .char '0']] m = .ok (ofDouble y) m) ∧
    (ofDouble y).toDouble = .ok y ∧ y ≠ .nan ∧ y ≠ x := by
  have hread : Numeral.ofStart (String.ofList (Code.leading [.char '-', .char '0'])) =
      .finite true .zero := by decide +kernel
  have hwhole : Library.ofStripped (Code.strip [.char '-', .char '0']) = .finite true .zero := by
    decide +kernel
  refine ⟨.finite true .zero, .zero, ?_, fun m => ?_, ?_, by decide, by decide⟩
  · rw [toDouble_ofCodes, hread]
  · rw [Library.call_number, hwhole]
    rfl
  · rw [ofDouble, toDouble, readNumber, Numeral.literal?_format_eq]
    rfl

end Value
end Script
