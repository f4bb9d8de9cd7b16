import Script.Proofs.Numerals
import Script.Proofs.Results
import Mathlib.Algebra.Group.Nat.Defs

/-!
# Values of programs from source texts

In such programs the text of every number is a number, every string is a text, and a function has
texts for its parameters and statements for its body. On such values conversions, indexing and
library functions always have a result, and operators refuse only a few pairs of operands.
-/
namespace Script

namespace Value

inductive Proper : Value → Prop
  | number {t} (h : (Numeral.literal? t).isSome = true) : Proper (.number t)
  | string (s : String) : Proper (.string (.text s))
  | boolean (b) : Proper (.boolean b)
  | null : Proper .null
  | array (i) {items} (h : ∀ v ∈ items, Proper v) : Proper (.array i items)
  | function (i) (x : String) (ps : List String) {ss} (closure) (hs : ∀ s ∈ ss, s.Statement) :
      Proper (.function i (.word x) (.list (ps.map .text)) (.block (.list ss)) closure)
  | native (f) : Proper (.native f)

theorem proper_ofDouble (x : Double) : (ofDouble x).Proper := .number (Numeral.literal?_format x)

end Value

theorem Content.line_texts (separator : String) (texts : List String) :
    Content.line separator (texts.map .text) =
      .ok (.text (String.intercalate separator texts)) := by
  have hall : (texts.map Node.text).mapM Node.text? = some texts := by
    induction texts with
    | nil => rfl
    | cons t ts ih => simp [List.mapM_cons, Node.text?, ih]
  simp [Content.line, hall]

namespace Value

theorem contents_of_texts {vs : List Value} (h : ∀ v ∈ vs, ∃ s, v.content = .ok (.text s)) :
    ∃ texts : List String, contents vs = .ok (texts.map .text) := by
  induction vs with
  | nil => exact ⟨[], rfl⟩
  | cons v vs ih =>
    obtain ⟨⟨s, hs⟩, hvs⟩ := List.forall_mem_cons.mp h
    obtain ⟨texts, ht⟩ := ih hvs
    exact ⟨s :: texts, by simp [contents, hs, ht]⟩

/-- What a value is printed as is a text. -/
theorem Proper.content {v : Value} (h : v.Proper) : ∃ s, v.content = .ok (.text s) := by
  induction h with
  | array i _ ih =>
    obtain ⟨texts, ht⟩ := contents_of_texts ih
    have hline := Content.line_texts "" ["[", String.intercalate ", " texts, "]"]
    simp only [List.map_cons, List.map_nil] at hline
    refine ⟨String.intercalate "" ["[", String.intercalate ", " texts, "]"], ?_⟩
    simp only [Value.content, ht, ok_bind, Content.line_texts, hline]
  | function i x ps closure hs =>
    have hline := Content.line_texts "" ["<function ", x, ">"]
    simp only [List.map_cons, List.map_nil] at hline
    exact ⟨_, hline⟩
  | _ => exact ⟨_, rfl⟩

theorem contents_proper {vs : List Value} (h : ∀ v ∈ vs, v.Proper) :
    ∃ texts : List String, contents vs = .ok (texts.map .text) :=
  contents_of_texts fun v hv => (h v hv).content

theorem Proper.readNumber {t : String} (h : (Value.number t).Proper) :
    ∃ x, Numeral.literal? t = some x ∧ Value.readNumber t = .ok x := by
  obtain ⟨h⟩ := h
  obtain ⟨x, hx⟩ := Option.isSome_iff_exists.mp h
  exact ⟨x, hx, by simp [Value.readNumber, hx]⟩

/-- The numerals of source texts are read. -/
theorem readNumber_of_isNumeral {s : String} (h : Token.IsNumeral s.toList) :
    ∃ x, Value.readNumber s = .ok x := by
  have hlit := Numeral.literal?_of_isNumeral h
  rw [String.ofList_toList] at hlit
  obtain ⟨x, -, hx⟩ := (Proper.number hlit).readNumber
  exact ⟨x, hx⟩

theorem Proper.toDouble {v : Value} (h : v.Proper) : ∃ x, v.toDouble = .ok x := by
  cases h with
  | number h =>
    obtain ⟨x, -, hx⟩ := (Proper.number h).readNumber
    exact ⟨x, hx⟩
  | _ => exact ⟨_, rfl⟩

theorem Proper.toInt {v : Value} (h : v.Proper) :
    ∃ x, v.toDouble = .ok x ∧ v.toInt = .ok x.truncate := by
  obtain ⟨x, hx⟩ := h.toDouble
  exact ⟨x, hx, by simp [Value.toInt, hx]⟩

theorem Proper.isFalsy {v : Value} (h : v.Proper) : ∃ b, v.isFalsy = .ok b := by
  cases h with
  | number h =>
    obtain ⟨x, -, hx⟩ := (Proper.number h).readNumber
    exact ⟨_, by simp [Value.isFalsy, hx]; rfl⟩
  | _ => exact ⟨_, rfl⟩

theorem Proper.holds {v : Value} (h : v.Proper) : ∃ b, v.holds = .ok b := by
  obtain ⟨s, hs⟩ := h.content
  exact ⟨_, by simp [Value.holds, hs]; rfl⟩

theorem Proper.part {v : Value} (h : v.Proper) (i : Nat) : ∃ w, v.part i = .ok w ∧ w.Proper := by
  cases h with
  | array id h =>
    refine ⟨_, rfl, ?_⟩
    rename_i items
    cases hi : items[i]? with
    | none => exact .null
    | some w => exact h w (List.mem_of_getElem? hi)
  | string s =>
    cases hi : s.toList[i]? with
    | none => exact ⟨.null, by simp [Value.part, Content.part?, hi], .null⟩
    | some c =>
      exact ⟨.string (.text (String.singleton c)), by simp [Value.part, Content.part?, hi],
        .string _⟩
  | _ => exact ⟨.null, rfl, .null⟩

theorem Proper.get {v i : Value} (h : v.Proper) (hi : i.Proper) :
    ∃ w, v.get i = .ok w ∧ w.Proper := by
  obtain ⟨x, hx⟩ := hi.toDouble
  simp only [Value.get, hx, ok_bind]
  split
  · exact ⟨.null, rfl, .null⟩
  · exact ⟨.null, rfl, .null⟩
  · split
    · exact ⟨.null, rfl, .null⟩
    · exact h.part _

end Value

namespace Operator

open Value

/-- The pairs of operands that an operator has no value for, and what it says instead. -/
inductive Refuses : String → Value → Value → Fault → Prop
  | zeroDivision (x) {y d} (hy : Numeral.literal? y = some d) (hd : d.isZero = true) :
      Refuses "/" (.number x) (.number y) (.evaluation .zeroDivision)
  | infiniteDividend {x y c d} (hx : Numeral.literal? x = some c) (hy : Numeral.literal? y = some d)
      (hc : c.isInfinite = true) (hz : d.isZero = false) (hn : d.isNaN = false) :
      Refuses "%" (.number x) (.number y) (@Fault.infiniteDividend c d)
  | tooManyCopies {s y d} (hy : Numeral.literal? y = some d)
      (hd : 2 ^ 63 ≤ d.truncate.toNat ∨ 2 ^ 63 ≤ s.length * d.truncate.toNat) :
      Refuses "*" (.string (.text s)) (.number y) (@Fault.tooManyCopies d.truncate.toNat s.length)

theorem eq_of_copies? {operator : String} {a b : Value} {c : Nat × Nat}
    (h : copies? operator a b = some c) : operator = "*" := by
  unfold copies? at h
  split at h
  · split at h
    · split_ifs at h with hc
      exact hc.1
    · cases h
  · cases h

/-- A proper value, or a refusal of the operands. -/
def Answers (operator : String) (a b : Value) (r : Except Fault Value) : Prop :=
  (∃ v, r = .ok v ∧ v.Proper) ∨ ∃ fault, r = .error fault ∧ Refuses operator a b fault

variable {a b : Value} (ha : a.Proper) (hb : b.Proper)

include ha hb

theorem add_proper : ∃ v, add a b = .ok v ∧ v.Proper := by
  have htexts : ∃ v, (do return .string (← Content.join (← a.content) (← b.content))) =
      (.ok v : Except Fault Value) ∧ v.Proper := by
    obtain ⟨s, hs⟩ := ha.content
    obtain ⟨t, ht⟩ := hb.content
    exact ⟨.string (.text (s ++ t)), by simp [hs, ht, Content.join], .string _⟩
  unfold add
  split
  · exact htexts
  · exact htexts
  · obtain ⟨x, -, hx⟩ := ha.readNumber
    obtain ⟨y, -, hy⟩ := hb.readNumber
    exact ⟨_, by simp [hx, hy]; rfl, proper_ofDouble _⟩
  · exact ⟨_, rfl, .boolean _⟩
  · exact ⟨_, rfl, .null⟩

theorem subtract_proper : ∃ v, subtract a b = .ok v ∧ v.Proper := by
  obtain ⟨x, hx, hxi⟩ := ha.toInt
  obtain ⟨y, hy, hyi⟩ := hb.toInt
  unfold subtract
  split
  · obtain ⟨x, -, hx⟩ := ha.readNumber
    obtain ⟨y, -, hy⟩ := hb.readNumber
    exact ⟨_, by simp [hx, hy]; rfl, proper_ofDouble _⟩
  · cases ha
    cases hb
    exact ⟨_, rfl, .string _⟩
  · cases ha
    simp only [hyi, ok_bind, shorten]
    split
    · exact ⟨_, rfl, .string _⟩
    · exact ⟨_, rfl, .string _⟩
  · cases hb
    simp only [hxi, ok_bind]
    exact ⟨_, rfl, .string _⟩
  · exact ⟨_, rfl, .boolean _⟩
  · simp only [hx, hy, ok_bind]
    exact ⟨_, rfl, proper_ofDouble _⟩
  · simp only [hx, hy, ok_bind]
    exact ⟨_, rfl, proper_ofDouble _⟩
  · exact ⟨_, rfl, .null⟩

theorem multiply_proper : Answers "*" a b (multiply a b) := by
  unfold multiply
  split
  · obtain ⟨x, -, hx⟩ := ha.readNumber
    obtain ⟨y, -, hy⟩ := hb.readNumber
    exact .inl ⟨_, by simp [hx, hy]; rfl, proper_ofDouble _⟩
  · rename_i s t
    obtain ⟨y, hlit, hy⟩ := hb.readNumber
    obtain ⟨x, hx, hxi⟩ := hb.toInt
    obtain rfl : y = x := Except.ok.inj (hy.symm.trans hx)
    cases ha with
    | string s =>
      have hlimit : Content.copyLimit = 2 ^ 63 := by decide
      simp only [hxi, ok_bind, Content.copies, Content.copiesFit, hlimit]
      split_ifs with h
      · exact .inr ⟨_, rfl, .tooManyCopies hlit h⟩
      · exact .inl ⟨_, rfl, .string _⟩
  · cases ha with
    | string s =>
      split
      · exact .inl ⟨_, rfl, .string _⟩
      · exact .inl ⟨_, rfl, .string _⟩
  · split
    · exact .inl ⟨_, rfl, ha⟩
    · exact .inl ⟨_, rfl, proper_ofDouble _⟩
  · exact .inl ⟨_, rfl, .boolean _⟩
  · exact .inl ⟨_, rfl, .null⟩

omit ha hb in
theorem strings_proper (i : Identity) {pieces : List Node} (h : ∀ n ∈ pieces, ∃ s, n = .text s) :
    (strings i pieces).Proper := by
  refine .array i fun v hv => ?_
  obtain ⟨n, hn, rfl⟩ := List.mem_map.mp hv
  obtain ⟨s, rfl⟩ := h n hn
  exact .string s

omit ha hb in
theorem split_texts (s t : String) : ∃ pieces, Content.split (.text s) (.text t) = .ok pieces ∧
    ∀ n ∈ pieces, ∃ s, n = .text s := by
  have htexts {α : Type} (xs : List α) (text : α → String) :
      ∀ n ∈ xs.map fun x => Node.text (text x), ∃ s, n = .text s := by
    intro n hn
    obtain ⟨x, -, rfl⟩ := List.mem_map.mp hn
    exact ⟨_, rfl⟩
  unfold Content.split
  split
  · exact ⟨_, rfl, fun n hn => htexts _ _ n (List.mem_of_mem_filter hn)⟩
  · rename_i h₁ h₂
    cases h₁
    cases h₂
    exact ⟨_, rfl, htexts _ _⟩
  all_goals simp_all

theorem divide_proper (i : Identity) : Answers "/" a b (divide i a b) := by
  unfold divide
  split
  · obtain ⟨x, -, hx⟩ := ha.readNumber
    obtain ⟨y, hlit, hy⟩ := hb.readNumber
    simp only [hx, hy, ok_bind]
    split
    · rename_i hz
      exact .inr ⟨_, rfl, .zeroDivision _ hlit hz⟩
    · exact .inl ⟨_, rfl, proper_ofDouble _⟩
  · cases ha with
    | string s =>
      refine .inl ⟨_, rfl, strings_proper i fun n hn => ?_⟩
      obtain ⟨piece, -, rfl⟩ := List.mem_map.mp hn
      exact ⟨_, rfl⟩
  · cases ha with
    | string s =>
      cases hb with
      | string t =>
        obtain ⟨pieces, hp, htexts⟩ := split_texts s t
        exact .inl ⟨_, by simp only [hp, ok_bind]; rfl, strings_proper i htexts⟩
  · exact .inl ⟨_, rfl, .null⟩

theorem remainder_proper : Answers "%" a b (remainder a b) := by
  unfold remainder
  split
  · obtain ⟨x, hxlit, hx⟩ := ha.readNumber
    obtain ⟨y, hylit, hy⟩ := hb.readNumber
    simp only [hx, hy, ok_bind]
    split
    · exact .inl ⟨_, rfl, proper_ofDouble _⟩
    · rename_i hz
      split
      · rename_i hinf
        simp only [Bool.and_eq_true, Bool.not_eq_true'] at hinf
        exact .inr ⟨_, rfl, .infiniteDividend hxlit hylit hinf.1 (by simpa using hz) hinf.2⟩
      · exact .inl ⟨_, rfl, proper_ofDouble _⟩
  · exact .inl ⟨_, rfl, .null⟩

theorem power_proper : ∃ v, power a b = .ok v ∧ v.Proper := by
  unfold power
  split
  · obtain ⟨x, -, hx⟩ := ha.readNumber
    obtain ⟨y, -, hy⟩ := hb.readNumber
    exact ⟨_, by simp [hx, hy]; rfl, proper_ofDouble _⟩
  · exact ⟨_, rfl, .null⟩

theorem compare_proper (holds : Double → Double → Bool) :
    ∃ v, compare holds a b = .ok v ∧ v.Proper := by
  obtain ⟨x, hx⟩ := ha.toDouble
  obtain ⟨y, hy⟩ := hb.toDouble
  exact ⟨_, by simp [compare, hx, hy]; rfl, .boolean _⟩

/-- The operators that look at both operands. -/
def strict : List String := ["+", "-", "*", "/", "%", "**", "==", "!=", "<", ">", "<=", ">="]

/-- An operator has a value for proper operands, but for the pairs that it refuses. -/
theorem apply_proper (i : Identity) {operator : String} (ho : operator ∈ strict) :
    Answers operator a b (apply i operator a b) := by
  simp only [strict, List.mem_cons, List.not_mem_nil, or_false] at ho
  rcases ho with rfl | rfl | rfl | rfl | rfl | rfl | rfl | rfl | rfl | rfl | rfl | rfl
  · exact .inl (add_proper ha hb)
  · exact .inl (subtract_proper ha hb)
  · exact multiply_proper ha hb
  · exact divide_proper ha hb i
  · exact remainder_proper ha hb
  · exact .inl (power_proper ha hb)
  · exact .inl ⟨_, rfl, .boolean _⟩
  · exact .inl ⟨_, rfl, .boolean _⟩
  · exact .inl (compare_proper ha hb _)
  · exact .inl (compare_proper ha hb _)
  · exact .inl (compare_proper ha hb _)
  · exact .inl (compare_proper ha hb _)

omit hb in
theorem step?_proper (operator : String) :
    ∃ next?, step? operator a = .ok next? ∧ ∀ v ∈ next?, v.Proper := by
  cases ha with
  | number h =>
    obtain ⟨x, -, hx⟩ := (Proper.number h).readNumber
    refine ⟨_, by simp only [step?, hx, ok_bind]; rfl, ?_⟩
    rintro v ⟨⟩
    exact proper_ofDouble _
  | string s =>
    simp only [step?]
    split
    · refine ⟨_, rfl, ?_⟩
      rintro v ⟨⟩
      exact .string _
    · exact ⟨none, rfl, by simp⟩
  | boolean b =>
    refine ⟨_, rfl, ?_⟩
    split
    · rintro v ⟨⟩
      exact .boolean _
    · simp
  | _ => exact ⟨none, rfl, by simp⟩

end Operator
end Script
