import Script.Proofs.CodePoints
import Script.Proofs.Proper
import Mathlib.Algebra.Ring.Int.Defs

/-!
# The table of operators

Which kind of value an operator gives depends on the operator and on the kinds of its operands
alone, and it gives one unless it is no operator, divides by zero, takes a remainder of something
infinite or repeats a string too often.
-/
namespace Script

open Text (Code)

namespace Value

inductive Kind where
  | number | string | boolean | null | array | function | native
  deriving DecidableEq

def kind : Value → Kind
  | .number _ => .number
  | .string _ => .string
  | .boolean _ => .boolean
  | .null => .null
  | .array .. => .array
  | .function .. => .function
  | .native _ => .native

/-- A value that can be read: the text of a number is a number and a string is a text, also in the
items of an array. -/
inductive Legible : Value → Prop
  | number {t} (h : (Numeral.literal? t).isSome = true) : Legible (.number t)
  | string (cs : List Code) : Legible (.ofCodes cs)
  | boolean (b) : Legible (.boolean b)
  | null : Legible .null
  | array (i) {items} (h : ∀ v ∈ items, Legible v) : Legible (.array i items)
  | function (i name params body closure) : Legible (.function i name params body closure)
  | native (f) : Legible (.native f)

end Value

theorem Node.isSome_codes?_toText (n : Node) : n.toText.codes?.isSome = true := by cases n <;> rfl

theorem Content.exists_line_eq (separator : String) {texts : List Node}
    (h : ∀ n ∈ texts, n.codes?.isSome = true) :
    ∃ cs, Content.line separator texts = .ok (.ofCodes cs) := by
  have hcodes : ∃ all, texts.mapM Node.codes? = some all := by
    induction texts with
    | nil => exact ⟨[], rfl⟩
    | cons n ns ih =>
      obtain ⟨hn, hns⟩ := List.forall_mem_cons.mp h
      obtain ⟨cs, hcs⟩ := Option.isSome_iff_exists.mp hn
      obtain ⟨all, hall⟩ := ih hns
      exact ⟨cs :: all, by simp [List.mapM_cons, hcs, hall]⟩
  obtain ⟨all, hall⟩ := hcodes
  unfold Content.line
  split
  · exact ⟨_, by rw [Node.ofCodes_ofText]⟩
  · rw [hall]
    exact ⟨_, rfl⟩

namespace Value

theorem contents_of_codes {vs : List Value} (h : ∀ v ∈ vs, ∃ cs, v.content = .ok (.ofCodes cs)) :
    ∃ texts, contents vs = .ok texts ∧ ∀ n ∈ texts, n.codes?.isSome = true := by
  induction vs with
  | nil => exact ⟨[], rfl, by simp⟩
  | cons v vs ih =>
    obtain ⟨⟨cs, hcs⟩, hvs⟩ := List.forall_mem_cons.mp h
    obtain ⟨texts, ht, hsome⟩ := ih hvs
    refine ⟨.ofCodes cs :: texts, by simp [contents, hcs, ht], ?_⟩
    exact List.forall_mem_cons.mpr ⟨by simp, hsome⟩

/-- What a value is printed as is a text. -/
theorem Legible.content {v : Value} (h : v.Legible) : ∃ cs, v.content = .ok (.ofCodes cs) := by
  have htext (s : String) : ∃ cs, (.ok (.text s) : Except Fault Node) = .ok (.ofCodes cs) :=
    ⟨Code.ofText s, by rw [Node.ofCodes_ofText]⟩
  have hsome' (s : String) : (Node.text s).codes?.isSome = true := rfl
  induction h with
  | number | boolean | null | native => exact htext _
  | string cs => exact ⟨cs, rfl⟩
  | array i _ ih =>
    obtain ⟨texts, ht, hsome⟩ := contents_of_codes ih
    obtain ⟨cs, hcs⟩ := Content.exists_line_eq ", " hsome
    simp only [Value.content, ht, hcs, ok_bind]
    exact Content.exists_line_eq "" (by simp [hsome'])
  | function i name =>
    exact Content.exists_line_eq "" (by simp [hsome', Name.toText, Node.isSome_codes?_toText])

/-- The values of programs that come from a source text can be read. -/
theorem Proper.legible {v : Value} (h : v.Proper) : v.Legible := by
  induction h with
  | number h => exact .number h
  | string s =>
    rw [← Node.ofCodes_ofText]
    exact .string _
  | boolean b => exact .boolean b
  | null => exact .null
  | array i _ ih => exact .array i ih
  | function => exact .function ..
  | native f => exact .native f

theorem Legible.readNumber {t : String} (h : (Value.number t).Legible) :
    ∃ x, Numeral.literal? t = some x ∧ Value.readNumber t = .ok x := by
  obtain ⟨h⟩ := h
  exact (Proper.number h).readNumber

theorem toInt_number {t : String} {x : Double} (h : Value.readNumber t = .ok x) :
    (Value.number t).toInt = .ok x.truncate := by
  simp [Value.toInt, Value.toDouble, h]

/-- Every value counts as a number. -/
theorem Legible.toDouble {v : Value} (h : v.Legible) : ∃ x, v.toDouble = .ok x := by
  cases h with
  | number h =>
    obtain ⟨x, -, hx⟩ := (Proper.number h).readNumber
    exact ⟨x, hx⟩
  | string cs =>
    rcases Node.ofCodes_cases cs with ⟨chars, rfl⟩ | h
    · rw [Value.ofCodes, Node.ofCodes_map_char]
      exact ⟨_, rfl⟩
    · rw [Value.ofCodes, h]
      exact ⟨_, rfl⟩
  | _ => exact ⟨_, rfl⟩

end Value

namespace Operator

open Value

/-- The kind of what an operator gives, by the kinds of its operands. -/
def kindOf (operator : String) (left right : Kind) : Kind :=
  match operator with
  | "+" =>
      match left, right with
      | .string, _ | _, .string => .string
      | .number, .number => .number
      | .boolean, .boolean => .boolean
      | _, _ => .null
  | "-" =>
      match left, right with
      | .number, .number | .number, .boolean | .boolean, .number => .number
      | .string, .string | .string, .number | .number, .string => .string
      | .boolean, .boolean => .boolean
      | _, _ => .null
  | "*" =>
      match left, right with
      | .number, .number | .number, .boolean => .number
      | .string, .number | .string, .boolean => .string
      | .boolean, .boolean => .boolean
      | _, _ => .null
  | "/" =>
      match left, right with
      | .number, .number => .number
      | .string, .number | .string, .string => .array
      | _, _ => .null
  | "%" | "**" =>
      match left, right with
      | .number, .number => .number
      | _, _ => .null
  | _ => .boolean

/-- What has no value, and why. -/
inductive Fails (operator : String) : Value → Value → Fault → Prop
  | unknown (ho : operator ∉ strict) (a b) :
      Fails operator a b (.evaluation (.unknownOperator operator))
  | zeroDivision (ho : operator = "/") (x) {y d} (hy : Numeral.literal? y = some d)
      (hd : d.isZero = true) :
      Fails operator (.number x) (.number y) (.evaluation .zeroDivision)
  | infiniteDividend (ho : operator = "%") {x y c d} (hx : Numeral.literal? x = some c)
      (hy : Numeral.literal? y = some d) (hc : c.isInfinite = true) (hz : d.isZero = false)
      (hn : d.isNaN = false) :
      Fails operator (.number x) (.number y) (@Fault.infiniteDividend c d)
  | tooManyCopies (ho : operator = "*") (cs : List Code) {y d}
      (hy : Numeral.literal? y = some d) (hd : 2 ^ 63 ≤ d.truncate) :
      Fails operator (.ofCodes cs) (.number y) (@Fault.tooManyCopies d.truncate.toNat cs.length)

/-- A product with fewer than `2 ^ 63` copies whose string is nevertheless too long for any memory:
it would have `2 ^ 63` characters or more. -/
def TooLong (operator : String) (a b : Value) : Prop :=
  operator = "*" ∧ ∃ (cs : List Code) (y : String) (d : Double), a = .ofCodes cs ∧ b = .number y ∧
    Numeral.literal? y = some d ∧ d.truncate < 2 ^ 63 ∧ 2 ^ 63 ≤ cs.length * d.truncate.toNat

theorem Fails.apply {operator : String} {a b : Value} {fault : Fault}
    (h : Fails operator a b fault) (i : Identity) : apply i operator a b = .error fault := by
  have hlimit : Content.copyLimit = 2 ^ 63 := by decide
  cases h with
  | unknown ho =>
    unfold Operator.apply
    split <;> first | rfl | exact absurd (by decide) ho
  | zeroDivision ho x hy hd =>
    subst ho
    simp [Operator.apply, divide, readNumber, hy, hd]
  | infiniteDividend ho hx hy hc hz hn =>
    subst ho
    simp [Operator.apply, remainder, readNumber, hx, hy, hc, hz, hn]
  | @tooManyCopies ho cs y d hy hd =>
    subst ho
    have hcount : Content.copyLimit ≤ d.truncate.toNat := by omega
    simp [Operator.apply, multiply, Value.ofCodes, Value.toInt, Value.toDouble, readNumber, hy,
      Content.copies_ofCodes, Content.copiesFit, hcount]

section

variable {a b : Value} (ha : a.Legible) (hb : b.Legible)

include ha hb

theorem add_kind : ∃ v, add a b = .ok v ∧ v.kind = kindOf "+" a.kind b.kind := by
  have hjoined : ∃ v, (do return .string (← Content.join (← a.content) (← b.content))) =
      (.ok v : Except Fault Value) ∧ v.kind = .string := by
    obtain ⟨s, hs⟩ := ha.content
    obtain ⟨t, ht⟩ := hb.content
    exact ⟨.ofCodes (s ++ t), by simp [hs, ht, Content.join_ofCodes, Value.ofCodes], rfl⟩
  cases ha with
  | string cs => exact hjoined
  | number hx =>
    cases hb with
    | string cs => exact hjoined
    | number hy =>
      obtain ⟨x, -, hx⟩ := (Legible.number hx).readNumber
      obtain ⟨y, -, hy⟩ := (Legible.number hy).readNumber
      exact ⟨ofDouble (x.add y), by simp [add, hx, hy], rfl⟩
    | _ => exact ⟨.null, rfl, rfl⟩
  | boolean x =>
    cases hb with
    | string cs => exact hjoined
    | boolean y => exact ⟨_, rfl, rfl⟩
    | _ => exact ⟨.null, rfl, rfl⟩
  | _ =>
    cases hb with
    | string cs => exact hjoined
    | _ => exact ⟨.null, rfl, rfl⟩

theorem subtract_kind : ∃ v, subtract a b = .ok v ∧ v.kind = kindOf "-" a.kind b.kind := by
  cases ha with
  | number hx =>
    obtain ⟨x, -, hx⟩ := (Legible.number hx).readNumber
    cases hb with
    | number hy =>
      obtain ⟨y, -, hy⟩ := (Legible.number hy).readNumber
      exact ⟨ofDouble (x.sub y), by simp [subtract, hx, hy], rfl⟩
    | string cs => exact ⟨_, subtract_from_count cs (toInt_number hx), rfl⟩
    | boolean y => exact ⟨_, by simp [subtract, toDouble, hx]; rfl, rfl⟩
    | _ => exact ⟨.null, rfl, rfl⟩
  | string cs =>
    cases hb with
    | number hy =>
      obtain ⟨y, -, hy⟩ := (Legible.number hy).readNumber
      exact ⟨_, subtract_count cs (toInt_number hy), rfl⟩
    | string ds => exact ⟨_, subtract_text cs ds, rfl⟩
    | _ => exact ⟨.null, rfl, rfl⟩
  | boolean x =>
    cases hb with
    | number hy =>
      obtain ⟨y, -, hy⟩ := (Legible.number hy).readNumber
      exact ⟨_, by simp [subtract, toDouble, hy]; rfl, rfl⟩
    | boolean y => exact ⟨_, rfl, rfl⟩
    | _ => exact ⟨.null, rfl, rfl⟩
  | _ => exact ⟨.null, by cases hb <;> rfl, by cases hb <;> rfl⟩

/-- A product has a value unless there are too many copies. -/
theorem multiply_kind :
    (∃ v, multiply a b = .ok v ∧ v.kind = kindOf "*" a.kind b.kind) ∨
      (∃ fault, Fails "*" a b fault) ∨ TooLong "*" a b := by
  cases ha with
  | number hx =>
    obtain ⟨x, -, hx'⟩ := (Legible.number hx).readNumber
    cases hb with
    | number hy =>
      obtain ⟨y, -, hy⟩ := (Legible.number hy).readNumber
      exact .inl ⟨ofDouble (x.mul y), by simp [multiply, hx', hy], rfl⟩
    | boolean y => exact .inl ⟨_, rfl, by cases y <;> rfl⟩
    | _ => exact .inl ⟨.null, rfl, rfl⟩
  | string cs =>
    cases hb with
    | number hy =>
      obtain ⟨y, hlit, hy⟩ := (Legible.number hy).readNumber
      have hlimit : Content.copyLimit = 2 ^ 63 := by decide
      by_cases hcount : 2 ^ 63 ≤ y.truncate
      · exact .inr (.inl ⟨_, .tooManyCopies rfl cs hlit hcount⟩)
      by_cases hlong : 2 ^ 63 ≤ cs.length * y.truncate.toNat
      · exact .inr (.inr ⟨rfl, cs, _, y, rfl, rfl, hlit, by omega, hlong⟩)
      have hfit : Content.copiesFit y.truncate.toNat cs.length = .ok () := by
        rw [Content.copiesFit, if_neg (by omega)]
      refine .inl ⟨.ofCodes (List.replicate y.truncate.toNat cs).flatten, ?_, rfl⟩
      rw [multiply_count cs (toInt_number hy), hfit]
      rfl
    | boolean y => exact .inl ⟨_, rfl, rfl⟩
    | _ => exact .inl ⟨.null, rfl, rfl⟩
  | boolean x =>
    cases hb with
    | boolean y => exact .inl ⟨_, rfl, rfl⟩
    | _ => exact .inl ⟨.null, rfl, rfl⟩
  | _ => exact .inl ⟨.null, by cases hb <;> rfl, by cases hb <;> rfl⟩

theorem divide_kind (i : Identity) :
    (∃ v, divide i a b = .ok v ∧ v.kind = kindOf "/" a.kind b.kind) ∨
      ∃ fault, Fails "/" a b fault := by
  cases ha with
  | number hx =>
    obtain ⟨x, -, hx'⟩ := (Legible.number hx).readNumber
    cases hb with
    | number hy =>
      obtain ⟨y, hlit, hy⟩ := (Legible.number hy).readNumber
      by_cases hzero : y.isZero = true
      · exact .inr ⟨_, .zeroDivision rfl _ hlit hzero⟩
      · exact .inl ⟨ofDouble (x.div y), by simp [divide, hx', hy, hzero], rfl⟩
    | _ => exact .inl ⟨.null, rfl, rfl⟩
  | string cs =>
    cases hb with
    | number hy => exact .inl ⟨_, divide_count cs i _, rfl⟩
    | string ds =>
      by_cases hds : ds = []
      · subst hds
        exact .inl ⟨_, divide_empty cs i, rfl⟩
      · exact .inl ⟨_, divide_text cs ds i hds, rfl⟩
    | _ => exact .inl ⟨.null, rfl, rfl⟩
  | _ => exact .inl ⟨.null, by cases hb <;> rfl, by cases hb <;> rfl⟩

theorem remainder_kind :
    (∃ v, remainder a b = .ok v ∧ v.kind = kindOf "%" a.kind b.kind) ∨
      ∃ fault, Fails "%" a b fault := by
  cases ha with
  | number hx =>
    obtain ⟨x, hxlit, hx⟩ := (Legible.number hx).readNumber
    cases hb with
    | number hy =>
      obtain ⟨y, hylit, hy⟩ := (Legible.number hy).readNumber
      cases hzero : y.isZero with
      | true => exact .inl ⟨ofDouble .nan, by simp [remainder, hy, hzero], rfl⟩
      | false =>
        by_cases hinf : x.isInfinite = true ∧ y.isNaN = false
        · exact .inr ⟨_, .infiniteDividend rfl hxlit hylit hinf.1 hzero hinf.2⟩
        · have hnan : x.isInfinite = true → y.isNaN = true := by simpa using hinf
          exact .inl ⟨ofDouble (x.mod y), by simpa [remainder, hx, hy, hzero] using hnan, rfl⟩
    | _ => exact .inl ⟨.null, rfl, rfl⟩
  | _ => exact .inl ⟨.null, by cases hb <;> rfl, by cases hb <;> rfl⟩

theorem power_kind : ∃ v, power a b = .ok v ∧ v.kind = kindOf "**" a.kind b.kind := by
  cases ha with
  | number hx =>
    obtain ⟨x, -, hx⟩ := (Legible.number hx).readNumber
    cases hb with
    | number hy =>
      obtain ⟨y, -, hy⟩ := (Legible.number hy).readNumber
      exact ⟨ofDouble (x.pow y), by simp [power, hx, hy], rfl⟩
    | _ => exact ⟨.null, rfl, rfl⟩
  | _ => exact ⟨.null, by cases hb <;> rfl, by cases hb <;> rfl⟩

theorem compare_kind (holds : Double → Double → Bool) :
    ∃ v, compare holds a b = .ok v ∧ v.kind = .boolean := by
  obtain ⟨x, hx⟩ := ha.toDouble
  obtain ⟨y, hy⟩ := hb.toDouble
  exact ⟨.boolean (holds x y), by simp [compare, hx, hy], rfl⟩

theorem apply_kind (i : Identity) {operator : String} (ho : operator ∈ strict) :
    (∃ v, apply i operator a b = .ok v ∧ v.kind = kindOf operator a.kind b.kind) ∨
      (∃ fault, Fails operator a b fault) ∨ TooLong operator a b := by
  simp only [strict, List.mem_cons, List.not_mem_nil, or_false] at ho
  rcases ho with rfl | rfl | rfl | rfl | rfl | rfl | rfl | rfl | rfl | rfl | rfl | rfl
  · exact .inl (add_kind ha hb)
  · exact .inl (subtract_kind ha hb)
  · exact multiply_kind ha hb
  · exact (divide_kind ha hb i).imp_right .inl
  · exact (remainder_kind ha hb).imp_right .inl
  · exact .inl (power_kind ha hb)
  · exact .inl ⟨_, rfl, rfl⟩
  · exact .inl ⟨_, rfl, rfl⟩
  · exact .inl (compare_kind ha hb _)
  · exact .inl (compare_kind ha hb _)
  · exact .inl (compare_kind ha hb _)
  · exact .inl (compare_kind ha hb _)

end

/-- An operator applied to two values fails exactly in the ways that are listed, products too long
for memory aside, and otherwise gives a value of the kind that the table says. -/
theorem fails_exactly_as_listed (i : Identity) (operator : String) {a b : Value} (ha : a.Legible)
    (hb : b.Legible) (hlong : ¬ TooLong operator a b) :
    (∀ fault, apply i operator a b = .error fault ↔ Fails operator a b fault) ∧
      ((∀ fault, ¬ Fails operator a b fault) →
        ∃ v, apply i operator a b = .ok v ∧ v.kind = kindOf operator a.kind b.kind) := by
  have hcases : (∃ v, apply i operator a b = .ok v ∧ v.kind = kindOf operator a.kind b.kind) ∨
      ∃ fault, Fails operator a b fault := by
    by_cases ho : operator ∈ strict
    · rcases apply_kind ha hb i ho with hv | hfails | htoo
      · exact .inl hv
      · exact .inr hfails
      · exact absurd htoo hlong
    · exact .inr ⟨_, .unknown ho a b⟩
  refine ⟨fun fault => ⟨fun herror => ?_, fun hfails => hfails.apply i⟩, fun hnone => ?_⟩
  · rcases hcases with ⟨v, hv, -⟩ | ⟨fault', hfails⟩
    · cases herror.symm.trans hv
    · obtain rfl := Except.error.inj (herror.symm.trans (hfails.apply i))
      exact hfails
  · rcases hcases with hv | ⟨fault, hfails⟩
    · exact hv
    · exact absurd hfails (hnone fault)

/-- Not even the empty string is repeated so often. -/
theorem empty_copies_refused :
    apply 0 "*" (.ofCodes []) (.number "9223372036854775808") =
      .error (@Fault.tooManyCopies (2 ^ 63) 0) := by
  have hread : (Numeral.literal? "9223372036854775808").map Double.truncate = some (2 ^ 63) := by
    decide +kernel
  obtain ⟨d, hd, hcount⟩ := Option.map_eq_some_iff.mp hread
  have hlong : ¬ TooLong "*" (.ofCodes []) (.number "9223372036854775808") := by
    rintro ⟨-, cs, y, d, ha, -, -, -, hlong⟩
    obtain rfl := ofCodes_injective ha
    rw [List.length_nil, Nat.zero_mul] at hlong
    exact absurd hlong (by decide)
  have hfails := Fails.tooManyCopies rfl [] hd (by omega)
  rw [hcount] at hfails
  have hlegible : (Value.number "9223372036854775808").Legible :=
    Proper.legible (.number (by rw [hd]; rfl))
  exact ((fails_exactly_as_listed 0 "*" (.string []) hlegible hlong).1 _).mpr hfails

end Operator
end Script
