import Script.Proofs.Canonical
import Script.Proofs.Recasting

/-!
# What counts as true

The operators `!`, `&&` and `||` and the library function `boolean` each make a truth value of a
value. The operators ask one question: false, null, zero and the empty string count as false, and
everything else counts as true. The function gives false for more values: for what is no number, and
for arrays and functions.
-/
namespace Script

namespace Value

inductive Falsy : Value → Prop
  | boolean : Falsy (.boolean false)
  | null : Falsy .null
  | number {t x} (hx : Numeral.literal? t = some x) (hz : x.isZero = true) : Falsy (.number t)
  | string : Falsy (.string (.text ""))

inductive NotANumber : Value → Prop
  | nan {t} (ht : Numeral.literal? t = some .nan) : NotANumber (.number t)

inductive Compound : Value → Prop
  | array (i items) : Compound (.array i items)
  | function (i name params body closure) : Compound (.function i name params body closure)
  | native (f) : Compound (.native f)

variable {v : Value} {t : String} {x : Double}

theorem falsy_number_iff (hx : Numeral.literal? t = some x) :
    (Value.number t).Falsy ↔ x.isZero = true := by
  constructor
  · rintro (_ | _ | ⟨hy, hz⟩ | _)
    cases hx.symm.trans hy
    exact hz
  · exact .number hx

theorem notANumber_iff (hx : Numeral.literal? t = some x) :
    (Value.number t).NotANumber ↔ x.isNaN = true := by
  constructor
  · rintro ⟨ht⟩
    cases hx.symm.trans ht
    rfl
  · intro h
    cases x with
    | nan => exact .nan hx
    | infinite negative => cases h
    | finite negative m => cases h

theorem falsy_string_iff {s : String} : (Value.string (.text s)).Falsy ↔ s = "" := by
  constructor
  · rintro ⟨⟩
    rfl
  · rintro rfl
    exact .string

theorem falsy_boolean_iff {b : Bool} : (Value.boolean b).Falsy ↔ b = false := by
  constructor
  · rintro ⟨⟩
    rfl
  · rintro rfl
    exact .boolean

theorem Compound.not_falsy (h : v.Compound) : ¬ v.Falsy := by
  cases h <;> rintro ⟨⟩

/-- What the operators ask of a value. -/
theorem Proper.isFalsy_iff (hv : v.Proper) :
    ∃ b, v.isFalsy = .ok b ∧ (b = true ↔ v.Falsy) := by
  cases hv with
  | number h =>
    obtain ⟨x, hx⟩ := Option.isSome_iff_exists.mp h
    refine ⟨x.isZero, ?_, (falsy_number_iff hx).symm⟩
    simp [Value.isFalsy, Value.readNumber, hx]
  | string s =>
    refine ⟨s.isEmpty, rfl, ?_⟩
    rw [falsy_string_iff, String.isEmpty_iff]
  | boolean b =>
    refine ⟨!b, rfl, ?_⟩
    rw [falsy_boolean_iff, Bool.not_eq_true']
  | null => exact ⟨true, rfl, fun _ => .null, fun _ => rfl⟩
  | array i h =>
    exact ⟨false, rfl, iff_of_false Bool.false_ne_true (Compound.array i _).not_falsy⟩
  | function i x ps closure h =>
    exact ⟨false, rfl, iff_of_false Bool.false_ne_true (Compound.function ..).not_falsy⟩
  | native f => exact ⟨false, rfl, iff_of_false Bool.false_ne_true (Compound.native f).not_falsy⟩

/-- What the library function asks of a value. -/
theorem Proper.toBoolean_iff (hv : v.Proper) :
    ∃ c, Library.toBoolean v = .ok c ∧
      (c = true ↔ ¬ v.Falsy ∧ ¬ v.NotANumber ∧ ¬ v.Compound) := by
  obtain ⟨b, hb, hfalsy⟩ := hv.isFalsy_iff
  have hplain (htoBoolean : Library.toBoolean v = do return !(← v.isFalsy))
      (hnumber : ¬ v.NotANumber) (hcompound : ¬ v.Compound) :
      ∃ c, Library.toBoolean v = .ok c ∧
        (c = true ↔ ¬ v.Falsy ∧ ¬ v.NotANumber ∧ ¬ v.Compound) := by
    refine ⟨!b, by rw [htoBoolean, hb]; rfl, ?_⟩
    rw [← hfalsy]
    simp [hnumber, hcompound]
  have hcompound (htoBoolean : Library.toBoolean v = .ok false) (hv : v.Compound) :
      ∃ c, Library.toBoolean v = .ok c ∧
        (c = true ↔ ¬ v.Falsy ∧ ¬ v.NotANumber ∧ ¬ v.Compound) :=
    ⟨false, htoBoolean, iff_of_false Bool.false_ne_true fun h => h.2.2 hv⟩
  cases hv with
  | number h =>
    obtain ⟨x, hx⟩ := Option.isSome_iff_exists.mp h
    refine ⟨!x.isNaN && !x.isZero, by simp [Library.toBoolean, Value.readNumber, hx], ?_⟩
    have hcompound (t : String) : ¬ (Value.number t).Compound := by rintro ⟨⟩
    simp [falsy_number_iff hx, notANumber_iff hx, hcompound, and_comm]
  | string s => exact hplain rfl (by rintro ⟨⟩) (by rintro ⟨⟩)
  | boolean b => exact hplain rfl (by rintro ⟨⟩) (by rintro ⟨⟩)
  | null => exact hplain rfl (by rintro ⟨⟩) (by rintro ⟨⟩)
  | array i h => exact hcompound rfl (.array i _)
  | function i x ps closure h => exact hcompound rfl (.function ..)
  | native f => exact hcompound rfl (.native f)

end Value

section Questions

variable {passes depth : Nat} {e : Node} {scope : ScopeId} {m n : Machine} {v : Value} {b : Bool}
  (h : evaluate passes depth e scope m = .ok v n)

include h

theorem evaluate_not (hb : v.isFalsy = .ok b) :
    evaluate passes (depth + 1) (.unaryOp (.text "!") e) scope m = .ok (.boolean b) n :=
  (Run.bind_of_ok h _).trans (Run.bind_of_ok (Run.lift_of_ok hb n) _)

/-- Twice `!` gives what the value counts as. -/
theorem evaluate_not_not (hb : v.isFalsy = .ok b) :
    evaluate passes (depth + 2) (.unaryOp (.text "!") (.unaryOp (.text "!") e)) scope m =
      .ok (.boolean !b) n :=
  evaluate_not (evaluate_not h hb) rfl

/-- Where there is room for an expression, there is room for a literal. -/
theorem evaluate_booleanLiteral (c : Bool) (k : Machine) :
    evaluate passes depth (.booleanLiteral (.boolean c)) scope k = .ok (.boolean c) k := by
  cases depth with
  | zero => cases h
  | succ depth => cases c <;> rfl

theorem evaluate_and_true (hb : v.isFalsy = .ok b) :
    evaluate passes (depth + 1)
        (.binaryOp (.text "&&") e (.booleanLiteral (.boolean true))) scope m =
      .ok (.boolean !b) n := by
  refine (Run.bind_of_ok h _).trans ((Run.bind_of_ok (Run.lift_of_ok hb n) _).trans ?_)
  cases b with
  | true => rfl
  | false => exact Run.bind_of_ok (evaluate_booleanLiteral h true n) _

theorem evaluate_or_false (hb : v.isFalsy = .ok b) :
    evaluate passes (depth + 1)
        (.binaryOp (.text "||") e (.booleanLiteral (.boolean false))) scope m =
      .ok (.boolean !b) n := by
  refine (Run.bind_of_ok h _).trans ((Run.bind_of_ok (Run.lift_of_ok hb n) _).trans ?_)
  cases b with
  | true => exact Run.bind_of_ok (evaluate_booleanLiteral h false n) _
  | false => rfl

/-- A call of the built-in function may leave a message behind. -/
theorem evaluate_boolean {c : Bool} (hv : v.Proper) (hc : Library.toBoolean v = .ok c)
    (hget : Forest.get scope (.word "boolean") m.forest = .ok (.native .boolean) m.forest) :
    ∃ es, evaluate passes (depth + 1) (.call (.text "boolean") (.list [e])) scope m =
      .ok (.boolean c) (n.withLog es) := by
  have hfunction :
      Run.scopes (Forest.get scope (.word "boolean")) m = .ok (.native .boolean) m := by
    simp only [Run.scopes, hget]
  have hargs : Evaluate.all (evaluate passes depth) scope [e] m = .ok [v] n := Run.bind_of_ok h _
  have hvalues : ∀ w ∈ [v], w.Proper := List.forall_mem_singleton.mpr hv
  obtain ⟨es, hlog⟩ := log_of_text 4 (fun _ => _) (Progress.called_message "boolean" hvalues) n
  refine ⟨es, (Run.bind_of_ok hfunction _).trans ((Run.bind_of_ok hargs _).trans
    ((Run.bind_of_ok hlog _).trans ?_))⟩
  exact Run.bind_of_ok (Run.lift_of_ok hc _) _

end Questions

namespace Session

/-- Whatever programs have run before, an expression that has a value is asked about it alike by all
three operators: the answer is false for the values that count as false and true for all others. The
library function gives false for these, for what is no number, and for arrays and functions. -/
theorem truth_of_values (ambient : Ambient) (debugLevel : Nat) (inputs : List String)
    {steps : List (Bool × Step)} (hsteps : ∀ step ∈ steps, step.2.IsProgram) {a : Moment}
    (ha : a ∈ moments steps (.fresh ambient debugLevel inputs)) {m n : Machine}
    (hm : m.forest = a.forest) {passes depth : Nat} {e : Node} {scope : ScopeId} {v : Value}
    (he : e.Expression) (h : evaluate passes depth e scope m = .ok v n) :
    ∃ b, (b = false ↔ v.Falsy) ∧
      evaluate passes (depth + 2) (.unaryOp (.text "!") (.unaryOp (.text "!") e)) scope m =
        .ok (.boolean b) n ∧
      evaluate passes (depth + 1) (.binaryOp (.text "&&") e (.booleanLiteral (.boolean true)))
        scope m = .ok (.boolean b) n ∧
      evaluate passes (depth + 1) (.binaryOp (.text "||") e (.booleanLiteral (.boolean false)))
        scope m = .ok (.boolean b) n ∧
      (Forest.get scope (.word "boolean") m.forest = .ok (.native .boolean) m.forest →
        ∃ c es, (c = false ↔ v.Falsy ∨ v.NotANumber ∨ v.Compound) ∧
          evaluate passes (depth + 1) (.call (.text "boolean") (.list [e])) scope m =
            .ok (.boolean c) (n.withLog es)) := by
  have hproper : m.Proper := by
    intro id s hs b hb
    rw [hm] at hs
    exact ((canonical_programs ambient debugLevel inputs hsteps a ha).inv id s hs b hb).proper
  have hv : v.Proper := by
    have hsafe := Progress.safe_evaluate passes depth scope (.expression he) m hproper
    rw [h] at hsafe
    cases hsafe with
    | ok _ hv => exact hv
  obtain ⟨b, hb, hfalsy⟩ := hv.isFalsy_iff
  obtain ⟨c, hc, htrue⟩ := hv.toBoolean_iff
  refine ⟨!b, by simp [hfalsy], evaluate_not_not h hb, evaluate_and_true h hb,
    evaluate_or_false h hb, fun hget => ?_⟩
  obtain ⟨es, hcall⟩ := evaluate_boolean h hv hc hget
  refine ⟨c, es, ?_, hcall⟩
  rw [← Bool.not_eq_true, htrue]
  simp only [not_and_or, not_not]

def oneItem : Node := .arrayLiteral (.list [.numberLiteral (.text "1")])

/-- An array counts as true for `!` and as false for the library function. -/
theorem arrays_count_both_ways :
    Forest.get Forest.root (.word "boolean") (Machine.fresh (.seeded 0 0) 0 []).forest =
        .ok (.native .boolean) (Machine.fresh (.seeded 0 0) 0 []).forest ∧
      ∃ m n, evaluate passLimit 4 (.unaryOp (.text "!") (.unaryOp (.text "!") oneItem)) Forest.root
          (.fresh (.seeded 0 0) 0 []) = .ok (.boolean true) m ∧
        evaluate passLimit 4 (.call (.text "boolean") (.list [oneItem])) Forest.root
          (.fresh (.seeded 0 0) 0 []) = .ok (.boolean false) n :=
  ⟨rfl, _, _, rfl, rfl⟩

theorem compound_arrayLiteral {passes depth : Nat} {items : Node} {scope : ScopeId} {m n : Machine}
    {v : Value} (h : evaluate passes (depth + 1) (.arrayLiteral items) scope m = .ok v n) :
    v.Compound := by
  obtain ⟨ns, _, -, hitems⟩ := Run.ok_of_bind h
  obtain ⟨vs, _, -, hidentity⟩ := Run.ok_of_bind hitems
  obtain ⟨i, _, -, harray⟩ := Run.ok_of_bind hidentity
  cases harray
  exact .array i vs

theorem get_boolean_closure :
    Forest.get Forest.root (.word "boolean") closureMachine.forest =
      .ok (.native .boolean) closureMachine.forest := by
  have hfound : ((closureMachine.forest.lookup? Forest.root (.word "boolean")).any fun found =>
      found.2.value.same (.native .boolean)) = true := by decide +kernel
  obtain ⟨⟨owner, b⟩, hb, hsame⟩ := (Option.any_eq_true _ _).mp hfound
  have hvalue : b.value = .native .boolean := Value.same_native_iff.mp hsame
  simp only [Forest.get, hb, hvalue]

/-- After blocks and a fault: the value of `[step()]` counts as true to every operator, whatever the
call of the closure gives, and as false to the library function. -/
theorem truth_of_values_closure :
    let e := Node.arrayLiteral (.list [.call (.text "step") (.list [])])
    ∃ v n es, evaluate passLimit 9 e Forest.root closureMachine = .ok v n ∧ v.Compound ∧
      evaluate passLimit 11 (.unaryOp (.text "!") (.unaryOp (.text "!") e)) Forest.root
        closureMachine = .ok (.boolean true) n ∧
      evaluate passLimit 10 (.binaryOp (.text "&&") e (.booleanLiteral (.boolean true)))
        Forest.root closureMachine = .ok (.boolean true) n ∧
      evaluate passLimit 10 (.binaryOp (.text "||") e (.booleanLiteral (.boolean false)))
        Forest.root closureMachine = .ok (.boolean true) n ∧
      evaluate passLimit 10 (.call (.text "boolean") (.list [e])) Forest.root closureMachine =
        .ok (.boolean false) (n.withLog es) := by
  intro e
  obtain ⟨a, ha, hforest⟩ := exists_moment_after (sources closureSteps) (.fresh (.seeded 0 0) 0 [])
  have hcall : (Node.call (.text "step") (.list [])).Expression :=
    .call (by decide) (List.forall_mem_nil _)
  have he : e.Expression := .array (List.forall_mem_singleton.mpr hcall)
  have hends : ((evaluate passLimit 9 e Forest.root).run' closureMachine).isSome = true := by
    decide +kernel
  obtain ⟨v, n, hv⟩ := Run.exists_ok_of_isSome hends
  have hcompound : v.Compound := compound_arrayLiteral hv
  obtain ⟨b, hb, hnot, hand, hor, hboolean⟩ :=
    truth_of_values (.seeded 0 0) 0 [] isProgram_of_sources ha hforest.symm he hv
  obtain ⟨c, es, hc, hcall⟩ := hboolean get_boolean_closure
  obtain rfl : c = false := hc.mpr (.inr (.inr hcompound))
  have htrue : b = true := by
    rw [← Bool.not_eq_false, hb]
    exact hcompound.not_falsy
  subst htrue
  exact ⟨v, n, es, hv, hcompound, hnot, hand, hor, hcall⟩

end Session
end Script
