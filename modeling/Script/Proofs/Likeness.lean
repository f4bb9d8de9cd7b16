import Script.Proofs.Discarding
import Mathlib.Order.Basic

/-!
# Values that are alike

Values of two runs that differ in nothing but the bodies of functions, in a way that is given, and
in the scopes that functions close over, which stand for each other in the forests of the two runs.
Neither operators nor library functions tell such values apart: what they compute from alike values
is alike, and what they print is the same.
-/
namespace Script

open Forest

/-- Which scopes of two forests stand for each other, and which scopes of the second are blank, with
the scopes that they lie in. -/
structure Matching where
  pair : ScopeId → ScopeId → Prop
  blank : ScopeId → ScopeId → Prop

namespace Matching

/-- A matching grows when scopes are made. -/
instance : Preorder Matching := Preorder.lift fun W => (W.pair, W.blank)

def self (f : Forest) : Matching where
  pair a b := a = b ∧ a < f.scopes.size
  blank _ _ := False

def link (W : Matching) (a b : ScopeId) : Matching :=
  { W with pair := fun x y => W.pair x y ∨ x = a ∧ y = b }

def pass (W : Matching) (b p : ScopeId) : Matching :=
  { W with blank := fun x y => W.blank x y ∨ x = b ∧ y = p }

/-- A scope, and one that stands for it or has only blank scopes between. -/
inductive Sees (W : Matching) (a : ScopeId) : ScopeId → Prop
  | pair {b} (h : W.pair a b) : Sees W a b
  | blank {b p} (hb : W.blank b p) (h : Sees W a p) : Sees W a b

variable {W V : Matching} {a b p : ScopeId}

theorem pair_mono (h : W ≤ V) (hab : W.pair a b) : V.pair a b := h.1 a b hab

theorem blank_mono (h : W ≤ V) (hb : W.blank b p) : V.blank b p := h.2 b p hb

theorem Sees.mono (h : W ≤ V) (hab : W.Sees a b) : V.Sees a b := by
  induction hab with
  | pair hab => exact .pair (pair_mono h hab)
  | blank hb _ ih => exact .blank (blank_mono h hb) ih

theorem le_link (W : Matching) (a b : ScopeId) : W ≤ W.link a b :=
  ⟨fun _ _ h => .inl h, fun _ _ h => h⟩

theorem le_pass (W : Matching) (b p : ScopeId) : W ≤ W.pass b p :=
  ⟨fun _ _ h => h, fun _ _ h => .inl h⟩

end Matching

section Like

variable (B : Node → Node → Prop) (W : Matching)

/-- Values that differ in nothing but the bodies of functions and the scopes they close over. -/
inductive Value.Like : Value → Value → Prop
  | number (text) : Like (.number text) (.number text)
  | string (c) : Like (.string c) (.string c)
  | boolean (b) : Like (.boolean b) (.boolean b)
  | null : Like .null .null
  | array (i) {items items'} (hl : items.length = items'.length)
      (h : ∀ v v', (v, v') ∈ items.zip items' → Like v v') : Like (.array i items) (.array i items')
  | function (i name params) {body body' closure closure'} (hb : B body body')
      (hc : W.pair closure closure') :
      Like (.function i name params body closure) (.function i name params body' closure')
  | native (n) : Like (.native n) (.native n)

end Like

/-- Two results of which both are the same fault, or both are values that are related. -/
inductive Agree {α : Type} (P : α → α → Prop) : Except Fault α → Except Fault α → Prop
  | ok {a a'} (h : P a a') : Agree P (.ok a) (.ok a')
  | error (fault) : Agree P (.error fault) (.error fault)

namespace Value

variable {B : Node → Node → Prop} {W V : Matching} {v v' w w' : Value}

theorem like_array {i : Identity} {items items' : List Value} :
    Like B W (.array i items) (.array i items') ↔ List.Forall₂ (Like B W) items items' := by
  rw [List.forall₂_iff_zip]
  constructor
  · intro h
    cases h with
    | array _ hl h => exact ⟨hl, h _ _⟩
  · rintro ⟨hl, h⟩
    exact .array i hl fun _ _ hv => h hv

theorem Like.mono (h : W ≤ V) (hv : v.Like B W v') : v.Like B V v' := by
  induction hv with
  | array i hl _ ih => exact .array i hl ih
  | function i name params hb hc => exact .function i name params hb (Matching.pair_mono h hc)
  | number text => exact .number text
  | string c => exact .string c
  | boolean b => exact .boolean b
  | null => exact .null
  | native n => exact .native n

theorem Simple.like (h : v.Simple) : v.Like B W v := by
  cases h with
  | number x => exact .number _
  | string c => exact .string c
  | boolean b => exact .boolean b
  | null => exact .null
  | strings i cs =>
    refine like_array.mpr (List.forall₂_same.mpr fun v hv => ?_)
    obtain ⟨c, -, rfl⟩ := List.mem_map.mp hv
    exact .string c

/-- A value whose functions close over scopes that stand for themselves. -/
theorem Kept.like {f : Forest} (hB : ∀ n, B n n) (h : v.Kept f) : v.Like B (.self f) v := by
  induction h with
  | array i _ ih => exact like_array.mpr (List.forall₂_same.mpr ih)
  | function i name params body h =>
    obtain ⟨s, hs, -⟩ := h
    exact .function i name params (hB body) ⟨rfl, lt_size_of_scope? hs⟩
  | number text => exact .number text
  | string c => exact .string c
  | boolean b => exact .boolean b
  | null => exact .null
  | native n => exact .native n

theorem contents_congr {vs vs' : List Value}
    (h : List.Forall₂ (fun v v' => v.content = v'.content) vs vs') :
    contents vs = contents vs' := by
  induction h with
  | nil => rfl
  | cons hv _ ih => rw [contents, contents, hv, ih]

theorem Like.content_eq (h : v.Like B W v') : v.content = v'.content := by
  induction h with
  | array i hl _ ih =>
    have hitems := List.forall₂_iff_zip.mpr ⟨hl, fun {v v'} hv => ih v v' hv⟩
    rw [content, content, contents_congr hitems]
  | function => rw [content, content]
  | _ => rfl

theorem Like.contents_eq {vs vs' : List Value} (h : List.Forall₂ (Like B W) vs vs') :
    contents vs = contents vs' :=
  contents_congr (h.imp fun _ _ hv => hv.content_eq)

theorem Like.kindName_eq (h : v.Like B W v') : v.kindName = v'.kindName := by
  cases h <;> rfl

theorem Like.isNull_eq (h : v.Like B W v') : v.isNull = v'.isNull := by
  cases h <;> rfl

theorem Like.toDouble_eq (h : v.Like B W v') : v.toDouble = v'.toDouble := by
  cases h <;> rfl

theorem Like.isFalsy_eq (h : v.Like B W v') : v.isFalsy = v'.isFalsy := by
  cases h <;> rfl

theorem Like.holds_eq (h : v.Like B W v') : v.holds = v'.holds := by
  rw [holds, holds, h.content_eq]

theorem Like.same_eq (h : v.Like B W v') (h' : w.Like B W w') : v.same w = v'.same w' := by
  cases h <;> cases h' <;> rfl

/-- A result that does not depend on what the operands differ in. -/
theorem agree_of_simple {x : Except Fault Value}
    (h : ∀ u, x = .ok u → u.Simple) : Agree (Like B W) x x := by
  cases x with
  | error fault => exact .error fault
  | ok u => exact .ok (h u rfl).like

theorem like_getD {items items' : List Value} (h : List.Forall₂ (Like B W) items items') (i : Nat) :
    (items[i]?.getD .null).Like B W (items'[i]?.getD .null) := by
  induction h generalizing i with
  | nil => exact .null
  | cons hv _ ih =>
    cases i with
    | zero => exact hv
    | succ i => exact ih i

theorem Like.part (h : v.Like B W v') (i : Nat) : Agree (Like B W) (v.part i) (v'.part i) := by
  cases h with
  | array id hl hitems =>
    exact .ok (like_getD (like_array.mp (.array id hl hitems)) i)
  | string c =>
    refine agree_of_simple fun u hu => ?_
    rcases part_result hu with hs | ⟨id, items, hc, -⟩
    · exact hs
    · cases hc
  | _ => exact .ok .null

theorem Like.get (h : v.Like B W v') (h' : w.Like B W w') :
    Agree (Like B W) (v.get w) (v'.get w') := by
  rw [Value.get, Value.get, ← h'.toDouble_eq]
  cases w.toDouble with
  | error fault => exact .error fault
  | ok x =>
    simp only [ok_bind]
    split
    · exact .ok .null
    · exact .ok .null
    · split
      · exact .ok .null
      · exact h.part _

end Value

namespace Operator

variable {B : Node → Node → Prop} {W : Matching} {a a' b b' : Value}

theorem add_eq (ha : a.Like B W a') (hb : b.Like B W b') : add a b = add a' b' := by
  have hac := ha.content_eq
  have hbc := hb.content_eq
  cases ha <;> cases hb <;> simp only [add, hac, hbc]

theorem subtract_eq (ha : a.Like B W a') (hb : b.Like B W b') : subtract a b = subtract a' b' := by
  cases ha <;> cases hb <;> rfl

theorem multiply_eq (ha : a.Like B W a') (hb : b.Like B W b') : multiply a b = multiply a' b' := by
  cases ha <;> cases hb <;> rfl

theorem copies?_eq (operator : String) (ha : a.Like B W a') (hb : b.Like B W b') :
    copies? operator a b = copies? operator a' b' := by
  cases ha <;> cases hb <;> rfl

theorem divide_eq (i : Identity) (ha : a.Like B W a') (hb : b.Like B W b') :
    divide i a b = divide i a' b' := by
  cases ha <;> cases hb <;> rfl

theorem remainder_eq (ha : a.Like B W a') (hb : b.Like B W b') :
    remainder a b = remainder a' b' := by
  cases ha <;> cases hb <;> rfl

theorem power_eq (ha : a.Like B W a') (hb : b.Like B W b') : power a b = power a' b' := by
  cases ha <;> cases hb <;> rfl

theorem compare_eq (holds : Double → Double → Bool) (ha : a.Like B W a') (hb : b.Like B W b') :
    compare holds a b = compare holds a' b' := by
  rw [compare, compare, ha.toDouble_eq, hb.toDouble_eq]

/-- Operators do not tell alike operands apart. -/
theorem apply_eq (i : Identity) (operator : String) (ha : a.Like B W a') (hb : b.Like B W b') :
    apply i operator a b = apply i operator a' b' := by
  unfold apply
  split
  · exact add_eq ha hb
  · exact subtract_eq ha hb
  · exact multiply_eq ha hb
  · exact divide_eq i ha hb
  · exact remainder_eq ha hb
  · exact power_eq ha hb
  · rw [ha.same_eq hb]
  · rw [ha.same_eq hb]
  · exact compare_eq _ ha hb
  · exact compare_eq _ ha hb
  · exact compare_eq _ ha hb
  · exact compare_eq _ ha hb
  · rfl

theorem apply_agree (i : Identity) (operator : String) (ha : a.Like B W a') (hb : b.Like B W b') :
    Agree (Value.Like B W) (apply i operator a b) (apply i operator a' b') := by
  have heq := apply_eq i operator ha hb
  cases h : apply i operator a b with
  | error fault =>
    rw [← heq, h]
    exact .error fault
  | ok v =>
    rw [← heq, h]
    rcases apply_result h, apply_result (heq ▸ h) with ⟨hv | rfl, hv' | rfl⟩
    · exact .ok hv.like
    · exact .ok hv.like
    · exact .ok hv'.like
    · exact .ok ha

theorem step?_eq (operator : String) (ha : a.Like B W a') :
    step? operator a = step? operator a' := by
  cases ha <;> rfl

end Operator

namespace Library

variable {B : Node → Node → Prop} {W : Matching} {args args' : List Value}

theorem hint_eq (h : List.Forall₂ (Value.Like B W) args args') : hint args = hint args' := by
  cases h with
  | nil => rfl
  | cons hv _ => exact hv.content_eq

theorem toNumber_eq {v v' : Value} (h : v.Like B W v') : toNumber v = toNumber v' := by
  cases h <;> rfl

theorem toBoolean_eq {v v' : Value} (h : v.Like B W v') : toBoolean v = toBoolean v' := by
  cases h <;> rfl

theorem length_eq {v v' : Value} (h : v.Like B W v') : length v = length v' := by
  cases h with
  | array _ hl _ => exact congrArg Except.ok hl
  | _ => rfl

/-- What a library function computes from its first argument. -/
theorem of_one_eq {α : Type} {k : Value → Run α} (h : List.Forall₂ (Value.Like B W) args args')
    (hk : ∀ {v v'}, v.Like B W v' → k v = k v') : one args >>= k = one args' >>= k := by
  cases h with
  | nil => rfl
  | cons hv _ => exact hk hv

/-- Library functions do not tell alike arguments apart. -/
theorem call_eq (f : Native) (h : List.Forall₂ (Value.Like B W) args args') :
    call f args = call f args' := by
  cases f with
  | print => rw [call, call, Value.Like.contents_eq h]
  | clear | timestamp => rfl
  | rand | input => rw [call, call, hint_eq h]
  | number => exact of_one_eq h fun hv => by rw [toNumber_eq hv]
  | string => exact of_one_eq h fun hv => by rw [hv.content_eq]
  | boolean => exact of_one_eq h fun hv => by rw [toBoolean_eq hv]
  | length => exact of_one_eq h fun hv => by rw [length_eq hv]
  | type => exact of_one_eq h fun hv => by rw [hv.kindName_eq]

end Library

end Script
