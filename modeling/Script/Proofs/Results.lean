import Script.Library

/-!
# What operators and library functions give

Apart from the items of arrays and from operands that are handed through, the value of an operator
or of a library function is made on the spot: a number that was written out, a string, a truth
value, null, or an array of strings.
-/
namespace Script

@[simp] theorem ok_bind {ε α β : Type} (a : α) (k : α → Except ε β) : (.ok a >>= k) = k a := rfl

@[simp] theorem error_bind {ε α β : Type} (e : ε) (k : α → Except ε β) :
    (.error e >>= k) = .error e := rfl

@[simp] theorem pure_eq_ok {ε α : Type} (a : α) : (pure a : Except ε α) = .ok a := rfl

theorem bind_ok_iff {ε α β : Type} (x : Except ε α) (k : α → Except ε β) (b : β) :
    x >>= k = .ok b ↔ ∃ a, x = .ok a ∧ k a = .ok b := by
  cases x <;> simp [bind, Except.bind]

theorem pure_ok_iff {ε α : Type} (a b : α) : (pure a : Except ε α) = .ok b ↔ a = b := by
  simp [pure, Except.pure]

namespace Value

inductive Simple : Value → Prop
  | number (x) : Simple (ofDouble x)
  | string (c) : Simple (.string c)
  | boolean (b) : Simple (.boolean b)
  | null : Simple .null
  | strings (i cs) : Simple (Operator.strings i cs)

theorem part_result {i : Nat} {v w : Value} (h : v.part i = .ok w) :
    w.Simple ∨ ∃ id items, v = .array id items ∧ w ∈ items := by
  cases v with
  | array id items =>
    simp only [part, Except.ok.injEq] at h
    cases hi : items[i]? with
    | none =>
      rw [hi] at h
      exact .inl (h ▸ .null)
    | some u =>
      rw [hi] at h
      exact .inr ⟨id, items, rfl, h ▸ List.mem_of_getElem? hi⟩
  | string c =>
    obtain ⟨part?, -, h⟩ := (bind_ok_iff _ _ _).mp h
    cases part? with
    | none => exact .inl ((pure_ok_iff _ _).mp h ▸ .null)
    | some d => exact .inl ((pure_ok_iff _ _).mp h ▸ .string d)
  | _ =>
    simp only [part, Except.ok.injEq] at h
    exact .inl (h ▸ .null)

theorem get_result {v i w : Value} (h : v.get i = .ok w) :
    w.Simple ∨ ∃ id items, v = .array id items ∧ w ∈ items := by
  obtain ⟨x, -, h⟩ := (bind_ok_iff _ _ _).mp h
  split at h
  · exact .inl ((pure_ok_iff _ _).mp h ▸ .null)
  · exact .inl ((pure_ok_iff _ _).mp h ▸ .null)
  · split at h
    · exact .inl ((pure_ok_iff _ _).mp h ▸ .null)
    · exact part_result h

end Value

namespace Operator

open Value

theorem add_result {a b v : Value} (h : add a b = .ok v) : v.Simple := by
  unfold add at h
  split at h
  all_goals simp only [bind_ok_iff, pure_ok_iff, Except.ok.injEq] at h
  · obtain ⟨_, _, _, _, _, _, rfl⟩ := h
    exact .string _
  · obtain ⟨_, _, _, _, _, _, rfl⟩ := h
    exact .string _
  · obtain ⟨_, _, _, _, rfl⟩ := h
    exact .number _
  · exact h ▸ .boolean _
  · exact h ▸ .null

theorem subtract_result {a b v : Value} (h : subtract a b = .ok v) : v.Simple := by
  unfold subtract at h
  split at h
  all_goals simp only [bind_ok_iff, pure_ok_iff, Except.ok.injEq] at h
  · obtain ⟨_, _, _, _, rfl⟩ := h
    exact .number _
  · obtain ⟨_, _, rfl⟩ := h
    exact .string _
  · obtain ⟨_, _, _, _, rfl⟩ := h
    exact .string _
  · obtain ⟨_, _, _, _, rfl⟩ := h
    exact .string _
  · exact h ▸ .boolean _
  · obtain ⟨_, _, _, _, rfl⟩ := h
    exact .number _
  · obtain ⟨_, _, _, _, rfl⟩ := h
    exact .number _
  · exact h ▸ .null

theorem multiply_result {a b v : Value} (h : multiply a b = .ok v) : v.Simple ∨ v = a := by
  unfold multiply at h
  split at h
  all_goals simp only [bind_ok_iff, pure_ok_iff, Except.ok.injEq] at h
  · obtain ⟨_, _, _, _, rfl⟩ := h
    exact .inl (.number _)
  · obtain ⟨_, _, _, _, rfl⟩ := h
    exact .inl (.string _)
  · exact .inl (h ▸ .string _)
  · split at h
    · exact .inr h.symm
    · exact .inl (h ▸ .number _)
  · exact .inl (h ▸ .boolean _)
  · exact .inl (h ▸ .null)

theorem divide_result {i : Identity} {a b v : Value} (h : divide i a b = .ok v) : v.Simple := by
  unfold divide at h
  split at h
  · obtain ⟨x, -, h⟩ := (bind_ok_iff _ _ _).mp h
    split at h
    · cases h
    · obtain ⟨y, -, h⟩ := (bind_ok_iff _ _ _).mp h
      exact (pure_ok_iff _ _).mp h ▸ .number _
  · obtain ⟨cs, -, h⟩ := (bind_ok_iff _ _ _).mp h
    exact (pure_ok_iff _ _).mp h ▸ .strings i cs
  · obtain ⟨cs, -, h⟩ := (bind_ok_iff _ _ _).mp h
    exact (pure_ok_iff _ _).mp h ▸ .strings i cs
  · exact Except.ok.inj h ▸ .null

theorem remainder_result {a b v : Value} (h : remainder a b = .ok v) : v.Simple := by
  unfold remainder at h
  split at h
  · obtain ⟨x, -, h⟩ := (bind_ok_iff _ _ _).mp h
    split at h
    · exact (pure_ok_iff _ _).mp h ▸ .number _
    · obtain ⟨y, -, h⟩ := (bind_ok_iff _ _ _).mp h
      split at h
      · cases h
      · exact (pure_ok_iff _ _).mp h ▸ .number _
  · exact Except.ok.inj h ▸ .null

theorem power_result {a b v : Value} (h : power a b = .ok v) : v.Simple := by
  unfold power at h
  split at h
  · obtain ⟨x, -, h⟩ := (bind_ok_iff _ _ _).mp h
    obtain ⟨y, -, h⟩ := (bind_ok_iff _ _ _).mp h
    exact (pure_ok_iff _ _).mp h ▸ .number _
  · exact Except.ok.inj h ▸ .null

theorem compare_result {r : Double → Double → Bool} {a b v : Value} (h : compare r a b = .ok v) :
    v.Simple := by
  obtain ⟨x, -, h⟩ := (bind_ok_iff _ _ _).mp h
  obtain ⟨y, -, h⟩ := (bind_ok_iff _ _ _).mp h
  exact (pure_ok_iff _ _).mp h ▸ .boolean _

/-- An operator makes its value, or hands its left operand through. -/
theorem apply_result {i : Identity} {operator : String} {a b v : Value}
    (h : apply i operator a b = .ok v) : v.Simple ∨ v = a := by
  unfold apply at h
  split at h
  · exact .inl (add_result h)
  · exact .inl (subtract_result h)
  · exact multiply_result h
  · exact .inl (divide_result h)
  · exact .inl (remainder_result h)
  · exact .inl (power_result h)
  · exact .inl (Except.ok.inj h ▸ .boolean _)
  · exact .inl (Except.ok.inj h ▸ .boolean _)
  · exact .inl (compare_result h)
  · exact .inl (compare_result h)
  · exact .inl (compare_result h)
  · exact .inl (compare_result h)
  · cases h

theorem step?_result {operator : String} {v w : Value} (h : step? operator v = .ok (some w)) :
    w.Simple := by
  cases v with
  | number text =>
    obtain ⟨x, -, h⟩ := (bind_ok_iff _ _ _).mp h
    exact Option.some.inj ((pure_ok_iff _ _).mp h) ▸ .number _
  | string c =>
    rw [step?] at h
    split at h
    · obtain ⟨d, -, h⟩ := (bind_ok_iff _ _ _).mp h
      exact Option.some.inj ((pure_ok_iff _ _).mp h) ▸ .string d
    · simp at h
  | boolean b =>
    simp only [step?, Except.ok.injEq] at h
    split at h
    · exact Option.some.inj h ▸ .boolean _
    · cases h
  | _ => simp [step?] at h

end Operator

namespace Library

theorem toNumber_result {v w : Value} (h : toNumber v = .ok w) : w.Simple ∨ w = v := by
  unfold toNumber at h
  split at h
  · exact .inr (Except.ok.inj h).symm
  · exact .inl (Except.ok.inj h ▸ .number _)
  · exact .inl (Except.ok.inj h ▸ .number _)
  · exact .inl (Except.ok.inj h ▸ .number _)
  · exact .inl (Except.ok.inj h ▸ .number _)
  · cases h
  · exact .inl (Except.ok.inj h ▸ .number _)

/-- What holds of numbers, of texts and of library functions holds of all that the library binds. -/
theorem forall_bindings {P : Value → Prop} (number : ∀ x, P (.ofDouble x))
    (text : ∀ s, P (.ofText s)) (native : ∀ f, P (.native f)) : ∀ b ∈ bindings, P b.value := by
  intro b hb
  rcases List.mem_append.mp hb with hb | hb
  · simp only [constants, List.mem_cons, List.not_mem_nil, or_false] at hb
    rcases hb with rfl | rfl | rfl
    · exact number pi
    · exact number e
    · exact text version
  · obtain ⟨f, -, rfl⟩ := List.mem_map.mp hb
    exact native f

/-- Before anything has run there is no scope but the root scope. -/
theorem eq_root_of_scope? {id : ScopeId} {s : Scope}
    (h : (Forest.mk #[root]).scope? id = some s) : id = Forest.root ∧ s = root := by
  cases id with
  | zero => exact ⟨rfl, (Option.some.inj h).symm⟩
  | succ id => simp [Forest.scope?] at h

end Library
end Script
