import Script.Scope
import Mathlib.Tactic.SplitIfs

/-!
# Chains of scopes

What an elementary change does to the scopes of a forest, which scopes lie around a scope, and what
looking up and capturing do along that chain.
-/
namespace Script.Forest

theorem lt_size_of_scope? {f : Forest} {id : ScopeId} {s : Scope} (h : f.scope? id = some s) :
    id < f.scopes.size := by
  obtain ⟨hlt, -⟩ := Array.getElem?_eq_some_iff.mp h
  exact hlt

theorem exists_scope?_of_lt {f : Forest} {id : ScopeId} (h : id < f.scopes.size) :
    ∃ s, f.scope? id = some s :=
  ⟨f.scopes[id], Array.getElem?_eq_getElem h⟩

@[simp] theorem scopes_size_modifyAt (f : Forest) (id : ScopeId) (change : Scope → Scope) :
    (f.modifyAt id change).scopes.size = f.scopes.size := by
  simp [modifyAt]

theorem scope?_modifyAt (f : Forest) (id : ScopeId) (change : Scope → Scope) (a : ScopeId) :
    (f.modifyAt id change).scope? a = if id = a then (f.scope? a).map change else f.scope? a := by
  simp [modifyAt, scope?, Array.getElem?_modify]

theorem scope?_modifyAt_self (f : Forest) (id : ScopeId) (change : Scope → Scope) :
    (f.modifyAt id change).scope? id = (f.scope? id).map change := by
  simp [scope?_modifyAt]

theorem scope?_modifyAt_of_ne (f : Forest) {id a : ScopeId} (h : a ≠ id) (change : Scope → Scope) :
    (f.modifyAt id change).scope? a = f.scope? a := by
  simp [scope?_modifyAt, h.symm]

theorem scope?_modifyAt_of_eq_some {f : Forest} {id : ScopeId} {s : Scope}
    (hs : f.scope? id = some s) (change : Scope → Scope) :
    (f.modifyAt id change).scope? id = some (change s) := by
  rw [scope?_modifyAt_self, hs, Option.map_some]

/-- A scope of a forest in which one has been changed is that one or an old one. -/
theorem scope?_modifyAt_eq_some {f : Forest} {id a : ScopeId} {change : Scope → Scope} {t : Scope}
    (h : (f.modifyAt id change).scope? a = some t) :
    (a = id ∧ ∃ s, f.scope? id = some s ∧ t = change s) ∨ (a ≠ id ∧ f.scope? a = some t) := by
  by_cases ha : a = id
  · subst ha
    rw [scope?_modifyAt_self] at h
    obtain ⟨s, hs, rfl⟩ := Option.map_eq_some_iff.mp h
    exact .inl ⟨rfl, s, hs, rfl⟩
  · rw [scope?_modifyAt_of_ne f ha] at h
    exact .inr ⟨ha, h⟩

theorem scope?_push_self (f : Forest) (s : Scope) :
    (Forest.mk (f.scopes.push s)).scope? f.scopes.size = some s := by
  simp [scope?]

theorem scope?_push_of_lt (f : Forest) (s : Scope) {id : ScopeId} (h : id < f.scopes.size) :
    (Forest.mk (f.scopes.push s)).scope? id = f.scope? id := by
  have hne : id ≠ f.scopes.size := Nat.ne_of_lt h
  simp [scope?, Array.getElem?_push, hne]

/-- A scope of a forest with one more scope is the new one or an old one. -/
theorem scope?_push_eq_some {f : Forest} {s t : Scope} {id : ScopeId}
    (h : (Forest.mk (f.scopes.push s)).scope? id = some t) :
    (id = f.scopes.size ∧ t = s) ∨ (id < f.scopes.size ∧ f.scope? id = some t) := by
  have hlt := lt_size_of_scope? h
  rw [Array.size_push] at hlt
  by_cases hid : id = f.scopes.size
  · rw [hid, scope?_push_self] at h
    exact .inl ⟨hid, (Option.some.inj h).symm⟩
  · have hid : id < f.scopes.size := Nat.lt_of_le_of_ne (Nat.le_of_lt_succ hlt) hid
    rw [scope?_push_of_lt f s hid] at h
    exact .inr ⟨hid, h⟩

def IsCaptured (f : Forest) (id : ScopeId) : Prop := ∃ s, f.scope? id = some s ∧ s.captured = true

/-- `a` is the scope `id` or lies around it. -/
inductive Above (f : Forest) : ScopeId → ScopeId → Prop
  | refl (id) : Above f id id
  | step {id s p a} (hs : f.scope? id = some s) (hp : s.parent? = some p) (h : Above f p a) :
      Above f id a

theorem Above.trans {f : Forest} {a b c : ScopeId} (h : Above f a b) (h' : Above f b c) :
    Above f a c := by
  induction h with
  | refl => exact h'
  | step hs hp _ ih => exact .step hs hp (ih h')

theorem above_iff {f : Forest} {id a : ScopeId} {s : Scope} (hs : f.scope? id = some s) :
    Above f id a ↔ a = id ∨ ∃ p, s.parent? = some p ∧ Above f p a := by
  constructor
  · intro h
    cases h with
    | refl => exact .inl rfl
    | step hs' hp h =>
      obtain rfl := Option.some.inj (hs.symm.trans hs')
      exact .inr ⟨_, hp, h⟩
  · rintro (rfl | ⟨p, hp, h⟩)
    · exact .refl _
    · exact .step hs hp h

theorem Above.le {f : Forest} (hlt : ∀ {i s p}, f.scope? i = some s → s.parent? = some p → p < i)
    {id a : ScopeId} (h : Above f id a) : a ≤ id := by
  induction h with
  | refl => exact Nat.le_refl _
  | step hs hp _ ih => exact Nat.le_trans ih (Nat.le_of_lt (hlt hs hp))

/-- Two forests of the same scopes, their bindings and marks aside, have the same chains. -/
theorem Above.congr {f g : Forest} {id a : ScopeId}
    (hg : ∀ i s, f.scope? i = some s → ∃ t, g.scope? i = some t ∧ t.parent? = s.parent?)
    (h : Above f id a) : Above g id a := by
  induction h with
  | refl => exact .refl _
  | step hs hp _ ih =>
    obtain ⟨t, ht, htp⟩ := hg _ _ hs
    exact .step ht (htp.trans hp) ih

theorem above_modifyAt (f : Forest) (id : ScopeId) {change : Scope → Scope}
    (hc : ∀ s, (change s).parent? = s.parent?) (a b : ScopeId) :
    Above (f.modifyAt id change) a b ↔ Above f a b := by
  constructor
  · refine Above.congr fun i t ht => ?_
    rcases scope?_modifyAt_eq_some ht with ⟨rfl, s, hs, rfl⟩ | ⟨-, hs⟩
    · exact ⟨s, hs, (hc s).symm⟩
    · exact ⟨t, hs, rfl⟩
  · refine Above.congr fun i s hs => ?_
    rw [scope?_modifyAt, hs]
    split
    · exact ⟨change s, rfl, hc s⟩
    · exact ⟨s, rfl, rfl⟩

/-- Scopes lie in older ones, and what lies around a captured scope is captured. -/
structure Sound (f : Forest) : Prop where
  parent_lt : ∀ {id s p}, f.scope? id = some s → s.parent? = some p → p < id
  captured_parent : ∀ {id s p}, f.scope? id = some s → s.captured = true → s.parent? = some p →
    f.IsCaptured p

namespace Sound

variable {f : Forest}

theorem isCaptured_above (hf : f.Sound) {id a : ScopeId} (h : Above f id a)
    (hc : f.IsCaptured id) : f.IsCaptured a := by
  induction h with
  | refl => exact hc
  | step hs hp _ ih =>
    obtain ⟨t, ht, htc⟩ := hc
    obtain rfl := Option.some.inj (hs.symm.trans ht)
    exact ih (hf.captured_parent hs htc hp)

/-- A change of bindings only. -/
theorem modifyAt (hf : f.Sound) (id : ScopeId) {change : Scope → Scope}
    (hc : ∀ s, (change s).parent? = s.parent? ∧ (change s).captured = s.captured) :
    (f.modifyAt id change).Sound := by
  have hold {a t} (ht : (f.modifyAt id change).scope? a = some t) :
      ∃ s, f.scope? a = some s ∧ t.parent? = s.parent? ∧ t.captured = s.captured := by
    rcases scope?_modifyAt_eq_some ht with ⟨rfl, s, hs, rfl⟩ | ⟨-, hs⟩
    · exact ⟨s, hs, hc s⟩
    · exact ⟨t, hs, rfl, rfl⟩
  refine ⟨?_, ?_⟩
  · intro a t p ht hp
    obtain ⟨s, hs, hsp, -⟩ := hold ht
    exact hf.parent_lt hs (hsp ▸ hp)
  · intro a t p ht htc hp
    obtain ⟨s, hs, hsp, hsc⟩ := hold ht
    obtain ⟨u, hu, huc⟩ := hf.captured_parent hs (hsc ▸ htc) (hsp ▸ hp)
    by_cases hpid : p = id
    · subst hpid
      exact ⟨change u, scope?_modifyAt_of_eq_some hu change, (hc u).2.trans huc⟩
    · exact ⟨u, (scope?_modifyAt_of_ne f hpid _).trans hu, huc⟩

theorem push (hf : f.Sound) {p : ScopeId} (hp : p < f.scopes.size) :
    (Forest.mk (f.scopes.push (.inside (some p)))).Sound := by
  refine ⟨?_, ?_⟩
  · intro id t q ht hq
    rcases scope?_push_eq_some ht with ⟨rfl, rfl⟩ | ⟨-, hs⟩
    · obtain rfl : p = q := Option.some.inj hq
      exact hp
    · exact hf.parent_lt hs hq
  · intro id t q ht htc hq
    rcases scope?_push_eq_some ht with ⟨-, rfl⟩ | ⟨-, hs⟩
    · cases htc
    · obtain ⟨u, hu, huc⟩ := hf.captured_parent hs htc hq
      exact ⟨u, (scope?_push_of_lt f _ (lt_size_of_scope? hu)).trans hu, huc⟩

end Sound

/-- Leaving a scope clears it, if it is not captured, and does nothing else. -/
theorem leave_cases (f : Forest) (discards : Bool) (id : ScopeId) :
    f.leave discards id = f ∨
      ¬ f.IsCaptured id ∧ f.leave discards id = f.modifyAt id Scope.clear := by
  rw [leave, release]
  split_ifs
  · cases hs : f.scope? id with
    | none => exact .inl rfl
    | some s =>
      simp only
      split_ifs with hc
      · exact .inl rfl
      · refine .inr ⟨?_, rfl⟩
        rintro ⟨t, ht, htc⟩
        obtain rfl := Option.some.inj (hs.symm.trans ht)
        exact hc htc
  · exact .inl rfl

/-- Leaving a scope leaves all others as they are. -/
theorem scope?_leave_of_ne {id a : ScopeId} (h : a ≠ id) (f : Forest) (discards : Bool) :
    (f.leave discards id).scope? a = f.scope? a := by
  rcases leave_cases f discards id with hleave | ⟨-, hleave⟩
  · rw [hleave]
  · rw [hleave, scope?_modifyAt_of_ne f h]

/-- Capturing marks scopes, one after the other, and does nothing else: what marking a scope
preserves is preserved, wherever the walk stops. -/
theorem captureFrom_induction {P : Forest → Prop}
    (mark : ∀ f id, P f → P (f.modifyAt id Scope.capture)) (steps : Nat) (id : ScopeId) {f : Forest}
    (hf : P f) : P (captureFrom steps id f) := by
  induction steps generalizing id f with
  | zero => exact hf
  | succ steps ih =>
    rw [captureFrom]
    cases f.scope? id with
    | none => exact hf
    | some s =>
      simp only
      split_ifs
      · exact hf
      · cases s.parent? with
        | none => exact mark f id hf
        | some p => exact ih p (mark f id hf)

theorem scopes_size_captureFrom (steps : Nat) (id : ScopeId) (f : Forest) :
    (captureFrom steps id f).scopes.size = f.scopes.size :=
  captureFrom_induction (P := fun g => g.scopes.size = f.scopes.size)
    (fun g a h => (scopes_size_modifyAt g a _).trans h) steps id rfl

def Descends (f : Forest) : Prop := ∀ {i s p}, f.scope? i = some s → s.parent? = some p → p < i

/-- On the way up from a scope, what lies around a captured scope is captured too. -/
def Settled (f : Forest) (id : ScopeId) : Prop :=
  ∀ a, Above f id a → f.IsCaptured a → ∀ b, Above f a b → f.IsCaptured b

section Marking

variable {f : Forest} {id p : ScopeId} {s : Scope}

theorem above_mark (f : Forest) (id b c : ScopeId) :
    Above (f.modifyAt id Scope.capture) b c ↔ Above f b c := by
  refine above_modifyAt f id ?_ b c
  intro s
  rfl

theorem Descends.mark (hf : f.Descends) (id : ScopeId) :
    (f.modifyAt id Scope.capture).Descends := by
  intro i t q ht hq
  rcases scope?_modifyAt_eq_some ht with ⟨rfl, u, hu, rfl⟩ | ⟨-, hu⟩
  · exact hf hu hq
  · exact hf hu hq

/-- Marking a scope does not touch the scopes around it. -/
theorem Descends.scope?_mark (hf : f.Descends) (hp : p < id) {b : ScopeId} (hb : Above f p b) :
    (f.modifyAt id Scope.capture).scope? b = f.scope? b := by
  have hle : b ≤ p := hb.le hf
  exact scope?_modifyAt_of_ne f (Nat.ne_of_lt (Nat.lt_of_le_of_lt hle hp)) _

theorem Settled.mark (hf : f.Descends) (hup : f.Settled id) (hs : f.scope? id = some s)
    (hp : s.parent? = some p) : (f.modifyAt id Scope.capture).Settled p := by
  intro b hb hbc c hcb
  rw [above_mark] at hb hcb
  have hcap {d : ScopeId} (hd : Above f p d) :
      (f.modifyAt id Scope.capture).IsCaptured d ↔ f.IsCaptured d := by
    rw [IsCaptured, hf.scope?_mark (hf hs hp) hd, IsCaptured]
  rw [hcap (hb.trans hcb)]
  exact hup b (.step hs hp hb) ((hcap hb).mp hbc) c hcb

end Marking

/-- Capturing a scope marks the scopes around it, and no others: where the walk stops early, the
rest of the chain is marked already. -/
theorem scope?_captureFrom {steps : Nat} {id : ScopeId} {f : Forest} (hid : id < steps)
    (hlt : f.Descends) (hup : f.Settled id) (a : ScopeId) :
    (Above f id a → (captureFrom steps id f).scope? a = (f.scope? a).map Scope.capture) ∧
      (¬ Above f id a → (captureFrom steps id f).scope? a = f.scope? a) := by
  induction steps generalizing id f with
  | zero => cases hid
  | succ steps ih =>
    rw [captureFrom]
    cases hs : f.scope? id with
    | none =>
      refine ⟨fun h => ?_, fun _ => rfl⟩
      cases h with
      | refl => simp [hs]
      | step hs' => simp [hs] at hs'
    | some s =>
      by_cases hc : s.captured = true
      · simp only [hc, if_true]
        refine ⟨fun h => ?_, fun _ => trivial⟩
        obtain ⟨t, ht, htc⟩ := hup id (.refl _) ⟨s, hs, hc⟩ a h
        rw [ht]
        cases t
        simp_all [Scope.capture]
      · have hself : (f.modifyAt id Scope.capture).scope? id = (f.scope? id).map Scope.capture :=
          scope?_modifyAt_self f id _
        cases hp : s.parent? with
        | none =>
          simp only [hc, hp, Bool.false_eq_true, if_false]
          have habove : Above f id a ↔ a = id := by simp [above_iff hs, hp]
          refine ⟨fun h => ?_, fun h => ?_⟩
          · rw [habove.mp h, hself]
          · exact scope?_modifyAt_of_ne f (fun ha => h (habove.mpr ha)) _
        | some p =>
          simp only [hc, hp, Bool.false_eq_true, if_false]
          have hpid : p < id := hlt hs hp
          have hsteps : p < steps := Nat.lt_of_lt_of_le hpid (Nat.le_of_lt_succ hid)
          obtain ⟨hin, hout⟩ := ih hsteps (hlt.mark id) (hup.mark hlt hs hp)
          rw [above_mark] at hin hout
          refine ⟨fun h => ?_, fun h => ?_⟩
          · rcases (above_iff hs).mp h with rfl | ⟨q, hq, h⟩
            · have hno : ¬ Above f p a := fun ha => Nat.not_le_of_lt hpid (ha.le hlt)
              rw [hout hno, hself]
            · obtain rfl : p = q := Option.some.inj (hp.symm.trans hq)
              rw [hin h, hlt.scope?_mark hpid h]
          · have hno : ¬ Above f p a := fun ha => h (.step hs hp ha)
            rw [hout hno]
            exact scope?_modifyAt_of_ne f (fun (ha : a = id) => h (ha ▸ .refl _)) _

namespace Sound

variable {f : Forest}

open scoped Classical in
theorem scope?_capture (hf : f.Sound) (id a : ScopeId) :
    (f.capture id).scope? a =
      (f.scope? a).map fun s => if Above f id a then s.capture else s := by
  obtain ⟨hin, hout⟩ := scope?_captureFrom (Nat.lt_succ_self id) hf.parent_lt
    (fun _ _ hc _ hb => hf.isCaptured_above hb hc) a
  by_cases ha : Above f id a
  · simpa [ha, Forest.capture] using hin ha
  · simpa [ha, Forest.capture] using hout ha

/-- A scope after capturing has its old parent and its old bindings. -/
theorem capture_eq_some (hf : f.Sound) {id a : ScopeId} {t : Scope}
    (ht : (f.capture id).scope? a = some t) :
    ∃ s, f.scope? a = some s ∧ t.parent? = s.parent? ∧ t.bindings = s.bindings ∧
      (t.captured = true ↔ s.captured = true ∨ Above f id a) := by
  rw [hf.scope?_capture] at ht
  obtain ⟨s, hs, rfl⟩ := Option.map_eq_some_iff.mp ht
  refine ⟨s, hs, ?_⟩
  split <;> simp_all [Scope.capture]

theorem isCaptured_capture (hf : f.Sound) {id a : ScopeId} :
    (f.capture id).IsCaptured a ↔
      f.IsCaptured a ∨ Above f id a ∧ ∃ s, f.scope? a = some s := by
  constructor
  · rintro ⟨t, ht, htc⟩
    obtain ⟨s, hs, -, -, hc⟩ := hf.capture_eq_some ht
    rcases hc.mp htc with hsc | ha
    · exact .inl ⟨s, hs, hsc⟩
    · exact .inr ⟨ha, s, hs⟩
  · intro h
    obtain ⟨s, hs, hsc⟩ : ∃ s, f.scope? a = some s ∧ (s.captured = true ∨ Above f id a) := by
      rcases h with ⟨s, hs, hc⟩ | ⟨ha, s, hs⟩
      · exact ⟨s, hs, .inl hc⟩
      · exact ⟨s, hs, .inr ha⟩
    have ht := hf.scope?_capture id a
    rw [hs] at ht
    refine ⟨_, ht, ?_⟩
    split <;> simp_all [Scope.capture]

theorem capture (hf : f.Sound) (id : ScopeId) : (f.capture id).Sound := by
  refine ⟨?_, ?_⟩
  · intro a t p ht hp
    obtain ⟨s, hs, hsp, -⟩ := hf.capture_eq_some ht
    exact hf.parent_lt hs (hsp ▸ hp)
  · intro a t p ht htc hp
    obtain ⟨s, hs, hsp, -, hc⟩ := hf.capture_eq_some ht
    have hp : s.parent? = some p := hsp ▸ hp
    rw [hf.isCaptured_capture]
    rcases hc.mp htc with hsc | ha
    · exact .inl (hf.captured_parent hs hsc hp)
    · have hlt : p < f.scopes.size := Nat.lt_trans (hf.parent_lt hs hp) (lt_size_of_scope? hs)
      exact .inr ⟨ha.trans (.step hs hp (.refl p)), exists_scope?_of_lt hlt⟩

end Sound

/-- Looking a name up reads only the scopes of the chain. -/
theorem findFrom_congr {f g : Forest} {id : ScopeId} (name : Name) (steps : Nat)
    (h : ∀ a, Above f id a → f.scope? a = g.scope? a) :
    f.findFrom name steps id = g.findFrom name steps id := by
  induction steps generalizing id with
  | zero => rfl
  | succ steps ih =>
    rw [findFrom, findFrom, ← h id (.refl _)]
    cases hs : f.scope? id with
    | none => rfl
    | some s =>
      cases hb : s.find? name with
      | some b => simp only [hb]
      | none =>
        cases hp : s.parent? with
        | none => simp only [hb, hp]
        | some p =>
          simp only [hb, hp]
          exact ih fun a ha => h a (.step hs hp ha)

/-- The owner of a name is on the chain and binds the name. -/
theorem findFrom_eq_some {f : Forest} {id owner : ScopeId} {name : Name} {b : Binding}
    {steps : Nat} (h : f.findFrom name steps id = some (owner, b)) :
    Above f id owner ∧ ∃ s, f.scope? owner = some s ∧ s.find? name = some b := by
  induction steps generalizing id with
  | zero => cases h
  | succ steps ih =>
    rw [findFrom] at h
    cases hs : f.scope? id with
    | none => simp [hs] at h
    | some s =>
      cases hb : s.find? name with
      | some c =>
        simp only [hs, hb, Option.some.injEq, Prod.mk.injEq] at h
        obtain ⟨rfl, rfl⟩ := h
        exact ⟨.refl _, s, hs, hb⟩
      | none =>
        cases hp : s.parent? with
        | none => simp [hs, hb, hp] at h
        | some p =>
          simp only [hs, hb, hp] at h
          obtain ⟨ha, ho⟩ := ih h
          exact ⟨.step hs hp ha, ho⟩

section Cases

variable (f : Forest) (id : ScopeId) (name : Name)

theorem define_cases (v : Value) (mark : Mark) :
    (∃ fault, define id name v mark f = .error fault f) ∨
      (f.scope? id).bind (·.find? name) = none ∧
        define id name v mark f = .ok v (f.modifyAt id (·.bind ⟨name, v, mark⟩)) := by
  unfold define
  split
  · exact .inl ⟨_, rfl⟩
  · exact .inr ⟨‹_›, rfl⟩

theorem get_cases : (∃ fault, get id name f = .error fault f) ∨
    ∃ owner b, f.lookup? id name = some (owner, b) ∧ get id name f = .ok b.value f := by
  unfold get
  split
  · exact .inr ⟨_, _, ‹_›, rfl⟩
  · exact .inl ⟨_, rfl⟩

theorem set_cases (v : Value) : (∃ fault, set id name v f = .error fault f) ∨
    ∃ owner b, f.lookup? id name = some (owner, b) ∧ b.mark = .variable ∧
      set id name v f = .ok v (f.modifyAt owner (·.rebind name v)) := by
  unfold set
  split
  · exact .inl ⟨_, rfl⟩
  · split
    · exact .inr ⟨_, _, ‹_›, ‹_›, rfl⟩
    · exact .inl ⟨_, rfl⟩

theorem delete_cases : (∃ fault, delete id name f = .error fault f) ∨
    ∃ owner b, f.lookup? id name = some (owner, b) ∧ b.mark = .variable ∧
      delete id name f = .ok b.value (f.modifyAt owner (·.unbind name)) := by
  unfold delete
  split
  · exact .inl ⟨_, rfl⟩
  · split
    · exact .inl ⟨_, rfl⟩
    · exact .inl ⟨_, rfl⟩
    · exact .inr ⟨_, _, ‹_›, ‹_›, rfl⟩

end Cases

end Script.Forest
