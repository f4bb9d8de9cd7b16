import Script.Proofs.Constancy

/-!
# Lexical scoping

What a scope shows for a name is what the nearest scope around it binds. Whatever calls have made a
forest, the scopes around a scope form a chain, and looking a name up goes out along it. So the
effect of a change in one scope can be told for every other: it is seen from where the lookup
reaches that scope, and from nowhere else.
-/
namespace Script.Forest

variable {f g : Forest} {e o : ScopeId} {n : Name} {b : Binding}

def parentOf? (f : Forest) (id : ScopeId) : Option ScopeId := (f.scope? id).bind (·.parent?)

/-- Going outwards from a scope, one comes to `o` before one leaves a scope that binds the name. -/
inductive Meets (f : Forest) (n : Name) (o : ScopeId) : ScopeId → Prop
  | here : Meets f n o o
  | out {e p} (hno : f.at? e n = none) (hp : f.parentOf? e = some p) (h : Meets f n o p) :
      Meets f n o e

/-- `o` is the nearest scope around `e` that binds the name, and `b` is its binding. -/
structure Owns (f : Forest) (e : ScopeId) (n : Name) (o : ScopeId) (b : Binding) : Prop where
  meets : f.Meets n o e
  binds : f.at? o n = some b

/-- A scope on the way out binds the name. -/
def Visible (f : Forest) (e : ScopeId) (n : Name) : Prop :=
  ∃ a b, Above f e a ∧ f.at? a n = some b

theorem Descends.parentOf?_lt (hf : f.Descends) {p : ScopeId} (h : f.parentOf? e = some p) :
    p < e := by
  obtain ⟨s, hs, hp⟩ := Option.bind_eq_some_iff.mp h
  exact hf hs hp

theorem Meets.above (h : f.Meets n o e) : Above f e o := by
  induction h with
  | here => exact .refl o
  | out _ hp _ ih =>
    obtain ⟨s, hs, hp⟩ := Option.bind_eq_some_iff.mp hp
    exact .step hs hp ih

theorem owns_of_visible (h : f.Visible e n) : ∃ o b, f.Owns e n o b := by
  obtain ⟨a, b, ha, hb⟩ := h
  induction ha with
  | refl id => exact ⟨id, b, .here, hb⟩
  | @step id s p a hs hp _ ih =>
    cases hid : f.at? id n with
    | some c => exact ⟨id, c, .here, hid⟩
    | none =>
      obtain ⟨o, c, ho⟩ := ih hb
      have hparent : f.parentOf? id = some p := by rw [parentOf?, hs, Option.bind_some, hp]
      exact ⟨o, c, .out hid hparent ho.meets, ho.binds⟩

theorem owned_iff : (∃ o b, f.Owns e n o b) ↔ f.Visible e n := by
  constructor
  · rintro ⟨o, b, ho⟩
    exact ⟨o, b, ho.meets.above, ho.binds⟩
  · exact owns_of_visible

/-- A bound on the length of the way is no bound if it is larger than where the way begins. -/
theorem Descends.findFrom_eq (hf : f.Descends) {steps : Nat} (h : e < steps) (n : Name) :
    f.findFrom n steps e = f.lookup? e n := by
  induction e using Nat.strongRecOn generalizing steps with
  | ind e ih =>
    obtain ⟨k, rfl⟩ := Nat.exists_eq_add_of_lt h
    rw [lookup?, findFrom, findFrom]
    cases hs : f.scope? e with
    | none => rfl
    | some s =>
      cases hp : s.parent? with
      | none => simp only [hp]
      | some p =>
        have hlt : p < e := hf hs hp
        simp only [hp]
        rw [ih p hlt (Nat.lt_of_lt_of_le hlt (Nat.le_add_right e k)), ih p hlt hlt]

/-- One step of looking up: the scope itself, or else the one that it lies in. -/
theorem Descends.lookup?_eq (hf : f.Descends) (e : ScopeId) (n : Name) :
    f.lookup? e n =
      match f.at? e n with
      | some b => some (e, b)
      | none => (f.parentOf? e).bind (f.lookup? · n) := by
  rw [lookup?, findFrom, at?, parentOf?]
  cases hs : f.scope? e with
  | none => rfl
  | some s =>
    cases hb : s.find? n with
    | some b => simp only [Option.bind_some, hb]
    | none =>
      cases hp : s.parent? with
      | none => simp only [Option.bind_some, hb, hp, Option.bind_none]
      | some p =>
        simp only [Option.bind_some, hb, hp]
        exact hf.findFrom_eq (hf hs hp) n

theorem Descends.lookup?_of_meets (hf : f.Descends) (h : f.Meets n o e) :
    f.lookup? e n = f.lookup? o n := by
  induction h with
  | here => rfl
  | out hno hp _ ih =>
    rw [hf.lookup?_eq, hno, hp]
    exact ih

/-- Looking up finds the owner. -/
theorem Descends.lookup?_iff (hf : f.Descends) : f.lookup? e n = some (o, b) ↔ f.Owns e n o b := by
  constructor
  · intro h
    induction e using Nat.strongRecOn with
    | ind e ih =>
      rw [hf.lookup?_eq] at h
      cases hb : f.at? e n with
      | some c =>
        rw [hb] at h
        obtain ⟨rfl, rfl⟩ : e = o ∧ c = b := by simpa using h
        exact ⟨.here, hb⟩
      | none =>
        rw [hb] at h
        obtain ⟨p, hp, h⟩ := Option.bind_eq_some_iff.mp h
        have ho := ih p (hf.parentOf?_lt hp) h
        exact ⟨.out hb hp ho.meets, ho.binds⟩
  · intro h
    rw [hf.lookup?_of_meets h.meets, hf.lookup?_eq, h.binds]

theorem Descends.lookup?_eq_none_iff (hf : f.Descends) :
    f.lookup? e n = none ↔ ¬ f.Visible e n := by
  rw [← owned_iff, Option.eq_none_iff_forall_ne_some]
  constructor
  · rintro h ⟨o, b, ho⟩
    exact h (o, b) (hf.lookup?_iff.mpr ho)
  · rintro h ⟨o, b⟩ hl
    exact h ⟨o, b, hf.lookup?_iff.mp hl⟩

def SameChains (f g : Forest) : Prop := ∀ a, g.parentOf? a = f.parentOf? a

theorem SameChains.descends (h : f.SameChains g) (hf : f.Descends) : g.Descends := by
  intro i s p hs hp
  refine hf.parentOf?_lt ?_
  rw [← h i, parentOf?, hs, Option.bind_some, hp]

theorem sameChains_modifyAt (f : Forest) (o : ScopeId) {change : Scope → Scope}
    (hc : ∀ s, (change s).parent? = s.parent?) : f.SameChains (f.modifyAt o change) := by
  intro a
  rw [parentOf?, parentOf?, scope?_modifyAt]
  split
  · cases f.scope? a with
    | none => rfl
    | some s => exact hc s
  · rfl

theorem at?_modifyAt_of_ne {a : ScopeId} (h : a ≠ o) (f : Forest) (change : Scope → Scope)
    (n : Name) : (f.modifyAt o change).at? a n = f.at? a n := by
  rw [at?, at?, scope?_modifyAt_of_ne f h]

theorem at?_modifyAt_self (f : Forest) (o : ScopeId) (change : Scope → Scope) (n : Name) :
    (f.modifyAt o change).at? o n = (f.scope? o).bind fun s => (change s).find? n := by
  rw [at?, scope?_modifyAt_self, Option.bind_map]
  rfl

section Change

variable (hf : f.Descends) (hchains : f.SameChains g)

include hf hchains

/-- Where no scope binds the name differently, nothing is seen of a change. -/
theorem lookup?_congr (h : ∀ a, g.at? a n = f.at? a n) (e : ScopeId) :
    g.lookup? e n = f.lookup? e n := by
  have hg : g.Descends := hchains.descends hf
  induction e using Nat.strongRecOn with
  | ind e ih =>
    rw [hf.lookup?_eq, hg.lookup?_eq, h, hchains]
    cases f.at? e n with
    | some b => rfl
    | none =>
      cases hp : f.parentOf? e with
      | none => rfl
      | some p => exact ih p (hf.parentOf?_lt hp)

variable (hat : ∀ a, a ≠ o → g.at? a n = f.at? a n)

include hat

/-- A change in one scope is not seen from where the way out does not meet it. -/
theorem lookup?_of_not_meets (h : ¬ f.Meets n o e) : g.lookup? e n = f.lookup? e n := by
  have hg : g.Descends := hchains.descends hf
  induction e using Nat.strongRecOn with
  | ind e ih =>
    have hne : e ≠ o := by
      rintro rfl
      exact h .here
    rw [hf.lookup?_eq, hg.lookup?_eq, hat e hne, hchains]
    cases hno : f.at? e n with
    | some b => rfl
    | none =>
      cases hp : f.parentOf? e with
      | none => rfl
      | some p => exact ih p (hf.parentOf?_lt hp) fun hm => h (.out hno hp hm)

omit hf in
/-- A change in a scope does not move the way out to it. -/
theorem Meets.congr (h : f.Meets n o e) : g.Meets n o e := by
  induction h with
  | here => exact .here
  | @out e p hno hp _ ih =>
    by_cases heo : e = o
    · subst heo
      exact .here
    · exact .out ((hat e heo).trans hno) ((hchains e).trans hp) ih

/-- From where the way out meets the changed scope, everything looks as from there. -/
theorem lookup?_changed_of_meets (h : f.Meets n o e) : g.lookup? e n = g.lookup? o n := by
  have hg : g.Descends := hchains.descends hf
  exact hg.lookup?_of_meets (h.congr hchains hat)

/-- A scope that does not bind the name shows what the one around it showed before the change. -/
theorem lookup?_of_unbound (hno : g.at? o n = none) :
    g.lookup? o n = (f.parentOf? o).bind (f.lookup? · n) := by
  have hg : g.Descends := hchains.descends hf
  rw [hg.lookup?_eq, hno, hchains]
  cases hp : f.parentOf? o with
  | none => rfl
  | some p =>
    refine lookup?_of_not_meets hf hchains hat fun hm => ?_
    exact Nat.not_le_of_lt (hf.parentOf?_lt hp) (hm.above.le hf)

end Change

inductive Call where
  | child (id : ScopeId)
  | define (id : ScopeId) (name : Name) (value : Value) (mark : Mark)
  | get (id : ScopeId) (name : Name)
  | set (id : ScopeId) (name : Name) (value : Value)
  | delete (id : ScopeId) (name : Name)
  | capture (id : ScopeId)
  | destroy (id : ScopeId)

def Call.scope : Call → ScopeId
  | child id | define id .. | get id _ | set id .. | delete id _ | capture id | destroy id => id

/-- The forest that an operation leaves, also if it does not go through. -/
def left {α : Type} : EStateM.Result BindingFault Forest α → Forest
  | .ok _ f => f
  | .error _ f => f

def Call.after (f : Forest) : Call → Forest
  | child id => left (Forest.child id f)
  | define id name value mark => left (Forest.define id name value mark f)
  | get id name => left (Forest.get id name f)
  | set id name value => left (Forest.set id name value f)
  | delete id name => left (Forest.delete id name f)
  | capture id => f.capture id
  | destroy id => f.destroy id

/-- What calls make of a forest. Apart from taking a scope in and marking scopes, they change at
most the bindings of one. -/
inductive Call.Leaves (f : Forest) : Call → Forest → Prop
  | same (c : Call) : Leaves f c f
  | child (id : ScopeId) : Leaves f (.child id) ⟨f.scopes.push (.inside (some id))⟩
  | define {id : ScopeId} {n : Name} (hno : f.at? id n = none) (v : Value) (mark : Mark) :
      Leaves f (.define id n v mark) (f.modifyAt id (·.bind ⟨n, v, mark⟩))
  | set (id : ScopeId) {o : ScopeId} {n : Name} {b : Binding} (hl : f.lookup? id n = some (o, b))
      (hm : b.mark = .variable) (v : Value) : Leaves f (.set id n v) (f.modifyAt o (·.rebind n v))
  | delete (id : ScopeId) {o : ScopeId} {n : Name} {b : Binding}
      (hl : f.lookup? id n = some (o, b)) (hm : b.mark = .variable) :
      Leaves f (.delete id n) (f.modifyAt o (·.unbind n))
  | capture (id : ScopeId) : Leaves f (.capture id) (f.capture id)
  | destroy (id : ScopeId) : Leaves f (.destroy id) (f.destroy id)

theorem Call.leaves_after (f : Forest) (c : Call) : c.Leaves f (c.after f) := by
  cases c with
  | child id => exact .child id
  | define id n v mark =>
    rw [Call.after]
    rcases define_cases f id n v mark with ⟨fault, herror⟩ | ⟨hno, hok⟩
    · rw [herror]
      exact .same _
    · rw [hok]
      exact .define hno v mark
  | get id n =>
    rw [Call.after]
    rcases get_cases f id n with ⟨fault, herror⟩ | ⟨o, b, -, hok⟩
    · rw [herror]
      exact .same _
    · rw [hok]
      exact .same _
  | set id n v =>
    rw [Call.after]
    rcases set_cases f id n v with ⟨fault, herror⟩ | ⟨o, b, hl, hm, hok⟩
    · rw [herror]
      exact .same _
    · rw [hok]
      exact .set id hl hm v
  | delete id n =>
    rw [Call.after]
    rcases delete_cases f id n with ⟨fault, herror⟩ | ⟨o, b, hl, hm, hok⟩
    · rw [herror]
      exact .same _
    · rw [hok]
      exact .delete id hl hm
  | capture id => exact .capture id
  | destroy id => exact .destroy id

/-- What can be made of one root by calls on scopes that are there. -/
inductive Reachable : Forest → Prop
  | single : Reachable single
  | call {f : Forest} (hf : Reachable f) (c : Call) (hc : c.scope < f.scopes.size) :
      Reachable (c.after f)

theorem sound_single : single.Sound := by
  have hroot {id : ScopeId} {s : Scope} (hs : single.scope? id = some s) : s.parent? = none := by
    obtain rfl : id = 0 := Nat.lt_one_iff.mp (lt_size_of_scope? hs)
    cases hs
    rfl
  refine ⟨fun hs hp => ?_, fun hs _ hp => ?_⟩
  · rw [hroot hs] at hp
    cases hp
  · rw [hroot hs] at hp
    cases hp

/-- What one call leaves has sound chains again. -/
theorem Call.Leaves.sound {c : Call} {g : Forest} (h : c.Leaves f g) (hf : f.Sound)
    (hc : c.scope < f.scopes.size) : g.Sound := by
  cases h with
  | same => exact hf
  | child => exact hf.push hc
  | @define id => exact hf.modifyAt id fun _ => ⟨rfl, rfl⟩
  | @set _ o => exact hf.modifyAt o fun _ => ⟨rfl, rfl⟩
  | @delete _ o => exact hf.modifyAt o fun _ => ⟨rfl, rfl⟩
  | capture id => exact hf.capture id
  | destroy id => exact hf.modifyAt id fun _ => ⟨rfl, rfl⟩

theorem Reachable.sound (hf : f.Reachable) : f.Sound := by
  induction hf with
  | single => exact sound_single
  | call _ c hc ih => exact (c.leaves_after _).sound ih hc

/-- The scope that owns a name, as `resolve` tells. -/
def owner? (f : Forest) (e : ScopeId) (n : Name) : Option ScopeId := (resolve e n).run' f

/-- What a scope shows for a name, as `resolve` and `get` tell: the owner, and the value. -/
def shown? (f : Forest) (e : ScopeId) (n : Name) : Option (ScopeId × Value) := do
  return (← (resolve e n).run' f, ← (get e n).run' f)

theorem run_apply {α : Type} (action : Action α) (f : Forest) :
    action.run' f = match action f with | .ok v _ => some v | .error _ _ => none := by
  delta EStateM.run' EStateM.run
  cases action f <;> rfl

theorem owner?_eq (f : Forest) (e : ScopeId) (n : Name) :
    f.owner? e n = (f.lookup? e n).map (·.1) := by
  simp only [owner?, run_apply, resolve]
  cases f.lookup? e n <;> rfl

theorem shown?_eq (f : Forest) (e : ScopeId) (n : Name) :
    f.shown? e n = (f.lookup? e n).map fun r => (r.1, r.2.value) := by
  simp only [shown?, run_apply, resolve, get]
  cases f.lookup? e n <;> rfl

theorem shown?_of_lookup? {f g : Forest} {a c : ScopeId} {x : Name}
    (h : g.lookup? a x = f.lookup? c x) : g.shown? a x = f.shown? c x := by
  rw [shown?_eq, shown?_eq, h]

theorem Descends.owner?_iff (hf : f.Descends) :
    f.owner? e n = some o ↔ ∃ b, f.Owns e n o b := by
  rw [owner?_eq, Option.map_eq_some_iff]
  constructor
  · rintro ⟨⟨o, b⟩, hl, rfl⟩
    exact ⟨b, hf.lookup?_iff.mp hl⟩
  · rintro ⟨b, ho⟩
    exact ⟨(o, b), hf.lookup?_iff.mpr ho, rfl⟩

/-- Two forests that differ at most in what `o` binds to the name. -/
structure DiffersAt (f g : Forest) (o : ScopeId) (n : Name) : Prop where
  chains : f.SameChains g
  elsewhere : ∀ a x, a ≠ o ∨ x.same n = false → g.at? a x = f.at? a x

theorem at?_congr {x : Name} (h : x.same n = true) (f : Forest) (a : ScopeId) :
    f.at? a x = f.at? a n := by
  simp only [at?, Scope.find?_congr h]

theorem differsAt_modifyAt (f : Forest) (o : ScopeId) {change : Scope → Scope}
    (hp : ∀ s, (change s).parent? = s.parent?)
    (hc : ∀ s x, x.same n = false → (change s).find? x = s.find? x) :
    f.DiffersAt (f.modifyAt o change) o n := by
  refine ⟨sameChains_modifyAt f o hp, fun a x h => ?_⟩
  by_cases hao : a = o
  · subst hao
    have hx : x.same n = false := h.resolve_left fun hne => hne rfl
    simp only [at?_modifyAt_self, hc _ x hx]
    rfl
  · exact at?_modifyAt_of_ne hao f change x

theorem differsAt_bind (f : Forest) (o : ScopeId) (n : Name) (v : Value) (mark : Mark) :
    f.DiffersAt (f.modifyAt o (·.bind ⟨n, v, mark⟩)) o n := by
  refine differsAt_modifyAt f o (fun _ => rfl) fun s x hx => ?_
  rw [Scope.find?_bind_eq, if_neg (by simp [Name.same_comm n, hx])]

theorem differsAt_rebind (f : Forest) (o : ScopeId) (n : Name) (v : Value) :
    f.DiffersAt (f.modifyAt o (·.rebind n v)) o n := by
  refine differsAt_modifyAt f o (fun _ => rfl) fun s x hx => ?_
  rw [Scope.find?_rebind_eq]
  cases hb : s.find? x with
  | none => rfl
  | some b =>
    have hno : ¬ b.name.same n = true := by
      intro h
      rw [Name.same_comm, ← Name.same_congr (Scope.same_of_find? hb), Name.same_comm, h] at hx
      cases hx
    rw [Option.map_some, if_neg hno]

theorem differsAt_unbind (f : Forest) (o : ScopeId) (n : Name) :
    f.DiffersAt (f.modifyAt o (·.unbind n)) o n :=
  differsAt_modifyAt f o (fun _ => rfl) fun s _ hx =>
    Scope.find?_unbind_of_not_same ((Name.same_comm _ _).trans hx) s

namespace DiffersAt

variable (h : f.DiffersAt g o n) (hf : f.Descends) {a : ScopeId} {x : Name}

include h hf

theorem unseen (hno : ¬ (x.same n = true ∧ f.Meets x o a)) : g.lookup? a x = f.lookup? a x := by
  by_cases hx : x.same n = true
  · refine lookup?_of_not_meets hf h.chains (fun c hc => h.elsewhere c x (.inl hc)) fun hm => ?_
    exact hno ⟨hx, hm⟩
  · refine lookup?_congr hf h.chains (fun c => h.elsewhere c x (.inr ?_)) a
    simpa using hx

/-- A binding that is new or has a new value is what everyone sees who meets it. -/
theorem seen_bound (hm : f.Meets x o a) (hb : g.at? o x = some b) :
    g.lookup? a x = some (o, b) := by
  have hg : g.Descends := h.chains.descends hf
  rw [lookup?_changed_of_meets hf h.chains (fun c hc => h.elsewhere c x (.inl hc)) hm,
    hg.lookup?_eq, hb]

/-- Where a binding is gone, the next one further out is seen. -/
theorem seen_unbound (hm : f.Meets x o a) (hb : g.at? o x = none) :
    g.lookup? a x = (f.parentOf? o).bind (f.lookup? · x) := by
  have hat : ∀ c, c ≠ o → g.at? c x = f.at? c x := fun c hc => h.elsewhere c x (.inl hc)
  rw [lookup?_changed_of_meets hf h.chains hat hm, lookup?_of_unbound hf h.chains hat hb]

/-- What is seen of a change to a name in the scope that owns it. -/
theorem shown?_eq (hb : f.at? o n = some b) {new : Name → Option (ScopeId × Value)}
    (hnew : ∀ a x, x.same n = true → f.Meets x o a → g.shown? a x = new x) (a : ScopeId)
    (x : Name) : g.shown? a x =
      if x.same n = true ∧ f.owner? a x = some o then new x else f.shown? a x := by
  split
  · rename_i hx
    obtain ⟨c, hc⟩ := hf.owner?_iff.mp hx.2
    exact hnew a x hx.1 hc.meets
  · rename_i hx
    refine shown?_of_lookup? (h.unseen hf ?_)
    rintro ⟨hsame, hm⟩
    exact hx ⟨hsame, hf.owner?_iff.mpr ⟨b, hm, (at?_congr hsame f o).trans hb⟩⟩

end DiffersAt

/-- A name is found if and only if a scope on the way out binds it, and then it is found in the
nearest of them. -/
structure Finding (f : Forest) (e : ScopeId) (n : Name) : Prop where
  contains_iff : f.contains e n = true ↔ f.Visible e n
  owned_iff : (∃ o b, f.Owns e n o b) ↔ f.Visible e n
  resolve_iff : ∀ o g, resolve e n f = .ok o g ↔ g = f ∧ ∃ b, f.Owns e n o b
  get_iff : ∀ v g, get e n f = .ok v g ↔ g = f ∧ ∃ o b, f.Owns e n o b ∧ b.value = v
  hidden : ¬ f.Visible e n →
    resolve e n f = .error (.undefined n.shown) f ∧ get e n f = .error (.undefined n.shown) f

/-- A name gets another value if and only if its owner has it as a variable. Then those see the
value who found the name in that scope, and everybody finds the same owners as before. -/
structure Setting (f : Forest) (e : ScopeId) (n : Name) (v : Value) : Prop where
  goes_iff : (∃ w g, set e n v f = .ok w g) ↔ ∃ o b, f.Owns e n o b ∧ b.mark = .variable
  effect : ∀ o b, f.Owns e n o b → b.mark = .variable → ∃ g, set e n v f = .ok v g ∧
    g.at? o n = some { b with value := v } ∧
    ∀ a x, g.shown? a x =
      if x.same n = true ∧ f.owner? a x = some o then some (o, v) else f.shown? a x
  fixed : ∀ o b, f.Owns e n o b → b.mark ≠ .variable →
    set e n v f = .error (.reassigned n.shown) f
  hidden : ¬ f.Visible e n → set e n v f = .error (.undefined n.shown) f

/-- A name is deleted if and only if its owner has it as a variable. The value it had is given
back, and those who found the name in that scope see what was visible from the scope around. -/
structure Deleting (f : Forest) (e : ScopeId) (n : Name) : Prop where
  goes_iff : (∃ w g, delete e n f = .ok w g) ↔ ∃ o b, f.Owns e n o b ∧ b.mark = .variable
  effect : ∀ o b, f.Owns e n o b → b.mark = .variable → ∃ g, delete e n f = .ok b.value g ∧
    get e n f = .ok b.value f ∧ g.at? o n = none ∧
    ∀ a x, g.shown? a x =
      if x.same n = true ∧ f.owner? a x = some o then (f.parentOf? o).bind (f.shown? · x)
      else f.shown? a x
  constant : ∀ o b, f.Owns e n o b → b.mark = .constant →
    delete e n f = .error (.constantDeleted n.shown) f
  function : ∀ o b, f.Owns e n o b → b.mark = .function →
    delete e n f = .error (.functionDeleted n.shown) f
  hidden : ¬ f.Visible e n → delete e n f = .error (.undefined n.shown) f

/-- A name is defined in a scope if and only if this very scope does not bind it. Then those see
the new binding who meet the scope on their way out. -/
structure Defining (f : Forest) (e : ScopeId) (n : Name) (v : Value) (mark : Mark) : Prop where
  goes_iff : (∃ w g, define e n v mark f = .ok w g) ↔ f.at? e n = none
  effect : f.at? e n = none → ∃ g, define e n v mark f = .ok v g ∧
    g.at? e n = some ⟨n, v, mark⟩ ∧
    ∀ a x, (x.same n = true ∧ f.Meets x e a → g.shown? a x = some (e, v)) ∧
      (¬ (x.same n = true ∧ f.Meets x e a) → g.shown? a x = f.shown? a x)
  bound : f.at? e n ≠ none → define e n v mark f = .error (.redefined n.shown) f

/-- A new scope shows what its parent shows, capturing shows nothing new, and destroying lets the
next bindings further out be seen. -/
structure Arranging (f : Forest) (e : ScopeId) : Prop where
  child : ∃ g, child e f = .ok f.scopes.size g ∧
    ∀ x, g.shown? f.scopes.size x = f.shown? e x ∧
      ∀ a, a < f.scopes.size → g.shown? a x = f.shown? a x
  capture : ∀ a x, (f.capture e).shown? a x = f.shown? a x
  destroy : ∀ a x, (f.destroy e).shown? a x =
    if f.owner? a x = some e then (f.parentOf? e).bind (f.shown? · x) else f.shown? a x

theorem Descends.finding (hf : f.Descends) (e : ScopeId) (n : Name) : f.Finding e n := by
  have hhidden (h : ¬ f.Visible e n) : f.lookup? e n = none := hf.lookup?_eq_none_iff.mpr h
  refine ⟨?_, owned_iff, fun o g => ?_, fun v g => ?_, fun h => ?_⟩
  · rw [contains, Option.isSome_iff_ne_none, ne_eq, hf.lookup?_eq_none_iff, not_not]
  · simp only [← hf.lookup?_iff, resolve]
    cases f.lookup? e n with
    | none => simp
    | some r => simp [Prod.ext_iff, eq_comm, and_comm]
  · simp only [← hf.lookup?_iff, get]
    cases f.lookup? e n with
    | none => simp
    | some r => simp [Prod.ext_iff, eq_comm, and_comm]
  · simp [resolve, get, hhidden h]

/-- An operation that goes through where the owner of a name has it as a variable, and nowhere
else. -/
theorem goes_iff_variable {action : Action Value}
    (hgo : ∀ o b, f.Owns e n o b → b.mark = .variable → ∃ w g, action f = .ok w g)
    (hfixed : ∀ o b, f.Owns e n o b → b.mark ≠ .variable → ∃ fault, action f = .error fault f)
    (hhidden : ¬ f.Visible e n → ∃ fault, action f = .error fault f) :
    (∃ w g, action f = .ok w g) ↔ ∃ o b, f.Owns e n o b ∧ b.mark = .variable := by
  constructor
  · rintro ⟨w, g, h⟩
    have hgoes (herror : ∃ fault, action f = .error fault f) : False := by
      obtain ⟨fault, herror⟩ := herror
      cases h.symm.trans herror
    have hvisible : f.Visible e n := by
      by_contra hno
      exact hgoes (hhidden hno)
    obtain ⟨o, b, ho⟩ := owns_of_visible hvisible
    refine ⟨o, b, ho, ?_⟩
    by_contra hm
    exact hgoes (hfixed o b ho hm)
  · rintro ⟨o, b, ho, hm⟩
    exact hgo o b ho hm

theorem Descends.setting (hf : f.Descends) (e : ScopeId) (n : Name) (v : Value) :
    f.Setting e n v := by
  have hset (o : ScopeId) (b : Binding) (ho : f.Owns e n o b) : set e n v f =
      if b.mark = .variable then .ok v (f.modifyAt o (·.rebind n v))
      else .error (.reassigned n.shown) f := by
    simp only [set, hf.lookup?_iff.mpr ho]
  have hgo (o b ho) (hm : b.mark = .variable) := (hset o b ho).trans (if_pos hm)
  have hfixed (o b ho) (hm : b.mark ≠ .variable) := (hset o b ho).trans (if_neg hm)
  have hhidden (h : ¬ f.Visible e n) : set e n v f = .error (.undefined n.shown) f := by
    simp only [set, hf.lookup?_eq_none_iff.mpr h]
  refine ⟨?_, fun o b ho hm => ?_, hfixed, hhidden⟩
  · exact goes_iff_variable (fun o b ho hm => ⟨_, _, hgo o b ho hm⟩)
      (fun o b ho hm => ⟨_, hfixed o b ho hm⟩) fun h => ⟨_, hhidden h⟩
  · have hdiff := differsAt_rebind f o n v
    have hbound {x : Name} (hx : x.same n = true) :
        (f.modifyAt o (·.rebind n v)).at? o x = some { b with value := v } := by
      have hb : f.at? o x = some b := (at?_congr hx f o).trans ho.binds
      obtain ⟨s, hs, hb⟩ := Option.bind_eq_some_iff.mp hb
      have hbn : b.name.same n = true := by
        rw [← Name.same_congr hx]
        exact Scope.same_of_find? hb
      rw [at?_modifyAt_self, hs, Option.bind_some, Scope.find?_rebind_eq, hb, Option.map_some,
        if_pos hbn]
    refine ⟨_, hgo o b ho hm, hbound (Name.same_refl n), ?_⟩
    refine hdiff.shown?_eq hf ho.binds fun a x hx hmeets => ?_
    rw [shown?_eq, hdiff.seen_bound hf hmeets (hbound hx)]
    rfl

theorem shown?_of_unbound {a : ScopeId} {x : Name}
    (h : g.lookup? a x = (f.parentOf? o).bind (f.lookup? · x)) :
    g.shown? a x = (f.parentOf? o).bind (f.shown? · x) := by
  rw [shown?_eq, h]
  cases f.parentOf? o with
  | none => rfl
  | some p => exact (shown?_eq f p x).symm

theorem Descends.deleting (hf : f.Descends) (e : ScopeId) (n : Name) : f.Deleting e n := by
  have hgo (o : ScopeId) (b : Binding) (ho : f.Owns e n o b) (hm : b.mark = .variable) :
      delete e n f = .ok b.value (f.modifyAt o (·.unbind n)) := by
    simp only [delete, hf.lookup?_iff.mpr ho, hm]
  have hconstant (o : ScopeId) (b : Binding) (ho : f.Owns e n o b) (hm : b.mark = .constant) :
      delete e n f = .error (.constantDeleted n.shown) f := by
    simp only [delete, hf.lookup?_iff.mpr ho, hm]
  have hfunction (o : ScopeId) (b : Binding) (ho : f.Owns e n o b) (hm : b.mark = .function) :
      delete e n f = .error (.functionDeleted n.shown) f := by
    simp only [delete, hf.lookup?_iff.mpr ho, hm]
  have hhidden (h : ¬ f.Visible e n) : delete e n f = .error (.undefined n.shown) f := by
    simp only [delete, hf.lookup?_eq_none_iff.mpr h]
  refine ⟨?_, fun o b ho hm => ?_, hconstant, hfunction, hhidden⟩
  · refine goes_iff_variable (fun o b ho hm => ⟨_, _, hgo o b ho hm⟩) (fun o b ho hm => ?_)
      fun h => ⟨_, hhidden h⟩
    cases hmark : b.mark
    · exact absurd hmark hm
    · exact ⟨_, hconstant o b ho hmark⟩
    · exact ⟨_, hfunction o b ho hmark⟩
  · have hdiff := differsAt_unbind f o n
    have hgone {x : Name} (hx : x.same n = true) : (f.modifyAt o (·.unbind n)).at? o x = none := by
      rw [Name.same_comm] at hx
      rw [at?_modifyAt_self]
      cases f.scope? o with
      | none => rfl
      | some s => exact Scope.find?_unbind_of_same hx s
    have hget := ((hf.finding e n).get_iff b.value f).mpr ⟨rfl, o, b, ho, rfl⟩
    refine ⟨_, hgo o b ho hm, hget, hgone (Name.same_refl n), ?_⟩
    refine hdiff.shown?_eq hf ho.binds fun a x hx hmeets => ?_
    exact shown?_of_unbound (hdiff.seen_unbound hf hmeets (hgone hx))

theorem define_of_bound (h : f.at? e n = some b) (v : Value) (mark : Mark) :
    define e n v mark f = .error (.redefined n.shown) f := by
  rw [at?] at h
  simp only [define, h]

theorem define_of_unbound (h : f.at? e n = none) (v : Value) (mark : Mark) :
    define e n v mark f = .ok v (f.modifyAt e (·.bind ⟨n, v, mark⟩)) := by
  rw [at?] at h
  simp only [define, h]

theorem Descends.defining (hf : f.Descends) (he : e < f.scopes.size) (n : Name) (v : Value)
    (mark : Mark) : f.Defining e n v mark := by
  have hbound (h : f.at? e n ≠ none) : define e n v mark f = .error (.redefined n.shown) f := by
    obtain ⟨b, hb⟩ := Option.ne_none_iff_exists'.mp h
    exact define_of_bound hb v mark
  refine ⟨?_, fun h => ?_, hbound⟩
  · constructor
    · rintro ⟨w, g, h⟩
      by_contra hno
      cases h.symm.trans (hbound hno)
    · intro h
      exact ⟨v, _, define_of_unbound h v mark⟩
  · have hdiff := differsAt_bind f e n v mark
    obtain ⟨s, hs⟩ := exists_scope?_of_lt he
    have hnew {x : Name} (hx : x.same n = true) :
        (f.modifyAt e (·.bind ⟨n, v, mark⟩)).at? e x = some ⟨n, v, mark⟩ := by
      rw [Name.same_comm] at hx
      rw [at?_modifyAt_self, hs, Option.bind_some, Scope.find?_bind_eq, if_pos hx]
    refine ⟨_, define_of_unbound h v mark, hnew (Name.same_refl n),
      fun a x => ⟨?_, fun hno => ?_⟩⟩
    · rintro ⟨hx, hmeets⟩
      rw [shown?_eq, hdiff.seen_bound hf hmeets (hnew hx)]
      rfl
    · exact shown?_of_lookup? (hdiff.unseen hf hno)

theorem sameChains_capture (f : Forest) (id : ScopeId) : f.SameChains (f.capture id) := by
  have hparent (s : Scope) : s.capture.parent? = s.parent? := rfl
  exact captureFrom_induction (P := fun g => f.SameChains g)
    (fun g i h a => (sameChains_modifyAt g i hparent a).trans (h a)) (id + 1) id fun _ => rfl

theorem Sound.arranging (hf : f.Sound) (he : e < f.scopes.size) : f.Arranging e := by
  have hdescends : f.Descends := hf.parent_lt
  refine ⟨⟨_, rfl, fun x => ?_⟩, fun a x => ?_, fun a x => ?_⟩
  · have hpush : (Forest.mk (f.scopes.push (.inside (some e)))).Descends := (hf.push he).parent_lt
    have hold {a : ScopeId} (ha : a < f.scopes.size) :
        (Forest.mk (f.scopes.push (.inside (some e)))).lookup? a x = f.lookup? a x := by
      refine (findFrom_congr x (a + 1) fun c hc => ?_).symm
      exact (scope?_push_of_lt f _ (Nat.lt_of_le_of_lt (hc.le hdescends) ha)).symm
    refine ⟨shown?_of_lookup? ?_, fun a ha => shown?_of_lookup? (hold ha)⟩
    rw [hpush.lookup?_eq, at?, parentOf?, scope?_push_self]
    exact hold he
  · exact shown?_of_lookup? (lookup?_congr hdescends (sameChains_capture f e)
      (fun c => at?_captureFrom (e + 1) e f c x) a)
  · have hchains : f.SameChains (f.destroy e) := sameChains_modifyAt f e fun _ => rfl
    have hat : ∀ c, c ≠ e → (f.destroy e).at? c x = f.at? c x :=
      fun c hc => at?_modifyAt_of_ne hc f _ x
    have hgone : (f.destroy e).at? e x = none := by
      rw [destroy, at?_modifyAt_self]
      cases f.scope? e <;> rfl
    have hmeets (hm : f.Meets x e a) :
        (f.destroy e).lookup? a x = (f.parentOf? e).bind (f.lookup? · x) := by
      rw [lookup?_changed_of_meets hdescends hchains hat hm,
        lookup?_of_unbound hdescends hchains hat hgone]
    split
    · rename_i h
      obtain ⟨b, ho⟩ := hdescends.owner?_iff.mp h
      exact shown?_of_unbound (hmeets ho.meets)
    · rename_i h
      refine shown?_of_lookup? ?_
      by_cases hm : f.Meets x e a
      · -- the scope is met, but did not bind the name before either
        have hno : f.at? e x = none := by
          by_contra hsome
          obtain ⟨b, hb⟩ := Option.ne_none_iff_exists'.mp hsome
          exact h (hdescends.owner?_iff.mpr ⟨b, hm, hb⟩)
        rw [hmeets hm, hdescends.lookup?_of_meets hm, hdescends.lookup?_eq, hno]
      · exact lookup?_of_not_meets hdescends hchains hat hm

/-- Scoping is lexical. However a forest has come about from one root, and whatever scope and name
are asked for: looking up, setting, deleting and defining go through exactly where the laws of
scoping say, they have the effect that the laws say for every observer, and where they do not go
through they leave the forest as it is. -/
theorem scoping_is_lexical (hf : f.Reachable) (he : e < f.scopes.size) (n : Name) :
    f.Finding e n ∧ (∀ v, f.Setting e n v) ∧ f.Deleting e n ∧ (∀ v mark, f.Defining e n v mark) ∧
      f.Arranging e := by
  have hdescends : f.Descends := hf.sound.parent_lt
  exact ⟨hdescends.finding e n, hdescends.setting e n, hdescends.deleting e n,
    hdescends.defining he n, hf.sound.arranging he⟩

/-- The root has a variable; a scope in it hides the variable, holds another scope, and has a
sibling whose bindings are gone. -/
def shadowed : Forest :=
  [Call.define 0 (.word "x") (.number "1") .variable, .child 0,
    .define 1 (.word "x") (.number "2") .constant, .child 1, .child 0,
    .define 3 (.word "x") (.number "3") .variable, .destroy 3].foldl Call.after single

theorem reachable_shadowed : shadowed.Reachable := by
  simp only [shadowed, List.foldl_cons, List.foldl_nil]
  refine .call (.call (.call (.call (.call (.call (.call .single _ ?_) _ ?_) _ ?_) _ ?_) _ ?_) _ ?_)
    _ ?_
  all_goals decide

theorem scoping_is_lexical_shadowed :
    shadowed.Reachable ∧ 2 < shadowed.scopes.size ∧
      shadowed.shown? 2 (.word "x") = some (1, .number "2") ∧
      shadowed.shown? 3 (.word "x") = some (0, .number "1") ∧
      shadowed.Finding 2 (.word "x") ∧ (∀ v, shadowed.Setting 2 (.word "x") v) ∧
      shadowed.Deleting 2 (.word "x") ∧ (∀ v mark, shadowed.Defining 2 (.word "x") v mark) ∧
      shadowed.Arranging 2 :=
  ⟨reachable_shadowed, by decide, rfl, rfl,
    scoping_is_lexical reachable_shadowed (by decide) (.word "x")⟩

end Script.Forest
