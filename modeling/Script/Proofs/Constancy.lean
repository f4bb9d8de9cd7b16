import Script.Proofs.Coupling
import Mathlib.Data.List.Chain

/-!
# Constants stay

No program changes a binding that is marked as a constant or a function. Every operation on scopes
leaves such bindings alone in the scopes that are there, so evaluation does, and with it every step
of a session, also one that ends with a fault.
-/
namespace Script

theorem Name.same_refl (a : Name) : a.same a = true := by
  cases a <;> simp [Name.same]

theorem Name.same_comm (a b : Name) : a.same b = b.same a := by
  cases a <;> cases b <;> simp [Name.same, eq_comm]

/-- Names that are the same are the same as the same names. -/
theorem Name.same_congr {a b : Name} (h : a.same b = true) (c : Name) : c.same a = c.same b := by
  cases a <;> cases b <;> cases c <;> simp_all [Name.same]

namespace Scope

variable {s : Scope} {name n : Name} {b c : Binding}

theorem find?_congr (h : name.same n = true) (s : Scope) : s.find? name = s.find? n := by
  unfold find?
  congr
  funext b
  exact Name.same_congr h b.name

theorem same_of_find? (h : s.find? name = some b) : b.name.same name = true := by
  have hsame := List.find?_some h
  exact hsame

theorem find?_bind_eq (s : Scope) (b : Binding) (n : Name) :
    (s.bind b).find? n = if b.name.same n then some b else s.find? n := by
  simp only [find?, bind, List.find?_cons]
  cases b.name.same n <;> rfl

/-- A new value changes neither which binding is found nor its mark. -/
theorem find?_rebind_eq (s : Scope) (name n : Name) (v : Value) :
    (s.rebind name v).find? n =
      (s.find? n).map fun b => if b.name.same name then { b with value := v } else b := by
  have hpred : (fun d : Binding => d.name.same n) ∘
      (fun d => if d.name.same name then { d with value := v } else d) =
      fun d : Binding => d.name.same n := by
    funext d
    simp only [Function.comp_apply]
    split <;> rfl
  rw [find?, rebind, List.find?_map, hpred]
  rfl

theorem find?_unbind_of_same (h : name.same n = true) (s : Scope) :
    (s.unbind name).find? n = none := by
  rw [find?, unbind, List.find?_eq_none]
  intro b hb
  rw [← Name.same_congr h]
  simpa using (List.mem_filter.mp hb).2

theorem find?_unbind_of_not_same (h : name.same n = false) (s : Scope) :
    (s.unbind name).find? n = s.find? n := by
  -- among the bindings of `n`, none is a binding of `name`
  have hpred : (fun d : Binding => !d.name.same name && d.name.same n) =
      fun d : Binding => d.name.same n := by
    funext d
    cases hd : d.name.same n with
    | false => rw [Bool.and_false]
    | true =>
      have hno : d.name.same name = false := by
        rw [← Bool.not_eq_true]
        intro hsame
        rw [← Name.same_congr hd, Name.same_comm, hsame] at h
        cases h
      rw [hno, Bool.not_false, Bool.and_true]
  rw [find?, unbind, List.find?_filter]
  simp only [Bool.decide_and, Bool.decide_eq_true, hpred]
  rfl

/-- A new binding does not hide another one. -/
theorem find?_bind (hs : s.find? name = none) (hc : s.find? n = some c) (v : Value) (mark : Mark) :
    (s.bind ⟨name, v, mark⟩).find? n = some c := by
  have hno : ¬ name.same n = true := by
    intro h
    rw [find?_congr h, hc] at hs
    cases hs
  rw [find?_bind_eq, if_neg hno, hc]

section Marked

variable (hb : s.find? name = some b) (hc : s.find? n = some c) (hne : b.mark ≠ c.mark)

include hb hc hne

/-- Names that are bound with different marks are different. -/
theorem not_same_of_marks : name.same n = false := by
  rw [← Bool.not_eq_true]
  intro h
  rw [find?_congr h, hc] at hb
  exact hne (congrArg Binding.mark (Option.some.inj hb).symm)

theorem find?_rebind (v : Value) : (s.rebind name v).find? n = some c := by
  have hno : ¬ c.name.same name = true := by
    intro h
    have hns := not_same_of_marks hb hc hne
    rw [← Name.same_congr (same_of_find? hc), Name.same_comm, h] at hns
    cases hns
  rw [find?_rebind_eq, hc, Option.map_some, if_neg hno]

theorem find?_unbind : (s.unbind name).find? n = some c :=
  (find?_unbind_of_not_same (not_same_of_marks hb hc hne) s).trans hc

end Marked

end Scope

theorem find?_of_mem {bs : List Binding}
    (h : (bs.map Binding.name).Pairwise (fun a b => a.same b = false)) {b : Binding} (hb : b ∈ bs) :
    bs.find? (·.name.same b.name) = some b := by
  induction bs with
  | nil => cases hb
  | cons d ds ih =>
    obtain ⟨hd, hds⟩ := List.pairwise_cons.mp h
    rcases List.mem_cons.mp hb with rfl | hb
    · exact List.find?_cons_of_pos (Name.same_refl b.name)
    · rw [List.find?_cons_of_neg (by simp [hd _ (List.mem_map_of_mem hb)])]
      exact ih hds hb

theorem Library.names_distinct :
    (Library.bindings.map Binding.name).Pairwise (fun a b => a.same b = false) := by
  decide

theorem Library.marks_fixed : ∀ b ∈ Library.bindings, b.mark ≠ .variable := by
  decide

namespace Forest

def at? (f : Forest) (id : ScopeId) (name : Name) : Option Binding :=
  (f.scope? id).bind (·.find? name)

theorem lt_size_of_at? {f : Forest} {id : ScopeId} {name : Name} {b : Binding}
    (h : f.at? id name = some b) : id < f.scopes.size := by
  obtain ⟨s, hs, -⟩ := Option.bind_eq_some_iff.mp h
  exact lt_size_of_scope? hs

theorem at?_push (f : Forest) (s : Scope) (id : ScopeId) (name : Name) :
    (Forest.mk (f.scopes.push s)).at? id name =
      if id = f.scopes.size then s.find? name else f.at? id name := by
  rw [at?, at?, scope?, scope?, Array.getElem?_push]
  split_ifs <;> rfl

/-- A new scope changes no binding of the others. -/
theorem at?_push_of_eq_some {f : Forest} {id : ScopeId} {name : Name} {b : Binding}
    (h : f.at? id name = some b) (s : Scope) :
    (Forest.mk (f.scopes.push s)).at? id name = some b := by
  rw [at?_push, if_neg (lt_size_of_at? h).ne, h]

theorem at?_captureFrom (steps : Nat) (id : ScopeId) (f : Forest) (a : ScopeId) (name : Name) :
    (captureFrom steps id f).at? a name = f.at? a name := by
  refine captureFrom_induction (P := fun g => g.at? a name = f.at? a name) (fun g i h => ?_) steps
    id rfl
  rw [← h, at?, at?, scope?_modifyAt]
  split_ifs
  · cases g.scope? a <;> rfl
  · rfl

/-- The constants and functions of `f` are the same in `g`. -/
def Fixes (f g : Forest) : Prop :=
  ∀ id name b, f.at? id name = some b → b.mark ≠ .variable → g.at? id name = some b

theorem Fixes.refl (f : Forest) : f.Fixes f := fun _ _ _ h _ => h

theorem Fixes.trans {f g h : Forest} (hfg : f.Fixes g) (hgh : g.Fixes h) : f.Fixes h :=
  fun id name b hb hm => hgh id name b (hfg id name b hb hm) hm

instance : IsTrans Forest Fixes := ⟨fun _ _ _ => Fixes.trans⟩

/-- The operation leaves constants and functions alone, and everything if it does not go through. -/
def Sparing {α : Type} (action : Action α) : Prop :=
  ∀ f, (∃ a g, action f = .ok a g ∧ f.Fixes g) ∨ ∃ fault, action f = .error fault f

variable {f : Forest} {id : ScopeId}

theorem fixes_modifyAt {change : Scope → Scope}
    (h : ∀ s, f.scope? id = some s → ∀ name b, s.find? name = some b → b.mark ≠ .variable →
      (change s).find? name = some b) : f.Fixes (f.modifyAt id change) := by
  intro a name b hb hm
  obtain ⟨s, hs, hfind⟩ := Option.bind_eq_some_iff.mp hb
  rw [at?, scope?_modifyAt, hs]
  split_ifs with ha
  · subst ha
    exact h s hs name b hfind hm
  · exact hfind

theorem sparing_define (id : ScopeId) (name : Name) (v : Value) (mark : Mark) :
    Sparing (define id name v mark) := by
  intro f
  rcases define_cases f id name v mark with herror | ⟨hno, hok⟩
  · exact .inr herror
  · refine .inl ⟨_, _, hok, fixes_modifyAt fun s hs n b hb _ => ?_⟩
    rw [hs] at hno
    exact Scope.find?_bind hno hb v mark

theorem sparing_get (id : ScopeId) (name : Name) : Sparing (get id name) := by
  intro f
  rcases get_cases f id name with herror | ⟨owner, b, -, hok⟩
  · exact .inr herror
  · exact .inl ⟨_, _, hok, .refl f⟩

/-- A change to a name in the scope that owns it, if it is a variable there. -/
theorem fixes_at_owner {name : Name} {owner : ScopeId} {b : Binding} {change : Scope → Scope}
    (hl : f.lookup? id name = some (owner, b)) (hm : b.mark = .variable)
    (hc : ∀ {s : Scope} {n c}, s.find? name = some b → s.find? n = some c → b.mark ≠ c.mark →
      (change s).find? n = some c) : f.Fixes (f.modifyAt owner change) := by
  obtain ⟨-, s, hs, hb⟩ := findFrom_eq_some hl
  refine fixes_modifyAt fun t ht n c hfind hmc => ?_
  obtain rfl : s = t := Option.some.inj (hs.symm.trans ht)
  exact hc hb hfind fun heq => hmc (heq.symm.trans hm)

theorem sparing_set (id : ScopeId) (name : Name) (v : Value) : Sparing (set id name v) := by
  intro f
  rcases set_cases f id name v with herror | ⟨owner, b, hl, hm, hok⟩
  · exact .inr herror
  · exact .inl ⟨_, _, hok, fixes_at_owner hl hm fun hb hc hne => Scope.find?_rebind hb hc hne v⟩

theorem sparing_delete (id : ScopeId) (name : Name) : Sparing (delete id name) := by
  intro f
  rcases delete_cases f id name with herror | ⟨owner, b, hl, hm, hok⟩
  · exact .inr herror
  · exact .inl ⟨_, _, hok, fixes_at_owner hl hm Scope.find?_unbind⟩

theorem fixes_push (f : Forest) (s : Scope) : f.Fixes ⟨f.scopes.push s⟩ :=
  fun _ _ _ hb _ => at?_push_of_eq_some hb s

theorem fixes_captureFrom (steps : Nat) (id : ScopeId) (f : Forest) :
    f.Fixes (captureFrom steps id f) :=
  fun a name _ hb _ => (at?_captureFrom steps id f a name).trans hb

/-- Leaving a scope that is newer than `f`. -/
theorem Fixes.leave {g : Forest} (h : f.Fixes g) (hid : f.scope? id = none) (discards : Bool) :
    f.Fixes (g.leave discards id) := by
  intro a name b hb hm
  have ha : a ≠ id := by
    rintro rfl
    rw [at?, hid] at hb
    cases hb
  rw [at?, scope?_leave_of_ne ha]
  exact h a name b hb hm

end Forest

/-- A run in step with itself, from the forest `start` on. -/
def fixing (start : Forest) (discards : Bool) : Coupling where
  first := discards
  second := discards
  Inv p := p.1 = p.2 ∧ start.Fixes p.1
  Later p q := p.1.Fixes q.1
  Open _ _ := True
  Held _ _ := True

open Forest

theorem keeps_of_sparing {start : Forest} {discards : Bool} {p : Forests} {α : Type}
    {action : Action α} (hp : (fixing start discards).Inv p) (h : Sparing action) :
    (fixing start discards).Keeps p (fun _ _ => True) action := by
  obtain ⟨f, g⟩ := p
  obtain ⟨rfl, hstart⟩ : f = g ∧ start.Fixes f := hp
  rcases h f with ⟨a, g, hok, hfix⟩ | ⟨fault, herror⟩
  · exact .inl ⟨a, (g, g), hok, hok, ⟨rfl, hstart.trans hfix⟩, hfix, trivial⟩
  · exact .inr ⟨fault, herror, herror⟩

/-- Whatever is evaluated, constants and functions stay. -/
theorem fixing_stable (start : Forest) (discards : Bool) : (fixing start discards).Stable where
  refl p := .refl p.1
  trans h h' := h.trans h'
  open_later _ _ := trivial
  held_later _ _ := trivial
  held_simple _ := trivial
  held_array := ⟨fun _ _ _ => trivial, fun _ => trivial⟩
  open_closure _ _ := trivial
  child := by
    rintro id ⟨f, g⟩ ⟨rfl : f = g, hstart : start.Fixes f⟩ -
    have hpush := fixes_push f (.inside (some id))
    refine .inl ⟨f.scopes.size, (⟨f.scopes.push (.inside (some id))⟩, _), rfl, rfl,
      ⟨rfl, hstart.trans hpush⟩, hpush, trivial, ?_⟩
    rintro ⟨h, h'⟩ ⟨rfl : h = h', -⟩ hlater
    -- the scope that is left then is none of those in `f`
    have hnew : f.scope? f.scopes.size = none := by simp [scope?]
    have hleft := (hpush.trans hlater).leave hnew discards
    exact ⟨⟨rfl, hstart.trans hleft⟩, hleft⟩
  define name mark hp _ _ := keeps_of_sparing hp (sparing_define _ name _ mark)
  get name hp _ := keeps_of_sparing hp (sparing_get _ name)
  set name hp _ _ := keeps_of_sparing hp (sparing_set _ name _)
  delete name hp _ := keeps_of_sparing hp (sparing_delete _ name)
  capture := by
    rintro id ⟨f, g⟩ ⟨rfl : f = g, hstart : start.Fixes f⟩ -
    have hcapture := fixes_captureFrom (id + 1) id f
    exact ⟨⟨rfl, hstart.trans hcapture⟩, hcapture, fun _ _ _ _ => trivial⟩

namespace Session

/-- One step of a session. -/
theorem fixes_step (echo : Bool) (step : Step) (m : Machine) :
    m.forest.Fixes (step.run echo m).2.forest := by
  have hinv : (fixing m.forest m.discards).Inv (m.forest, m.forest) := ⟨rfl, .refl m.forest⟩
  have hstep := (fixing_stable m.forest m.discards).matched_step echo step hinv trivial m
  obtain ⟨n, q, hq, -, ⟨-, hfix⟩, -⟩ := hstep.machine
  have hforest : (step.run echo m).2.forest = q.1 := congrArg Machine.forest hq
  rw [hforest]
  exact hfix

/-- The forests of a session: the one it starts with, and the one after each step. -/
def forests (steps : List (Bool × Step)) (m : Machine) : List Forest :=
  m.forest :: (outcomes steps m).map (·.2.forest)

theorem isChain_forests (steps : List (Bool × Step)) (m : Machine) :
    (forests steps m).IsChain Fixes := by
  induction steps generalizing m with
  | nil => exact .singleton m.forest
  | cons step steps ih =>
    obtain ⟨echo, step⟩ := step
    exact .cons_cons (fixes_step echo step m) (ih (step.run echo m).2)

/-- Before anything has run, the root scope has the bindings of the library. -/
theorem at?_fresh (ambient : Ambient) (debugLevel : Nat) (inputs : List String) {b : Binding}
    (hb : b ∈ Library.bindings) :
    (Machine.fresh ambient debugLevel inputs).forest.at? Forest.root b.name = some b :=
  find?_of_mem Library.names_distinct hb

/-- Constants and functions of the root scope stay as they are in a session, whatever its steps do
and wherever they fail, and so does the library. -/
theorem constants_stay (ambient : Ambient) (debugLevel : Nat) (inputs : List String)
    (steps : List (Bool × Step)) :
    (forests steps (.fresh ambient debugLevel inputs)).Pairwise (fun f g =>
        ∀ name b, f.at? Forest.root name = some b → b.mark ≠ .variable →
          g.at? Forest.root name = some b) ∧
      Library.bindings.length = 13 ∧
      ∀ f ∈ forests steps (.fresh ambient debugLevel inputs), ∀ b ∈ Library.bindings,
        b.mark ≠ .variable ∧ f.at? Forest.root b.name = some b := by
  have hall := (isChain_forests steps (.fresh ambient debugLevel inputs)).pairwise
  refine ⟨hall.imp fun hfg name b => hfg Forest.root name b, rfl, fun f hf b hb => ?_⟩
  have hmark := Library.marks_fixed b hb
  have hfresh := at?_fresh ambient debugLevel inputs hb
  rcases List.mem_cons.mp hf with rfl | hf
  · exact ⟨hmark, hfresh⟩
  · exact ⟨hmark, List.rel_of_pairwise_cons hall hf _ _ b hfresh hmark⟩

end Session
end Script
