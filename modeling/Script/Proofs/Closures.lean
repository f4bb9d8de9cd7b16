import Script.Proofs.Discipline
import Script.Proofs.Constancy
import Script.Proofs.Discarding

/-!
# Closures keep their scopes

A function is declared in a scope that is captured then, with all scopes around it. From that
moment on none of them is discarded, in whatever bindings, arrays, arguments or results the function
is held: constants and functions stay in them, and a variable leaves them only where a statement
deletes it.
-/
namespace Script

open Forest

/-- Captured scopes stay captured, and the constants and functions in them stay as they are. -/
structure Keeping (f g : Forest) : Prop where
  grown : Grown (f, f) (g, g)
  fixed : ∀ {id name b}, f.IsCaptured id → f.at? id name = some b → b.mark ≠ .variable →
    g.at? id name = some b

/-- The statement that begins deletes this binding of a name. -/
def Moment.Deletes (a : Moment) (id : ScopeId) (name : Name) (b : Binding) : Prop :=
  ∃ n scope x, a.occasion = .begins (.deleteStmt n) scope ∧ Name.ofNode? n = some x ∧
    x.same name = true ∧ a.forest.lookup? scope x = some (id, b)

/-- No name leaves a captured scope, unless a statement deletes it. -/
def Moment.Spares (a b : Moment) : Prop :=
  ∀ id name c, a.forest.IsCaptured id → a.forest.at? id name = some c →
    b.forest.at? id name = none → a.Deletes id name c

/-- Function values close over captured scopes. -/
def keeping : Discipline where
  Inv f := Paired (f, f)
  Later := Keeping
  Next a b := Keeping a.forest b.forest ∧ a.Spares b
  Open id f := Whole id (f, f)
  Held v f := v.Kept f

namespace Keeping

variable {f g h : Forest}

theorem refl (f : Forest) : Keeping f f := ⟨.refl _, fun _ hb _ => hb⟩

theorem isCaptured (hfg : Keeping f g) {id : ScopeId} (hid : f.IsCaptured id) : g.IsCaptured id :=
  hfg.grown.isCaptured id hid

theorem trans (hfg : Keeping f g) (hgh : Keeping g h) : Keeping f h :=
  ⟨hfg.grown.trans hgh.grown, fun hid hb hm =>
    hgh.fixed (hfg.isCaptured hid) (hfg.fixed hid hb hm) hm⟩

theorem of_fixes (hfg : Grown (f, f) (g, g)) (hfix : f.Fixes g) : Keeping f g :=
  ⟨hfg, fun _ hb hm => hfix _ _ _ hb hm⟩

end Keeping

namespace Forest

variable {f g : Forest} {id : ScopeId} {name : Name} {v w : Value}

def Retains (f g : Forest) : Prop := ∀ id name b, f.at? id name = some b → g.at? id name ≠ none

theorem Retains.refl (f : Forest) : f.Retains f := fun _ _ _ hb hno => nomatch hb.symm.trans hno

theorem Retains.spares {a b : Moment} (h : a.forest.Retains b.forest) : a.Spares b :=
  fun id name c _ hc hno => absurd hno (h id name c hc)

theorem retains_modifyAt {change : Scope → Scope}
    (h : ∀ s, f.scope? id = some s → ∀ name b, s.find? name = some b →
      (change s).find? name ≠ none) : f.Retains (f.modifyAt id change) := by
  intro a name b hb
  obtain ⟨s, hs, hfind⟩ := Option.bind_eq_some_iff.mp hb
  rw [at?, scope?_modifyAt, hs]
  split_ifs with ha
  · subst ha
    exact h s hs name b hfind
  · simp [hfind]

theorem retains_define {mark : Mark} (h : define id name v mark f = .ok w g) : f.Retains g := by
  rcases define_cases f id name v mark with ⟨fault, herror⟩ | ⟨hno, hok⟩
  · cases h.symm.trans herror
  · cases h.symm.trans hok
    refine retains_modifyAt fun s hs n b hb => ?_
    rw [hs] at hno
    simp [Scope.find?_bind hno hb v mark]

theorem retains_get (h : Forest.get id name f = .ok w g) : f.Retains g := by
  rcases get_cases f id name with ⟨fault, herror⟩ | ⟨owner, b, -, hok⟩
  · cases h.symm.trans herror
  · cases h.symm.trans hok
    exact .refl f

theorem retains_set (h : Forest.set id name v f = .ok w g) : f.Retains g := by
  rcases set_cases f id name v with ⟨fault, herror⟩ | ⟨owner, b, -, -, hok⟩
  · cases h.symm.trans herror
  · cases h.symm.trans hok
    refine retains_modifyAt fun s _ n b hb => ?_
    simp [Scope.find?_rebind_eq, hb]

theorem retains_push (f : Forest) (s : Scope) : f.Retains ⟨f.scopes.push s⟩ := by
  intro id name b hb
  simp [at?_push_of_eq_some hb s]

theorem retains_capture (f : Forest) (id : ScopeId) : f.Retains (f.capture id) := by
  intro a name b hb
  simp [capture, at?_captureFrom, hb]

/-- What a deletion takes away is the binding that the name is looked up to. -/
theorem lookup?_of_lost (h : delete id name f = .ok v g) {owner : ScopeId} {n : Name} {c : Binding}
    (hc : f.at? owner n = some c) (hno : g.at? owner n = none) :
    name.same n = true ∧ f.lookup? id name = some (owner, c) := by
  rcases delete_cases f id name with ⟨fault, herror⟩ | ⟨owner', b, hl, -, hok⟩
  · cases h.symm.trans herror
  · cases h.symm.trans hok
    obtain ⟨-, s, hs, hb⟩ := findFrom_eq_some hl
    obtain ⟨t, ht, hfind⟩ := Option.bind_eq_some_iff.mp hc
    rw [at?, scope?_modifyAt, ht] at hno
    split_ifs at hno with ho
    · subst ho
      obtain rfl : s = t := Option.some.inj (hs.symm.trans ht)
      have hname : name.same n = true := by
        by_contra hne
        have hkept := Scope.find?_unbind_of_not_same (by simpa using hne) s
        cases (hkept.trans hfind).symm.trans hno
      rw [Scope.find?_congr hname, hfind] at hb
      exact ⟨hname, Option.some.inj hb ▸ hl⟩
    · cases hfind.symm.trans hno

end Forest

theorem paired_self {f : Forest} (hf : f.Sound)
    (hk : ∀ {id s}, f.scope? id = some s → ∀ b ∈ s.bindings, b.value.Kept f) : Paired (f, f) :=
  ⟨hf, rfl, fun hs => ⟨_, hs, rfl, rfl, fun _ => rfl⟩, hk⟩

/-- In step with itself, a run keeps closures as it does when it discards scopes. -/
theorem keeps_self {α : Type} {f : Forest} {P : α → Forests → Prop} {action : Action α}
    (h : discarding.Keeps (f, f) P action) :
    (∃ v g, action f = .ok v g ∧ Paired (g, g) ∧ Grown (f, f) (g, g) ∧ P v (g, g)) ∨
      ∃ fault, action f = .error fault f := by
  rcases h with ⟨v, ⟨g, g'⟩, h₁, h₂, hi, hl, hv⟩ | ⟨fault, h₁, -⟩
  · obtain ⟨-, rfl⟩ : v = v ∧ g = g' := by simpa using h₁.symm.trans h₂
    exact .inl ⟨v, g, h₁, hi, hl, hv⟩
  · exact .inr ⟨fault, h₁⟩

/-- An operation that spares constants and functions. -/
theorem keeping_keeps {α : Type} {a : Moment} {P : α → Forests → Prop} {action : Action α}
    (h : discarding.Keeps (a.forest, a.forest) P action) (hs : Sparing action)
    (hn : ∀ v g, action a.forest = .ok v g → a.Spares ⟨.changed, g⟩) :
    keeping.Keeps a (fun v g => P v (g, g)) action := by
  rcases keeps_self h with ⟨v, g, hok, hi, hl, hv⟩ | ⟨fault, hf⟩
  · obtain ⟨w, g', hok', hfix⟩ | ⟨fault, herror⟩ := hs a.forest
    · rw [hok] at hok'
      cases hok'
      have hkeep := Keeping.of_fixes hl hfix
      exact .inl ⟨v, g, hok, hi, hkeep, ⟨hkeep, hn v g hok⟩, hv⟩
    · rw [hok] at herror
      cases herror
  · exact .inr ⟨fault, hf⟩

/-- A captured scope keeps everything, whatever scope is left. -/
theorem scope?_leave {f : Forest} {id : ScopeId} (hid : f.IsCaptured id) (discards : Bool)
    (left : ScopeId) : (f.leave discards left).scope? id = f.scope? id := by
  rcases leave_cases f discards left with h | ⟨hc, h⟩
  · rw [h]
  · have hne : id ≠ left := fun heq => hc (heq ▸ hid)
    rw [h, scope?_modifyAt_of_ne f hne]

theorem keeping_leave (f : Forest) (discards : Bool) (id : ScopeId) :
    Keeping f (f.leave discards id) := by
  refine ⟨⟨fun {a s} hs => ?_, fun _ _ => rfl⟩, fun hid hb _ => ?_⟩
  · rcases leave_cases f discards id with h | ⟨-, h⟩
    · exact ⟨s, by rw [h, hs], rfl, fun hc => hc⟩
    · simp only [h, scope?_modifyAt, hs]
      split
      · exact ⟨_, rfl, rfl, fun hc => hc⟩
      · exact ⟨s, rfl, rfl, fun hc => hc⟩
  · rwa [at?, scope?_leave hid]

theorem paired_leave {f : Forest} (hf : Paired (f, f)) (discards : Bool) (id : ScopeId) :
    Paired (f.leave discards id, f.leave discards id) := by
  have hkept {v : Value} (hv : v.Kept f) : v.Kept (f.leave discards id) :=
    (keeping_leave f discards id).grown.kept hv
  rcases leave_cases f discards id with h | ⟨-, h⟩
  · rwa [h]
  · rw [h] at hkept ⊢
    refine paired_self (hf.sound.modifyAt id fun _ => ⟨rfl, rfl⟩) fun {a s} hs b hb => hkept ?_
    rcases scope?_modifyAt_eq_some hs with ⟨rfl, t, -, rfl⟩ | ⟨-, hs⟩
    · cases hb
    · exact hf.kept hs b hb

theorem keeping_stable : keeping.Stable where
  refl := .refl
  trans := .trans
  next_same h := by
    refine ⟨h ▸ .refl _, Retains.spares ?_⟩
    rw [h]
    exact .refl _
  open_later ho h := h.grown.whole ho
  held_later hv h := h.grown.kept hv
  held_simple := Value.Simple.kept
  held_array {_ _ f} := discarding_stable.held_array (p := (f, f))
  open_closure hf h := discarding_stable.open_closure hf h
  child := by
    intro a id ha ho
    rcases keeps_self (discarding_stable.child ha ho) with ⟨inner, g, hok, hi, hl, hopen, -⟩ | h
    · cases hok
      have hkeep := Keeping.of_fixes hl (fixes_push a.forest _)
      refine .inl ⟨_, _, rfl, hi, hkeep, ⟨hkeep, (retains_push _ _).spares⟩, hopen, ?_⟩
      intro b discards hb hlater
      have hleave := keeping_leave b.forest discards a.forest.scopes.size
      refine ⟨paired_leave hb discards _, hkeep.trans (hlater.trans hleave), hleave, ?_⟩
      intro owner name c hcap hc hno
      rw [at?, scope?_leave hcap] at hno
      cases hc.symm.trans hno
    · exact .inr h
  define name mark ha ho hv :=
    keeping_keeps (discarding_stable.define name mark ha ho hv) (sparing_define _ name _ mark)
      fun _ _ h => (retains_define h).spares
  get name ha ho :=
    keeping_keeps (discarding_stable.get name ha ho) (sparing_get _ name)
      fun _ _ h => (retains_get h).spares
  set name ha ho hv :=
    keeping_keeps (discarding_stable.set name ha ho hv) (sparing_set _ name _)
      fun _ _ h => (retains_set h).spares
  delete := by
    intro f id n name hn hf ho
    refine keeping_keeps (a := ⟨.begins (.deleteStmt n) id, f⟩)
      (discarding_stable.delete name hf ho) (sparing_delete id name) ?_
    intro v g h owner x c _ hc hno
    obtain ⟨hsame, hl⟩ := lookup?_of_lost h hc hno
    exact ⟨n, id, name, rfl, hn, hsame, hl⟩
  capture := by
    intro a id ha ho
    obtain ⟨hi, hl, hf⟩ := discarding_stable.capture ha ho
    have hkeep := Keeping.of_fixes hl (fixes_captureFrom (id + 1) id a.forest)
    exact ⟨hi, hkeep, ⟨hkeep, (retains_capture a.forest id).spares⟩, hf⟩

/-- One value is another or stands among its items. -/
inductive Value.Contains : Value → Value → Prop
  | self (v) : Contains v v
  | item (i) {items v w} (hv : v ∈ items) (h : Contains v w) : Contains (.array i items) w

/-- A value is held: a scope binds it, or an evaluation ends with it, itself or in an array. -/
inductive Moment.Holds (a : Moment) (w : Value) : Prop
  | bound {id s b} (hs : a.forest.scope? id = some s) (hb : b ∈ s.bindings)
      (hw : b.value.Contains w)
  | result {v} (hv : a.occasion = .ends (some v)) (hw : v.Contains w)

theorem Value.Kept.of_contains {f : Forest} {v w : Value} (hv : v.Kept f) (h : v.Contains w) :
    w.Kept f := by
  induction h with
  | self => exact hv
  | item i hmem _ ih =>
    cases hv with
    | array _ hitems => exact ih (hitems _ hmem)

theorem kept_of_holds {a : Moment} (ha : keeping.Right a) {w : Value} (h : a.Holds w) :
    w.Kept a.forest := by
  cases h with
  | bound hs hb hw => exact (ha.inv.kept hs _ hb).of_contains hw
  | result hv hw => exact (ha.held _ hv).of_contains hw

/-- The scopes that a function sees are captured, in a moment and ever after. -/
theorem isCaptured_above_closure {a b : Moment} (ha : keeping.Right a) (hb : keeping.Right b)
    (hab : Keeping a.forest b.forest) {i : Identity} {name : Name} {params body : Node}
    {closure : ScopeId} (h : a.Holds (.function i name params body closure)) :
    ∀ id, Above b.forest closure id → b.forest.IsCaptured id := by
  intro id hid
  cases kept_of_holds ha h with
  | function _ _ _ _ hc => exact hb.inv.sound.isCaptured_above hid (hab.isCaptured hc)

namespace Session

/-- Closures keep their scopes. In every moment of a session, the scope that a function closes over
and those around it are captured, wherever the function is held, and so they are in every later
moment. Captured scopes stay captured, with the constants and functions in them, and a name leaves
them only where a statement begins that deletes this very binding. -/
theorem closures_keep_scopes (ambient : Ambient) (debugLevel : Nat) (inputs : List String)
    (steps : List (Bool × Step)) :
    (∀ a ∈ moments steps (.fresh ambient debugLevel inputs), ∀ i name params body closure,
        a.Holds (.function i name params body closure) →
          ∀ id, Above a.forest closure id → a.forest.IsCaptured id) ∧
      (moments steps (.fresh ambient debugLevel inputs)).Pairwise (fun a b =>
        (∀ i name params body closure, a.Holds (.function i name params body closure) →
          ∀ id, Above b.forest closure id → b.forest.IsCaptured id) ∧
        ∀ id, a.forest.IsCaptured id → b.forest.IsCaptured id ∧
          ∀ name c, a.forest.at? id name = some c → c.mark ≠ .variable →
            b.forest.at? id name = some c) ∧
      (moments steps (.fresh ambient debugLevel inputs)).IsChain (fun a b =>
        ∀ id name c, a.forest.IsCaptured id → a.forest.at? id name = some c →
          b.forest.at? id name = none → a.Deletes id name c) := by
  have hsession := keeping_stable.session steps (m := .fresh ambient debugLevel inputs) paired_fresh
    whole_fresh
  obtain ⟨hchain, hright⟩ := hsession
  have hlater : IsTrans Moment fun a b => Keeping a.forest b.forest := ⟨fun _ _ _ => .trans⟩
  have hpairs := (hchain.imp fun _ _ h => h.1).pairwise
  refine ⟨fun a ha i name params body closure h => ?_, ?_, hchain.imp fun _ _ h => h.2⟩
  · exact isCaptured_above_closure (hright a ha) (hright a ha) (.refl _) h
  · refine hpairs.imp_of_mem fun ha hb hab => ⟨fun i name params body closure h => ?_, ?_⟩
    · exact isCaptured_above_closure (hright _ ha) (hright _ hb) hab h
    · exact fun id hid => ⟨hab.isCaptured hid, fun name c hc hm => hab.fixed hid hc hm⟩

end Session
end Script
