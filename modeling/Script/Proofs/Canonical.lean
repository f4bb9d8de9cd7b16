import Script.Proofs.Closures
import Script.Proofs.NumberTexts
import Script.Proofs.Progress

/-!
# Canonical values

While programs from source texts run, every number that is held anywhere is written as its double is
written, whichever operator, literal or library function has made it. So numbers have the same text
exactly if they are the same number, and equality of values, which compares texts, is an equivalence
relation on all of them.
-/
namespace Script

open Forest

namespace Node

theorem Expression.part {n p : Node} (h : n.Expression) (hp : n.Part p) : p.Expression := by
  cases h with
  | assign _ he | negation _ he =>
    cases hp
    exact he
  | step _ hx =>
    cases hp
    exact .identifier hx
  | binary _ ha hb | index ha hb =>
    cases hp
    · exact ha
    · exact hb
  | call _ he =>
    cases hp with
    | argument _ hparts hn => exact he _ (Except.ok.inj hparts ▸ hn)
  | array he =>
    cases hp with
    | item hparts hn => exact he _ (Except.ok.inj hparts ▸ hn)
  | _ => cases hp

/-- What a statement evaluates in its own scope is an expression. -/
theorem Statement.part {n p : Node} (h : n.Statement) (hp : n.Part p) : p.Expression := by
  cases h with
  | expression he => exact he.part hp
  | declaration hd =>
    cases hd with
    | uninitialized =>
      cases hp with
      | declared _ _ hne => exact absurd rfl hne
    | initialized _ _ he =>
      cases hp
      exact he
  | ifThen he | ifElse he | «while» he =>
    cases hp
    exact he
  | returnNothing =>
    cases hp with
    | returned hne => exact absurd rfl hne
  | returnValue he =>
    cases hp
    exact he
  | _ => cases hp

theorem Statement.of_among {ss : List Node} {n : Node} (hs : ∀ s ∈ ss, s.Statement)
    (h : n.Among (.block (.list ss))) : n.Statement := by
  obtain ⟨_, ns, ⟨⟩, hparts, hn⟩ := h
  exact hs n (Except.ok.inj hparts ▸ hn)

/-- What a statement evaluates in a scope of its own are statements. -/
theorem Statement.inner {n p : Node} (h : n.Statement) (hp : n.Inner p) : p.Statement := by
  cases h with
  | expression he => cases he <;> cases hp
  | declaration hd => cases hd <;> cases hp
  | block hs =>
    cases hp with
    | statement hparts hn => exact hs _ (Except.ok.inj hparts ▸ hn)
  | ifThen _ hs =>
    cases hp with
    | thenBlock _ _ h => exact .of_among hs h
    | elseBlock _ _ h =>
      obtain ⟨_, _, ⟨⟩, -⟩ := h
  | ifElse _ hs hr =>
    cases hp with
    | thenBlock _ _ h => exact .of_among hs h
    | elseBlock _ _ h => exact .of_among hr h
  | «while» _ hs =>
    cases hp with
    | whileBody _ h => exact .of_among hs h
  | «for» hi he hu hs =>
    cases hp with
    | init =>
      rcases hi with hi | hi
      · exact .declaration hi
      · exact .expression hi
    | test => exact .expression he
    | update => exact .expression hu
    | forBody _ _ _ h => exact .of_among hs h
  | _ => cases hp

end Node

namespace Value

/-- A value whose numbers are written as doubles are, with texts for strings and statements for the
bodies of functions. -/
inductive Canonical : Value → Prop
  | number (x : Double) : Canonical (.ofDouble x)
  | string (s : String) : Canonical (.string (.text s))
  | boolean (b) : Canonical (.boolean b)
  | null : Canonical .null
  | array (i) {items} (h : ∀ v ∈ items, Canonical v) : Canonical (.array i items)
  | function (i) (x : String) (ps : List String) {ss} (closure) (hs : ∀ s ∈ ss, s.Statement) :
      Canonical (.function i (.word x) (.list (ps.map .text)) (.block (.list ss)) closure)
  | native (f) : Canonical (.native f)

theorem Canonical.proper {v : Value} (h : v.Canonical) : v.Proper := by
  induction h with
  | number x => exact proper_ofDouble x
  | string s => exact .string s
  | boolean b => exact .boolean b
  | null => exact .null
  | array i _ ih => exact .array i ih
  | function i x ps closure hs => exact .function i x ps closure hs
  | native f => exact .native f

/-- What is made on the spot is canonical, as far as it is proper at all. -/
theorem Simple.canonical {v : Value} (hs : v.Simple) (hp : v.Proper) : v.Canonical := by
  cases hs with
  | number x => exact .number x
  | string c =>
    cases hp
    exact .string _
  | boolean b => exact .boolean b
  | null => exact .null
  | strings i cs =>
    cases hp with
    | array _ hitems =>
      refine .array i fun v hv => ?_
      have hv' := hitems v hv
      obtain ⟨c, -, rfl⟩ := List.mem_map.mp hv
      cases hv'
      exact .string _

theorem canonical_array {i : Identity} {vs : List Value} :
    (array i vs).Canonical ↔ ∀ v ∈ vs, v.Canonical := by
  constructor
  · intro h
    cases h with
    | array _ h => exact h
  · exact .array i

theorem Canonical.get {v i w : Value} (hv : v.Canonical) (hi : i.Canonical) (h : v.get i = .ok w) :
    w.Canonical := by
  obtain ⟨u, hu, hp⟩ := hv.proper.get hi.proper
  obtain rfl : u = w := Except.ok.inj (hu.symm.trans h)
  rcases get_result h with hs | ⟨id, items, rfl, hmem⟩
  · exact hs.canonical hp
  · exact canonical_array.mp hv u hmem

theorem Canonical.of_contains {v w : Value} (hv : v.Canonical) (h : v.Contains w) :
    w.Canonical := by
  induction h with
  | self => exact hv
  | item i hmem _ ih => exact ih (canonical_array.mp hv _ hmem)

end Value

namespace Operator

theorem step?_canonical {operator : String} {v w : Value} (hv : v.Canonical)
    (h : step? operator v = .ok (some w)) : w.Canonical := by
  obtain ⟨next?, hnext, hp⟩ := step?_proper hv.proper operator
  obtain rfl : next? = some w := Except.ok.inj (hnext.symm.trans h)
  exact (step?_result h).canonical (hp w rfl)

theorem apply_canonical {i : Identity} {operator : String} {u v w : Value}
    (ho : operator ∈ strict) (hu : u.Canonical) (hv : v.Canonical)
    (h : apply i operator u v = .ok w) : w.Canonical := by
  rcases apply_proper hu.proper hv.proper i ho with ⟨r, hr, hp⟩ | ⟨fault, hf, -⟩
  · obtain rfl : r = w := Except.ok.inj (hr.symm.trans h)
    rcases apply_result h with hs | rfl
    · exact hs.canonical hp
    · exact hu
  · cases hf.symm.trans h

end Operator

/-- What a blind computation gives does not depend on the scopes, so they may as well be empty. -/
theorem gives_of_safe {α : Type} {S : Fault → Machine → Prop} {P : α → Prop} {x : Run α}
    (hx : Blind x) (h : Progress.Safe S P x) : Gives P x := by
  intro m v n hm
  have hempty : (m.seen ⟨#[]⟩ m.debugLevel id).Proper := by
    intro id s hs
    cases hs
  have hfine := h _ hempty
  rw [hx m ⟨#[]⟩ m.debugLevel id fun _ _ _ => rfl, hm] at hfine
  cases hfine with
  | ok _ hv => exact hv

theorem canonical_libraryCall {f : Native} {args : List Value} (h : ∀ v ∈ args, v.Canonical) :
    Gives Value.Canonical (Library.call f args) := by
  have hsafe : Progress.Safe (fun _ _ => False) Value.Proper (Library.call f args) :=
    Progress.safe_libraryCall f fun v hv => (h v hv).proper
  have hproper := gives_of_safe (blind_libraryCall f args) hsafe
  intro m v n hv
  rcases gives_libraryCall f args m v n hv with hs | hmem
  · exact hs.canonical (hproper m v n hv)
  · exact h v hmem

def Forest.Binds (V : Value → Prop) (f : Forest) : Prop :=
  ∀ id s, f.scope? id = some s → ∀ b ∈ s.bindings, V b.value

/-- Only canonical values are held. -/
def canonical : Discipline where
  Inv f := f.Binds Value.Canonical
  Later _ _ := True
  Next _ _ := True
  Open _ _ := True
  Held v _ := v.Canonical

def onlyStatements : Discipline.Licence where
  May n _ _ := n.Statement
  Free _ _ _ := True
  Own _ _ := True

def Machine.withScopes (f : Forest) : Machine :=
  { Machine.fresh (.seeded 0 0) 0 [] with forest := f }

theorem canonical_keeps {α : Type} {a : Moment} {P : α → Prop} {action : Action α}
    (ha : a.forest.Binds Value.Canonical) (h : Upholds Value.Canonical P action) :
    canonical.Keeps a (fun v _ => P v) action := by
  rcases h (.withScopes a.forest) ha with ⟨v, g, hok, hg, hv⟩ | herror
  · exact .inl ⟨v, g, hok, hg, trivial, trivial, hv⟩
  · exact .inr herror

theorem canonical_respected : canonical.Respected onlyStatements where
  refl _ := trivial
  trans _ _ := trivial
  next_same _ := trivial
  open_later _ _ := trivial
  held_later hv _ := hv
  may_later hn _ := hn
  free_later _ _ := trivial
  own_later _ _ := trivial
  open_own _ := trivial
  free_own _ _ := trivial
  may_part hn hp := .expression (hn.part hp)
  may_inner hn hp _ := hn.inner hp
  may_body := by
    intro i name params body closure n inner f g _ hv hn _
    cases hv with
    | function _ _ _ _ hs => exact .of_among hs hn
  free_varDecl _ _ := trivial
  free_funcDecl _ _ := trivial
  held_number x _ := .number x
  held_boolean b _ := .boolean b
  held_null _ := .null
  held_string := by
    intro c id f hn
    cases hn with
    | expression he =>
      cases he
      exact .string _
    | declaration hd => cases hd
  held_array := Value.canonical_array
  held_step hv h := Operator.step?_canonical hv h
  held_apply := by
    intro operator left right id i u v w f hn hlazy hu hv h
    cases hn with
    | expression he =>
      cases he with
      | @binary s _ _ hs _ _ =>
        have hstrict : ∀ s ∈ Node.binaryOperators, ¬ (s = "&&" ∨ s = "||") →
            s ∈ Operator.strict := by
          decide
        exact Operator.apply_canonical (hstrict s hs hlazy) hu hv h
    | declaration hd => cases hd
  held_get hv hi h := hv.get hi h
  held_library h := canonical_libraryCall h
  open_closure _ _ := trivial
  child := by
    intro a id ha _
    rcases canonical_keeps ha (upholds_child id) with ⟨v, g, hok, hi, -⟩ | h
    · refine .inl ⟨v, g, hok, hi, trivial, trivial, trivial, fun b discards hb _ => ?_⟩
      have hleave := holds_leave (m := .withScopes b.forest) hb discards v
      exact ⟨hleave, trivial, trivial⟩
    · exact .inr h
  define mark ha _ _ hv := canonical_keeps ha (upholds_define _ _ hv mark)
  get name ha _ := canonical_keeps ha (upholds_get _ name)
  set name ha _ hv := canonical_keeps ha (upholds_set _ name hv)
  delete _ hf _ := canonical_keeps (a := ⟨_, _⟩) hf (upholds_delete _ _)
  capture := by
    intro a id n params body ha _ hn
    refine ⟨holds_captureFrom (m := .withScopes a.forest) ha _ id, trivial, trivial, ?_⟩
    intro i name hname
    cases hn with
    | expression he => cases he
    | declaration hd => cases hd
    | function _ _ hs =>
      cases hname
      exact .function i _ _ id hs

theorem canonical_library : ∀ b ∈ Library.bindings, b.value.Canonical :=
  Library.forall_bindings .number .string .native

namespace Session

/-- The step runs nothing but a program: every source text, and the saved trees of programs. -/
def Step.IsProgram (step : Step) : Prop := ∀ tree, step.tree? = some tree → tree.WellFormed

theorem isProgram_source (text : String) : (Step.source text).IsProgram := by
  intro tree htree
  simp only [Step.tree?] at htree
  cases h : Node.ofSource text with
  | error fault => simp [h, Except.toOption] at htree
  | ok node =>
    simp only [h, Except.toOption, Option.some.injEq] at htree
    exact htree ▸ Node.wellFormed_of_ofSource h

theorem isProgram_of_sources {steps : List (Bool × String)} :
    ∀ step ∈ sources steps, step.2.IsProgram := by
  intro step hstep
  obtain ⟨⟨echo, text⟩, -, rfl⟩ := List.mem_map.mp hstep
  exact isProgram_source text

/-- In every moment of a session of programs only canonical values are held. -/
theorem canonical_programs (ambient : Ambient) (debugLevel : Nat) (inputs : List String)
    {steps : List (Bool × Step)} (hsteps : ∀ step ∈ steps, step.2.IsProgram) :
    ∀ a ∈ moments steps (.fresh ambient debugLevel inputs), canonical.Right a := by
  have hfresh : (Machine.fresh ambient debugLevel inputs).forest.Binds Value.Canonical := by
    intro id s hs b hb
    obtain ⟨-, rfl⟩ := Library.eq_root_of_scope? hs
    exact canonical_library b hb
  refine (canonical_respected.session hfresh trivial fun step hstep tree htree => ?_).2
  obtain ⟨hs⟩ := hsteps step hstep tree htree
  rintro m ns n ⟨⟩ p hp f - -
  exact hs p hp

/-- In every moment of a session with source texts only canonical values are held. -/
theorem canonical_moments (ambient : Ambient) (debugLevel : Nat) (inputs : List String)
    (steps : List (Bool × String)) :
    ∀ a ∈ moments (sources steps) (.fresh ambient debugLevel inputs), canonical.Right a :=
  canonical_programs ambient debugLevel inputs isProgram_of_sources

theorem canonical_of_holds {a : Moment} (ha : canonical.Right a) {w : Value} (h : a.Holds w) :
    w.Canonical := by
  cases h with
  | bound hs hb hw => exact (ha.inv _ _ hs _ hb).of_contains hw
  | result hv hw => exact (ha.held _ hv).of_contains hw

end Session

namespace Double

/-- Two doubles that are the same number: the same infinity, or equal in units. -/
inductive Equals : Double → Double → Prop
  | infinite (negative) : Equals (.infinite negative) (.infinite negative)
  | finite {a b m n} (h : signedUnits a m = signedUnits b n) : Equals (.finite a m) (.finite b n)

/-- The sign of a finite number, if it has one, and its units are its value. -/
theorem signedUnits_eq_iff (a b : Bool) (m n : Magnitude) :
    signedUnits a m = signedUnits b n ↔
      decide (a = true ∧ m.units ≠ 0) = decide (b = true ∧ n.units ≠ 0) ∧ m = n := by
  constructor
  · intro h
    have hunits : m.units = n.units := by
      unfold signedUnits at h
      split at h <;> split at h <;> omega
    obtain rfl := Magnitude.units_injective hunits
    refine ⟨?_, rfl⟩
    unfold signedUnits at h
    cases a <;> cases b <;> simp at h ⊢ <;> omega
  · rintro ⟨hsign, rfl⟩
    unfold signedUnits
    cases a <;> cases b <;> simp at hsign ⊢ <;> omega

/-- Doubles are read as the same number if and only if they are the same number or both are none. -/
theorem unsigned_eq_iff (x y : Double) :
    x.unsigned = y.unsigned ↔ x.Equals y ∨ x = .nan ∧ y = .nan := by
  constructor
  · intro h
    cases x with
    | nan =>
      cases y with
      | nan => exact .inr ⟨rfl, rfl⟩
      | infinite b => cases h
      | finite b n =>
        rw [unsigned_finite] at h
        cases h
    | infinite a =>
      cases y with
      | nan => cases h
      | infinite b =>
        cases h
        exact .inl (.infinite a)
      | finite b n =>
        rw [unsigned_finite] at h
        cases h
    | finite a m =>
      rw [unsigned_finite] at h
      cases y with
      | nan => cases h
      | infinite b => cases h
      | finite b n =>
        rw [unsigned_finite] at h
        exact .inl (.finite ((signedUnits_eq_iff a b m n).mpr (Double.finite.inj h)))
  · rintro (h | ⟨rfl, rfl⟩)
    · cases h with
      | infinite negative => rfl
      | @finite a b m n h =>
        obtain ⟨hsign, hm⟩ := (signedUnits_eq_iff a b m n).mp h
        rw [unsigned_finite, unsigned_finite, hsign, hm]
    · rfl

end Double

namespace Value

theorem same_number_iff {v : Value} {text : String} :
    v.same (.number text) = true ↔ v = .number text := by
  cases v <;> simp [same]

theorem same_native_iff {v : Value} {f : Native} :
    v.same (.native f) = true ↔ v = .native f := by
  cases v <;> simp [same]

theorem Canonical.read {t : String} (h : (Value.number t).Canonical) :
    ∃ x : Double, t = Numeral.format x ∧ Numeral.literal? t = some x.unsigned := by
  cases h with
  | number x => exact ⟨x, rfl, Numeral.literal?_format_eq x⟩

/-- Numbers with canonical texts have the same text if and only if they are the same number. -/
theorem Canonical.same_iff {s t : String} {x y : Double} (hs : (Value.number s).Canonical)
    (ht : (Value.number t).Canonical) (hx : Numeral.literal? s = some x)
    (hy : Numeral.literal? t = some y) :
    (Value.number s).same (.number t) = true ↔ x.Equals y ∨ x = .nan ∧ y = .nan := by
  obtain ⟨u, rfl, hu⟩ := hs.read
  obtain ⟨v, rfl, hv⟩ := ht.read
  obtain rfl := Option.some.inj (hu.symm.trans hx)
  obtain rfl := Option.some.inj (hv.symm.trans hy)
  rw [← Double.unsigned_eq_iff, Double.unsigned_unsigned, Double.unsigned_unsigned]
  simp only [same, decide_eq_true_eq]
  constructor
  · intro h
    have hread := congrArg Numeral.literal? h
    rw [hu, hv] at hread
    exact Option.some.inj hread
  · intro h
    rw [← Numeral.format_unsigned u, h, Numeral.format_unsigned]

section Same

variable {u v w : Value}

theorem Canonical.same_refl (hv : v.Canonical) : v.same v = true := by
  cases hv <;> simp [same, ofDouble, Node.same]

theorem Canonical.same_symm (hu : u.Canonical) (hv : v.Canonical) (h : u.same v = true) :
    v.same u = true := by
  cases hu <;> cases hv <;> simp_all [same, ofDouble, Node.same]

theorem Canonical.same_trans (hu : u.Canonical) (hv : v.Canonical) (hw : w.Canonical)
    (h : u.same v = true) (h' : v.same w = true) : u.same w = true := by
  cases hu <;> cases hv <;> simp [same, ofDouble, Node.same] at h <;> cases hw <;>
    simp_all [same, ofDouble, Node.same]

end Same

end Value

/-- Values are their texts: numbers are written as their doubles are, truth values as `true` and
`false`, and `==` tells the same numbers and is an equivalence relation on all values that are
held. -/
structure Moment.Canonical (a : Moment) : Prop where
  number : ∀ t, a.Holds (.number t) → ∃ x, Numeral.literal? t = some x ∧ Numeral.format x = t
  boolean : ∀ b, a.Holds (.boolean b) →
    (Value.boolean b).content = .ok (.text "true") ∨ (Value.boolean b).content = .ok (.text "false")
  equal_iff : ∀ i s t x y, a.Holds (.number s) → a.Holds (.number t) →
    Numeral.literal? s = some x → Numeral.literal? t = some y →
    (Operator.apply i "==" (.number s) (.number t) = .ok (.boolean true) ↔
      x.Equals y ∨ x = .nan ∧ y = .nan)
  equivalence : ∀ i, Equivalence fun u v : { v : Value // a.Holds v } =>
    Operator.apply i "==" u.1 v.1 = .ok (.boolean true)

theorem apply_equal_iff (i : Identity) (u v : Value) :
    Operator.apply i "==" u v = .ok (.boolean true) ↔ u.same v = true := by
  simp [Operator.apply]

namespace Session

/-- Numbers are canonical while sessions of source texts run, so equal texts are equal numbers. -/
theorem numbers_are_canonical (ambient : Ambient) (debugLevel : Nat) (inputs : List String)
    (steps : List (Bool × String)) :
    ∀ a ∈ moments (sources steps) (.fresh ambient debugLevel inputs), a.Canonical := by
  intro a ha
  have hheld {v : Value} (hv : a.Holds v) : v.Canonical :=
    canonical_of_holds (canonical_moments ambient debugLevel inputs steps a ha) hv
  refine ⟨fun t ht => ?_, fun b _ => ?_, fun i s t x y hs ht hx hy => ?_, fun i => ⟨?_, ?_, ?_⟩⟩
  · obtain ⟨x, rfl, hx⟩ := (hheld ht).read
    exact ⟨x.unsigned, hx, Numeral.format_unsigned x⟩
  · cases b
    · exact .inr rfl
    · exact .inl rfl
  · rw [apply_equal_iff]
    exact (hheld hs).same_iff (hheld ht) hx hy
  · intro v
    rw [apply_equal_iff]
    exact (hheld v.2).same_refl
  · intro u v h
    rw [apply_equal_iff] at h ⊢
    exact (hheld u.2).same_symm (hheld v.2) h
  · intro u v w h h'
    rw [apply_equal_iff] at h h' ⊢
    exact (hheld u.2).same_trans (hheld v.2) (hheld w.2) h h'

/-- The number that a closure has counted up to. -/
theorem numbers_are_canonical_closure :
    ∃ a ∈ moments (sources closureSteps) (.fresh (.seeded 0 0) 0 []),
      a.forest = closureMachine.forest ∧ a.Holds (.number "2.1") ∧ a.Canonical := by
  obtain ⟨a, ha, hforest⟩ := exists_moment_after (sources closureSteps) (.fresh (.seeded 0 0) 0 [])
  have hfound : ((closureMachine.forest.at? 1 (.word "n")).any fun b =>
      b.value.same (.number "2.1")) = true := by decide +kernel
  obtain ⟨b, hb, hsame⟩ := (Option.any_eq_true _ _).mp hfound
  obtain ⟨s, hs, hfind⟩ := Option.bind_eq_some_iff.mp hb
  rw [← Value.same_number_iff.mp hsame]
  have hscope : a.forest.scope? 1 = some s := hforest ▸ hs
  refine ⟨a, ha, hforest, .bound hscope (List.mem_of_find?_eq_some hfind) (.self _), ?_⟩
  exact numbers_are_canonical (.seeded 0 0) 0 [] closureSteps a ha

end Session

end Script
