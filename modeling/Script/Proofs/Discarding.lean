import Script.Proofs.Coupling

/-!
# Discarding scopes

Whether the scopes that are left are discarded makes no difference to anything that can be seen. A
scope is discarded only if no function was declared in it or inside it, so no function value leads
back to it, and the bindings that get lost are never looked up again.
-/
namespace Script

open Forest

/-- A value whose functions all close over captured scopes. -/
inductive Value.Kept (f : Forest) : Value → Prop
  | number (text) : Kept f (.number text)
  | string (c) : Kept f (.string c)
  | boolean (b) : Kept f (.boolean b)
  | null : Kept f .null
  | array (i) {items} (h : ∀ v ∈ items, Kept f v) : Kept f (.array i items)
  | function (i name params body) {closure} (h : f.IsCaptured closure) :
      Kept f (.function i name params body closure)
  | native (n) : Kept f (.native n)

theorem Value.Kept.mono {f g : Forest} (hfg : ∀ id, f.IsCaptured id → g.IsCaptured id) {v : Value}
    (h : v.Kept f) : v.Kept g := by
  induction h with
  | array i _ ih => exact .array i ih
  | function i name params body h => exact .function i name params body (hfg _ h)
  | number text => exact .number text
  | string c => exact .string c
  | boolean b => exact .boolean b
  | null => exact .null
  | native n => exact .native n

theorem Value.Simple.kept {f : Forest} {v : Value} (h : v.Simple) : v.Kept f := by
  cases h with
  | number x => exact .number _
  | string c => exact .string c
  | boolean b => exact .boolean b
  | null => exact .null
  | strings i cs =>
    refine .array i fun v hv => ?_
    obtain ⟨c, -, rfl⟩ := List.mem_map.mp hv
    exact .string c

/-- Two forests of which the first has lost bindings of scopes that are not captured. -/
structure Paired (p : Forests) : Prop where
  sound : p.1.Sound
  size : p.1.scopes.size = p.2.scopes.size
  alike : ∀ {id s}, p.1.scope? id = some s → ∃ t, p.2.scope? id = some t ∧
    t.parent? = s.parent? ∧ t.captured = s.captured ∧ (s.captured = true → t = s)
  kept : ∀ {id s}, p.1.scope? id = some s → ∀ b ∈ s.bindings, b.value.Kept p.1

/-- Scopes stay where they are and stay captured, and what has not been lost is not lost later. -/
structure Grown (p q : Forests) : Prop where
  old : ∀ {id s}, p.1.scope? id = some s → ∃ t, q.1.scope? id = some t ∧
    t.parent? = s.parent? ∧ (s.captured = true → t.captured = true)
  same : ∀ {id s}, p.1.scope? id = some s → p.1.scope? id = p.2.scope? id →
    q.1.scope? id = q.2.scope? id

/-- A scope from which nothing is lost, seen outwards. -/
def Whole (id : ScopeId) (p : Forests) : Prop :=
  ∀ a, Above p.1 id a → ∃ s, p.1.scope? a = some s ∧ p.2.scope? a = some s

/-- The first run discards the scopes that it leaves and the second one does not. -/
def discarding : Coupling where
  first := true
  second := false
  Inv := Paired
  Later := Grown
  Open := Whole
  Held v p := v.Kept p.1

namespace Grown

variable {p q r : Forests}

theorem refl (p : Forests) : Grown p p := ⟨fun h => ⟨_, h, rfl, fun hc => hc⟩, fun _ h => h⟩

theorem trans (hpq : Grown p q) (hqr : Grown q r) : Grown p r := by
  refine ⟨fun hs => ?_, fun hs he => ?_⟩
  · obtain ⟨t, ht, htp, htc⟩ := hpq.old hs
    obtain ⟨u, hu, hup, huc⟩ := hqr.old ht
    exact ⟨u, hu, hup.trans htp, fun hc => huc (htc hc)⟩
  · obtain ⟨t, ht, -⟩ := hpq.old hs
    exact hqr.same ht (hpq.same hs he)

theorem isCaptured (hpq : Grown p q) (id : ScopeId) (h : p.1.IsCaptured id) :
    q.1.IsCaptured id := by
  obtain ⟨s, hs, hsc⟩ := h
  obtain ⟨t, ht, -, htc⟩ := hpq.old hs
  exact ⟨t, ht, htc hsc⟩

theorem kept (hpq : Grown p q) {v : Value} (h : v.Kept p.1) : v.Kept q.1 := h.mono hpq.isCaptured

/-- New scopes do not get between a scope and those around it. -/
theorem above (hpq : Grown p q) {id a : ScopeId} (hid : Whole id p) (h : Above q.1 id a) :
    Above p.1 id a := by
  induction h with
  | refl => exact .refl _
  | step hs hp _ ih =>
    obtain ⟨t, ht, -⟩ := hid _ (.refl _)
    obtain ⟨u, hu, hup, -⟩ := hpq.old ht
    obtain rfl := Option.some.inj (hs.symm.trans hu)
    have htp := hup.symm.trans hp
    exact .step ht htp (ih fun b hb => hid b (.step ht htp hb))

theorem whole (hpq : Grown p q) {id : ScopeId} (hid : Whole id p) : Whole id q := by
  intro a ha
  obtain ⟨s, hs, hs'⟩ := hid a (hpq.above hid ha)
  obtain ⟨t, ht, -⟩ := hpq.old hs
  exact ⟨t, ht, (hpq.same hs (hs.trans hs'.symm)).symm.trans ht⟩

end Grown

namespace Paired

variable {p : Forests}

theorem alike_second (hp : Paired p) {id : ScopeId} {t : Scope} (ht : p.2.scope? id = some t) :
    ∃ s, p.1.scope? id = some s ∧ t.parent? = s.parent? ∧ t.captured = s.captured := by
  obtain ⟨s, hs⟩ := exists_scope?_of_lt (f := p.1) (hp.size ▸ lt_size_of_scope? ht)
  obtain ⟨u, hu, hup, huc, -⟩ := hp.alike hs
  obtain rfl := Option.some.inj (ht.symm.trans hu)
  exact ⟨s, hs, hup, huc⟩

theorem sound_second (hp : Paired p) : p.2.Sound := by
  refine ⟨fun ht hq => ?_, fun ht htc hq => ?_⟩
  · obtain ⟨s, hs, hsp, -⟩ := hp.alike_second ht
    exact hp.sound.parent_lt hs (hsp ▸ hq)
  · obtain ⟨s, hs, hsp, hsc⟩ := hp.alike_second ht
    obtain ⟨u, hu, huc⟩ := hp.sound.captured_parent hs (hsc ▸ htc) (hsp ▸ hq)
    obtain ⟨w, hw, -, hwc, -⟩ := hp.alike hu
    exact ⟨w, hw, hwc.trans huc⟩

theorem above_iff (hp : Paired p) (id a : ScopeId) : Above p.2 id a ↔ Above p.1 id a := by
  constructor
  · refine Above.congr fun i t ht => ?_
    obtain ⟨s, hs, hsp, -⟩ := hp.alike_second ht
    exact ⟨s, hs, hsp.symm⟩
  · refine Above.congr fun i s hs => ?_
    obtain ⟨t, ht, htp, -⟩ := hp.alike hs
    exact ⟨t, ht, htp⟩

/-- Captured scopes have lost nothing. -/
theorem whole_of_isCaptured (hp : Paired p) {id : ScopeId} (h : p.1.IsCaptured id) :
    Whole id p := by
  intro a ha
  obtain ⟨s, hs, hsc⟩ := hp.sound.isCaptured_above ha h
  obtain ⟨t, ht, -, -, hts⟩ := hp.alike hs
  exact ⟨s, hs, hts hsc ▸ ht⟩

/-- The same change of the bindings of a scope that has lost nothing. -/
theorem change (hp : Paired p) {id : ScopeId} {s : Scope} {g : Scope → Scope}
    (hs : p.1.scope? id = some s) (hs' : p.2.scope? id = some s)
    (hc : ∀ s, (g s).parent? = s.parent? ∧ (g s).captured = s.captured)
    (hk : ∀ b ∈ (g s).bindings, b.value.Kept p.1) :
    Paired (p.1.modifyAt id g, p.2.modifyAt id g) ∧
      Grown p (p.1.modifyAt id g, p.2.modifyAt id g) := by
  have hgrown : Grown p (p.1.modifyAt id g, p.2.modifyAt id g) := by
    refine ⟨fun {a u} hu => ?_, fun {a u} hu he => ?_⟩
    · by_cases ha : a = id
      · subst ha
        exact ⟨g u, scope?_modifyAt_of_eq_some hu g, (hc u).1, fun h => (hc u).2 ▸ h⟩
      · exact ⟨u, (scope?_modifyAt_of_ne _ ha _).trans hu, rfl, fun h => h⟩
    · simp only [scope?_modifyAt, he]
  refine ⟨⟨hp.sound.modifyAt id hc, by simpa using hp.size, ?_, ?_⟩, hgrown⟩
  · intro a u hu
    rcases scope?_modifyAt_eq_some hu with ⟨rfl, t, ht, rfl⟩ | ⟨ha, hu⟩
    · obtain rfl := Option.some.inj (hs.symm.trans ht)
      exact ⟨g s, scope?_modifyAt_of_eq_some hs' g, rfl, rfl, fun _ => rfl⟩
    · rw [scope?_modifyAt_of_ne _ ha]
      exact hp.alike hu
  · intro a u hu b hb
    rcases scope?_modifyAt_eq_some hu with ⟨rfl, t, ht, rfl⟩ | ⟨-, hu⟩
    · obtain rfl := Option.some.inj (hs.symm.trans ht)
      exact hgrown.kept (hk b hb)
    · exact hgrown.kept (hp.kept hu b hb)

theorem lookup?_eq {id : ScopeId} (ho : Whole id p) (name : Name) :
    p.2.lookup? id name = p.1.lookup? id name := by
  refine (findFrom_congr name (id + 1) fun a ha => ?_).symm
  obtain ⟨s, hs, hs'⟩ := ho a ha
  exact hs.trans hs'.symm

/-- Both forests look a name up in the same way. Its owner has lost nothing, and the value is
kept. -/
theorem lookup?_cases (hp : Paired p) {id : ScopeId} (ho : Whole id p) (name : Name) :
    (p.1.lookup? id name = none ∧ p.2.lookup? id name = none) ∨
      ∃ owner b s, p.1.lookup? id name = some (owner, b) ∧ p.2.lookup? id name = some (owner, b) ∧
        b.value.Kept p.1 ∧ p.1.scope? owner = some s ∧ p.2.scope? owner = some s := by
  have he := lookup?_eq ho name
  cases hl : p.1.lookup? id name with
  | none => exact .inl ⟨rfl, he.trans hl⟩
  | some found =>
    obtain ⟨owner, b⟩ := found
    obtain ⟨ha, t, ht, hb⟩ := findFrom_eq_some hl
    obtain ⟨s, hs, hs'⟩ := ho owner ha
    have hkept := hp.kept ht b (List.mem_of_find?_eq_some hb)
    exact .inr ⟨owner, b, s, rfl, he.trans hl, hkept, hs, hs'⟩

theorem kept_rebind (hp : Paired p) {owner : ScopeId} {s : Scope} (hs : p.1.scope? owner = some s)
    {v : Value} (hv : v.Kept p.1) (name : Name) :
    ∀ b ∈ (s.rebind name v).bindings, b.value.Kept p.1 := by
  intro b hb
  obtain ⟨c, hc, rfl⟩ := List.mem_map.mp hb
  split
  · exact hv
  · exact hp.kept hs c hc

theorem child (hp : Paired p) {id : ScopeId} (ho : Whole id p) :
    Paired (⟨p.1.scopes.push (.inside (some id))⟩, ⟨p.2.scopes.push (.inside (some id))⟩) ∧
      Grown p (⟨p.1.scopes.push (.inside (some id))⟩, ⟨p.2.scopes.push (.inside (some id))⟩) := by
  have hgrown :
      Grown p (⟨p.1.scopes.push (.inside (some id))⟩, ⟨p.2.scopes.push (.inside (some id))⟩) := by
    refine ⟨fun {a s} hs => ?_, fun {a s} hs he => ?_⟩
    · exact ⟨s, (scope?_push_of_lt _ _ (lt_size_of_scope? hs)).trans hs, rfl, fun h => h⟩
    · have ha := lt_size_of_scope? hs
      rw [scope?_push_of_lt _ _ ha, scope?_push_of_lt _ _ (hp.size ▸ ha), he]
  obtain ⟨s, hs, -⟩ := ho id (.refl id)
  refine ⟨⟨hp.sound.push (lt_size_of_scope? hs), by simpa using hp.size, ?_, ?_⟩, hgrown⟩
  · intro a u hu
    rcases scope?_push_eq_some hu with ⟨rfl, rfl⟩ | ⟨ha, hu⟩
    · refine ⟨_, ?_, rfl, rfl, fun _ => rfl⟩
      simp only [hp.size]
      exact scope?_push_self p.2 _
    · rw [scope?_push_of_lt _ _ (hp.size ▸ ha)]
      exact hp.alike hu
  · intro a u hu b hb
    rcases scope?_push_eq_some hu with ⟨rfl, rfl⟩ | ⟨ha, hu⟩
    · cases hb
    · exact hgrown.kept (hp.kept hu b hb)

theorem capture (hp : Paired p) {id : ScopeId} (ho : Whole id p) :
    Paired (Coupling.captured p id) ∧ Grown p (Coupling.captured p id) := by
  have hgrown : Grown p (Coupling.captured p id) := by
    refine ⟨fun {a s} hs => ?_, fun {a s} hs he => ?_⟩
    · have ht := hp.sound.scope?_capture id a
      rw [hs] at ht
      refine ⟨_, ht, ?_, ?_⟩ <;> split <;> simp [Scope.capture]
    · simp only [Coupling.captured, hp.sound.scope?_capture, hp.sound_second.scope?_capture, he]
      by_cases ha : Above p.1 id a
      · simp only [ha, (hp.above_iff id a).mpr ha, if_true]
      · simp only [ha, mt (hp.above_iff id a).mp ha, if_false]
  refine ⟨⟨hp.sound.capture id, ?_, ?_, ?_⟩, hgrown⟩
  · simpa [Coupling.captured, Forest.capture, scopes_size_captureFrom] using hp.size
  · intro a u hu
    rw [Coupling.captured, hp.sound.scope?_capture] at hu
    obtain ⟨s, hs, rfl⟩ := Option.map_eq_some_iff.mp hu
    obtain ⟨t, ht, htp, htc, hts⟩ := hp.alike hs
    rw [Coupling.captured, hp.sound_second.scope?_capture, ht, hp.above_iff]
    refine ⟨_, rfl, ?_⟩
    by_cases ha : Above p.1 id a
    · -- A scope that becomes captured has lost nothing.
      obtain ⟨w, hw, hw'⟩ := ho a ha
      obtain rfl : w = s := Option.some.inj (hw.symm.trans hs)
      obtain rfl : w = t := Option.some.inj (hw'.symm.trans ht)
      simp [ha]
    · simp only [ha, if_false]
      exact ⟨htp, htc, hts⟩
  · intro a u hu b hb
    obtain ⟨s, hs, -, hsb, -⟩ := hp.sound.capture_eq_some hu
    exact hgrown.kept (hp.kept hs b (hsb ▸ hb))

/-- Leaving a scope that is newer than the forests `p`. -/
theorem left {q : Forests} (hq : Paired q) {id : ScopeId} {s : Scope}
    (hs : q.1.scope? id = some s) (hnew : p.1.scope? id = none) (hpq : Grown p q) :
    Paired (discarding.left q id) ∧ Grown p (discarding.left q id) := by
  have hleft : discarding.left q id = (q.1.release id, q.2) := rfl
  rw [hleft, release, hs]
  by_cases hc : s.captured = true
  · simp only [hc, if_true]
    exact ⟨hq, hpq⟩
  · simp only [hc, Bool.false_eq_true, if_false, destroy]
    have hcap : ∀ a, q.1.IsCaptured a → (q.1.modifyAt id Scope.clear).IsCaptured a := by
      rintro a ⟨t, ht, htc⟩
      have ha : a ≠ id := by
        rintro rfl
        exact hc (Option.some.inj (ht.symm.trans hs) ▸ htc)
      exact ⟨t, (scope?_modifyAt_of_ne _ ha _).trans ht, htc⟩
    have hne {a t} (ht : p.1.scope? a = some t) : a ≠ id := by
      rintro rfl
      simp [hnew] at ht
    refine ⟨⟨hq.sound.modifyAt id fun _ => ⟨rfl, rfl⟩, by simpa using hq.size, ?_, ?_⟩, ?_, ?_⟩
    · intro a u hu
      rcases scope?_modifyAt_eq_some hu with ⟨rfl, t, ht, rfl⟩ | ⟨-, hu⟩
      · obtain rfl := Option.some.inj (hs.symm.trans ht)
        obtain ⟨t, ht, htp, htc, -⟩ := hq.alike hs
        exact ⟨t, ht, htp, htc, fun h => absurd h hc⟩
      · exact hq.alike hu
    · intro a u hu b hb
      rcases scope?_modifyAt_eq_some hu with ⟨rfl, t, ht, rfl⟩ | ⟨-, hu⟩
      · cases hb
      · exact (hq.kept hu b hb).mono hcap
    · intro a t ht
      rw [scope?_modifyAt_of_ne _ (hne ht)]
      exact hpq.old ht
    · intro a t ht he
      rw [scope?_modifyAt_of_ne _ (hne ht)]
      exact hpq.same ht he

end Paired

/-- Discarding keeps to the coupling: no change of a scope depends on what is lost. -/
theorem discarding_stable : discarding.Stable where
  refl := Grown.refl
  trans := Grown.trans
  open_later ho hpq := hpq.whole ho
  held_later hv hpq := hpq.kept hv
  held_simple := Value.Simple.kept
  held_array := by
    intro i vs p
    constructor
    · intro h
      cases h with
      | array _ h => exact h
    · exact .array i
  open_closure := by
    intro i name params body closure p hp h
    cases h with
    | function _ _ _ _ h => exact hp.whole_of_isCaptured h
  child := by
    intro id p hp ho
    obtain ⟨hpq, hgrown⟩ := hp.child ho
    have hnew := scope?_push_self p.1 (.inside (some id))
    refine .inl ⟨p.1.scopes.size, _, rfl, ?_, hpq, hgrown, ?_, ?_⟩
    · rw [hp.size]
      rfl
    · intro a ha
      rcases (above_iff hnew).mp ha with rfl | ⟨r, hr, ha⟩
      · refine ⟨_, hnew, ?_⟩
        rw [hp.size]
        exact scope?_push_self p.2 _
      · obtain rfl : id = r := Option.some.inj hr
        exact hgrown.whole ho a ha
    · intro r hr hqr
      obtain ⟨s, hs, -⟩ := hqr.old hnew
      have hold : p.1.scope? p.1.scopes.size = none := by simp [scope?]
      exact hr.left hs hold (hgrown.trans hqr)
  define := by
    intro id v p name mark hp ho hv
    obtain ⟨s, hs, hs'⟩ := ho id (.refl id)
    cases hf : s.find? name with
    | some b =>
      refine .inr ⟨.redefined name.shown, ?_, ?_⟩
      · simp [Forest.define, hs, hf]
      · simp [Forest.define, hs', hf]
    | none =>
      obtain ⟨hi, hl⟩ := hp.change (g := (·.bind ⟨name, v, mark⟩)) hs hs'
        (fun _ => ⟨rfl, rfl⟩) (List.forall_mem_cons.mpr ⟨hv, hp.kept hs⟩)
      refine .inl ⟨v, _, ?_, ?_, hi, hl, hl.kept hv⟩
      · simp [Forest.define, hs, hf]
      · simp [Forest.define, hs', hf]
  get := by
    intro id p name hp ho
    obtain ⟨h₁, h₂⟩ | ⟨owner, b, s, h₁, h₂, hb, -, -⟩ := hp.lookup?_cases ho name
    · exact .inr ⟨.undefined name.shown, by simp [Forest.get, h₁], by simp [Forest.get, h₂]⟩
    · exact .inl ⟨b.value, p, by simp [Forest.get, h₁], by simp [Forest.get, h₂], hp, .refl p, hb⟩
  set := by
    intro id v p name hp ho hv
    obtain ⟨h₁, h₂⟩ | ⟨owner, b, s, h₁, h₂, -, hs, hs'⟩ := hp.lookup?_cases ho name
    · exact .inr ⟨.undefined name.shown, by simp [Forest.set, h₁], by simp [Forest.set, h₂]⟩
    · by_cases hm : b.mark = .variable
      · obtain ⟨hi, hg⟩ := hp.change (g := (·.rebind name v)) hs hs' (fun _ => ⟨rfl, rfl⟩)
          (hp.kept_rebind hs hv name)
        refine .inl ⟨v, _, ?_, ?_, hi, hg, hg.kept hv⟩
        · simp [Forest.set, h₁, hm]
        · simp [Forest.set, h₂, hm]
      · refine .inr ⟨.reassigned name.shown, ?_, ?_⟩
        · simp [Forest.set, h₁, hm]
        · simp [Forest.set, h₂, hm]
  delete := by
    intro id p name hp ho
    obtain ⟨h₁, h₂⟩ | ⟨owner, b, s, h₁, h₂, hb, hs, hs'⟩ := hp.lookup?_cases ho name
    · exact .inr ⟨.undefined name.shown, by simp [Forest.delete, h₁], by simp [Forest.delete, h₂]⟩
    · cases hm : b.mark with
      | function =>
        refine .inr ⟨.functionDeleted name.shown, ?_, ?_⟩
        · simp [Forest.delete, h₁, hm]
        · simp [Forest.delete, h₂, hm]
      | constant =>
        refine .inr ⟨.constantDeleted name.shown, ?_, ?_⟩
        · simp [Forest.delete, h₁, hm]
        · simp [Forest.delete, h₂, hm]
      | «variable» =>
        obtain ⟨hi, hg⟩ := hp.change (g := (·.unbind name)) hs hs' (fun _ => ⟨rfl, rfl⟩)
          fun c hc => hp.kept hs c (List.mem_of_mem_filter hc)
        refine .inl ⟨b.value, _, ?_, ?_, hi, hg, hg.kept hb⟩
        · simp [Forest.delete, h₁, hm]
        · simp [Forest.delete, h₂, hm]
  capture := by
    intro id p hp ho
    obtain ⟨hi, hl⟩ := hp.capture ho
    obtain ⟨s, hs, -⟩ := ho id (.refl id)
    refine ⟨hi, hl, fun i name params body => .function i name params body ?_⟩
    exact hp.sound.isCaptured_capture.mpr (.inr ⟨.refl id, s, hs⟩)

/-- The scopes of a machine before anything has run. -/
theorem paired_fresh : Paired (⟨#[Library.root]⟩, ⟨#[Library.root]⟩) := by
  refine ⟨⟨?_, ?_⟩, rfl, ?_, ?_⟩
  · intro id s q hs hq
    rw [(Library.eq_root_of_scope? hs).2] at hq
    cases hq
  · intro id s q hs _ hq
    rw [(Library.eq_root_of_scope? hs).2] at hq
    cases hq
  · intro id s hs
    exact ⟨s, hs, rfl, rfl, fun _ => rfl⟩
  · intro id s hs b hb
    obtain ⟨-, rfl⟩ := Library.eq_root_of_scope? hs
    exact Library.forall_bindings (fun _ => .number _) (fun _ => .string _) .native b hb

theorem whole_fresh : Whole Forest.root (⟨#[Library.root]⟩, ⟨#[Library.root]⟩) := by
  intro a ha
  have hroot : (Forest.mk #[Library.root]).scope? Forest.root = some Library.root := rfl
  rcases (above_iff hroot).mp ha with rfl | ⟨p, hp, -⟩
  · exact ⟨_, hroot, hroot⟩
  · cases hp

namespace Session

/-- What can be seen after a step: what it gave, everything that happened outside the programs so
far, debug messages included, and the bindings of the root scope. -/
structure Seen where
  result : Except StepFault (List Value)
  events : List Event
  bindings : Option (List Binding)

def seen (o : Outcome) : Seen where
  result := o.1
  events := o.2.events.toList
  bindings := (o.2.forest.scope? Forest.root).map (·.bindings)

/-- Whether scopes are discarded when they are left cannot be seen, in no session, after no step,
whether it ended in a fault or not. -/
theorem seen_of_not_discarding (ambient : Ambient) (debugLevel : Nat) (inputs : List String)
    (steps : List (Bool × Step)) :
    (outcomes steps { Machine.fresh ambient debugLevel inputs with discards := false }).map seen =
      (outcomes steps (Machine.fresh ambient debugLevel inputs)).map seen := by
  have hseen {o o' : Outcome} (h : discarding.Matched o o') : seen o = seen o' := by
    obtain ⟨m, q, h₁, h₂, -, hq⟩ := h.machine
    obtain ⟨s, hs, hs'⟩ := hq _ (.refl _)
    simp [seen, h.result, h₁, h₂, Machine.on, hs, hs']
  have h := discarding_stable.matched_outcomes steps paired_fresh whole_fresh
    (Machine.fresh ambient debugLevel inputs)
  have hmap : List.Forall₂ (· = ·) ((outcomes steps _).map seen) ((outcomes steps _).map seen) :=
    List.forall₂_map_left_iff.mpr (List.forall₂_map_right_iff.mpr (h.imp fun _ _ => hseen))
  exact (List.forall₂_eq_eq_eq ▸ hmap).symm

end Session
end Script
