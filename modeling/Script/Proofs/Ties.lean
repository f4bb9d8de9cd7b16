import Script.Proofs.Likeness

/-!
# Forests that are alike

Two forests whose scopes stand for each other: they bind the same names in the same order, with the
same marks and values that are alike, and lie in scopes that stand for each other, blank scopes of
the second forest aside. Every operation on scopes does the same in both, and nothing that looks a
name up sees a blank scope.
-/
namespace Script

open Forest

section

variable (B : Node → Node → Prop) (W : Matching)

structure Binding.Like (b b' : Binding) : Prop where
  name : b.name = b'.name
  mark : b.mark = b'.mark
  value : b.value.Like B W b'.value

structure Scope.Like (s s' : Scope) : Prop where
  parent : (s.parent? = none ∧ s'.parent? = none) ∨
    ∃ p p', s.parent? = some p ∧ s'.parent? = some p' ∧ W.Sees p p'
  bindings : List.Forall₂ (Binding.Like B W) s.bindings s'.bindings
  captured : s.captured = s'.captured

/-- An empty scope inside another. -/
structure Scope.Blank (p : ScopeId) (s : Scope) : Prop where
  parent : s.parent? = some p
  bindings : s.bindings = []

/-- Two forests in which scopes stand for each other as the matching says. -/
structure Tie (f f' : Forest) : Prop where
  first : f.Sound
  second : f'.Sound
  unique : ∀ {a b c}, W.pair a b → W.pair a c → b = c
  unique' : ∀ {a b c}, W.pair a c → W.pair b c → a = b
  like : ∀ {a b}, W.pair a b →
    ∃ s s', f.scope? a = some s ∧ f'.scope? b = some s' ∧ s.Like B W s'
  blank : ∀ {b p}, W.blank b p → ∃ s, f'.scope? b = some s ∧ s.Blank p
  unpaired : ∀ {a b p}, W.blank b p → ¬ W.pair a b

/-- An operation on scopes that does the same in both forests. -/
inductive Acts {α : Type} (P : Matching → α → α → Prop) :
    EStateM.Result BindingFault Forest α → EStateM.Result BindingFault Forest α → Prop
  | ok {V a a' f f'} (hV : W ≤ V) (ht : Tie B V f f') (ha : P V a a') : Acts P (.ok a f) (.ok a' f')
  | error {f f'} (fault) (ht : Tie B W f f') : Acts P (.error fault f) (.error fault f')

end

variable {B : Node → Node → Prop} {W V : Matching}

theorem Binding.Like.mono (h : W ≤ V) {b b' : Binding} (hb : b.Like B W b') : b.Like B V b' :=
  ⟨hb.name, hb.mark, hb.value.mono h⟩

namespace Scope

variable {s s' : Scope} {v v' : Value}

theorem Like.mono (h : W ≤ V) (hs : s.Like B W s') : s.Like B V s' where
  parent := hs.parent.imp_right fun ⟨p, p', hp, hp', hsees⟩ => ⟨p, p', hp, hp', hsees.mono h⟩
  bindings := hs.bindings.imp fun _ _ => .mono h
  captured := hs.captured

theorem find?_cases_of_like {bs bs' : List Binding} (h : List.Forall₂ (Binding.Like B W) bs bs')
    (name : Name) :
    (bs.find? (·.name.same name) = none ∧ bs'.find? (·.name.same name) = none) ∨
      ∃ b b', bs.find? (·.name.same name) = some b ∧ bs'.find? (·.name.same name) = some b' ∧
        b.Like B W b' := by
  induction h with
  | nil => exact .inl ⟨rfl, rfl⟩
  | cons hb _ ih =>
    rw [List.find?_cons, List.find?_cons, hb.name]
    split
    · exact .inr ⟨_, _, rfl, rfl, hb⟩
    · exact ih

/-- Alike scopes bind a name alike. -/
theorem Like.find?_cases (hs : s.Like B W s') (name : Name) :
    (s.find? name = none ∧ s'.find? name = none) ∨
      ∃ b b', s.find? name = some b ∧ s'.find? name = some b' ∧ b.Like B W b' :=
  find?_cases_of_like hs.bindings name

theorem Like.bind (hs : s.Like B W s') (name : Name) (hv : v.Like B W v') (mark : Mark) :
    (s.bind ⟨name, v, mark⟩).Like B W (s'.bind ⟨name, v', mark⟩) :=
  ⟨hs.parent, .cons ⟨rfl, rfl, hv⟩ hs.bindings, hs.captured⟩

theorem Like.rebind (hs : s.Like B W s') (name : Name) (hv : v.Like B W v') :
    (s.rebind name v).Like B W (s'.rebind name v') := by
  refine ⟨hs.parent, ?_, hs.captured⟩
  refine List.forall₂_map_left_iff.mpr (List.forall₂_map_right_iff.mpr ?_)
  refine hs.bindings.imp fun b b' hb => ?_
  rw [hb.name]
  split
  · exact ⟨rfl, hb.mark, hv⟩
  · exact hb

theorem Like.unbind (hs : s.Like B W s') (name : Name) :
    (s.unbind name).Like B W (s'.unbind name) := by
  have h := hs.bindings
  refine ⟨hs.parent, ?_, hs.captured⟩
  simp only [Scope.unbind]
  generalize s.bindings = bs, s'.bindings = bs' at h
  induction h with
  | nil => exact .nil
  | cons hb _ ih =>
    rw [List.filter_cons, List.filter_cons, hb.name]
    split
    · exact .cons hb ih
    · exact ih

theorem Like.clear (hs : s.Like B W s') : s.clear.Like B W s'.clear :=
  ⟨hs.parent, .nil, hs.captured⟩

theorem Like.capture (hs : s.Like B W s') : s.capture.Like B W s'.capture :=
  ⟨hs.parent, hs.bindings, rfl⟩

end Scope

namespace Tie

variable {f f' : Forest} {a b c p : ScopeId} {s s' : Scope}

theorem lt_size (ht : Tie B W f f') (hab : W.pair a b) :
    a < f.scopes.size ∧ b < f'.scopes.size := by
  obtain ⟨s, s', hs, hs', -⟩ := ht.like hab
  exact ⟨lt_size_of_scope? hs, lt_size_of_scope? hs'⟩

theorem sees_lt_size (ht : Tie B W f f') (hab : W.Sees a b) :
    a < f.scopes.size ∧ b < f'.scopes.size := by
  induction hab with
  | pair hab => exact ht.lt_size hab
  | blank hb _ ih =>
    obtain ⟨s, hs, -⟩ := ht.blank hb
    exact ⟨ih.1, lt_size_of_scope? hs⟩

/-- What lies around a scope stands for something around the other, if it stands for anything. -/
theorem above_of_above (ht : Tie B W f f') {x y : ScopeId} (h : Above f a x) (hab : W.Sees a b)
    (hxy : W.pair x y) : Above f' b y := by
  induction h generalizing b with
  | refl =>
    induction hab with
    | pair hab => exact ht.unique hab hxy ▸ .refl _
    | blank hb _ ih =>
      obtain ⟨s, hs, hblank⟩ := ht.blank hb
      exact .step hs hblank.parent ih
  | step hs hp _ ih =>
    induction hab with
    | pair hab =>
      obtain ⟨t, t', ht, ht', hlike⟩ := ht.like hab
      obtain rfl := Option.some.inj (hs.symm.trans ht)
      rcases hlike.parent with ⟨hno, -⟩ | ⟨q, q', hq, hq', hsees⟩
      · cases hno.symm.trans hp
      · obtain rfl := Option.some.inj (hq.symm.trans hp)
        exact .step ht' hq' (ih hsees hxy)
    | blank hb _ ih' =>
      obtain ⟨t, ht, hblank⟩ := ht.blank hb
      exact .step ht hblank.parent ih'

theorem above_of_above' (ht : Tie B W f f') {x y : ScopeId} (h : Above f' b y) (hab : W.Sees a b)
    (hxy : W.pair x y) : Above f a x := by
  induction h generalizing a with
  | refl =>
    cases hab with
    | pair hab => exact ht.unique' hab hxy ▸ .refl _
    | blank hb _ => exact absurd hxy (ht.unpaired hb)
  | step hs' hp' _ ih =>
    cases hab with
    | pair hab =>
      obtain ⟨t, t', ht, ht', hlike⟩ := ht.like hab
      obtain rfl := Option.some.inj (hs'.symm.trans ht')
      rcases hlike.parent with ⟨-, hno⟩ | ⟨q, q', hq, hq', hsees⟩
      · cases hno.symm.trans hp'
      · obtain rfl := Option.some.inj (hq'.symm.trans hp')
        exact .step ht hq (ih hsees hxy)
    | blank hb hsees =>
      obtain ⟨t, ht, hblank⟩ := ht.blank hb
      obtain rfl := Option.some.inj (hs'.symm.trans ht)
      obtain rfl := Option.some.inj (hp'.symm.trans hblank.parent)
      exact ih hsees hxy

theorem findFrom_cases (ht : Tie B W f f') (name : Name) {n n' : Nat} (hab : W.Sees a b)
    (hn : a < n) (hn' : b < n') :
    (f.findFrom name n a = none ∧ f'.findFrom name n' b = none) ∨
      ∃ o o' c c', f.findFrom name n a = some (o, c) ∧ f'.findFrom name n' b = some (o', c') ∧
        W.pair o o' ∧ c.Like B W c' := by
  -- one step outwards in the second forest; in the first one only past a scope that is not blank
  induction n' generalizing n a b with
  | zero => exact absurd hn' (Nat.not_lt_zero b)
  | succ n' ih =>
    cases hab with
    | pair hab =>
      obtain ⟨s, s', hs, hs', hlike⟩ := ht.like hab
      cases n with
      | zero => exact absurd hn (Nat.not_lt_zero a)
      | succ n =>
        rcases hlike.find?_cases name with ⟨hno, hno'⟩ | ⟨c, c', hc, hc', hcc⟩
        · rcases hlike.parent with ⟨hp, hp'⟩ | ⟨p, p', hp, hp', hsees⟩
          · simp [findFrom, hs, hs', hno, hno', hp, hp']
          · simp only [findFrom, hs, hs', hno, hno', hp, hp']
            have hlt := ht.first.parent_lt hs hp
            have hlt' := ht.second.parent_lt hs' hp'
            exact ih hsees (Nat.lt_of_lt_of_le hlt (Nat.le_of_lt_succ hn))
              (Nat.lt_of_lt_of_le hlt' (Nat.le_of_lt_succ hn'))
        · refine .inr ⟨a, b, c, c', ?_, ?_, hab, hcc⟩
          · simp only [findFrom, hs, hc]
          · simp only [findFrom, hs', hc']
    | @blank _ p hb hsees =>
      obtain ⟨t, htb, hblank⟩ := ht.blank hb
      have hno : t.find? name = none := by simp [Scope.find?, hblank.bindings]
      have hlt := ht.second.parent_lt htb hblank.parent
      have hskip : f'.findFrom name (n' + 1) b = f'.findFrom name n' p := by
        simp only [findFrom, htb, hno, hblank.parent]
      rw [hskip]
      exact ih hsees hn (Nat.lt_of_lt_of_le hlt (Nat.le_of_lt_succ hn'))

/-- A name is looked up alike: its owners stand for each other. -/
theorem lookup?_cases (ht : Tie B W f f') (hab : W.Sees a b) (name : Name) :
    (f.lookup? a name = none ∧ f'.lookup? b name = none) ∨
      ∃ o o' c c', f.lookup? a name = some (o, c) ∧ f'.lookup? b name = some (o', c') ∧
        W.pair o o' ∧ c.Like B W c' :=
  ht.findFrom_cases name hab (Nat.lt_succ_self a) (Nat.lt_succ_self b)

/-- A change of the bindings of two scopes that stand for each other. -/
theorem change (ht : Tie B W f f') (hab : W.pair a b) {g g' : Scope → Scope}
    (hg : ∀ {s s'}, s.Like B W s' → (g s).Like B W (g' s'))
    (hf : ∀ s, (g s).parent? = s.parent? ∧ (g s).captured = s.captured)
    (hf' : ∀ s, (g' s).parent? = s.parent? ∧ (g' s).captured = s.captured) :
    Tie B W (f.modifyAt a g) (f'.modifyAt b g') where
  first := ht.first.modifyAt a hf
  second := ht.second.modifyAt b hf'
  unique := ht.unique
  unique' := ht.unique'
  like := by
    intro x y hxy
    obtain ⟨s, s', hs, hs', hlike⟩ := ht.like hxy
    by_cases hx : x = a
    · subst hx
      obtain rfl := ht.unique hxy hab
      exact ⟨g s, g' s', scope?_modifyAt_of_eq_some hs g, scope?_modifyAt_of_eq_some hs' g',
        hg hlike⟩
    · have hy : y ≠ b := fun hy => hx (ht.unique' (hy ▸ hxy) hab)
      refine ⟨s, s', ?_, ?_, hlike⟩
      · rw [scope?_modifyAt_of_ne f hx, hs]
      · rw [scope?_modifyAt_of_ne f' hy, hs']
  blank := by
    intro c p hc
    obtain ⟨s, hs, hblank⟩ := ht.blank hc
    have hne : c ≠ b := by
      rintro rfl
      exact ht.unpaired hc hab
    exact ⟨s, by rw [scope?_modifyAt_of_ne f' hne, hs], hblank⟩
  unpaired := ht.unpaired

/-- A new scope in both forests. -/
theorem link (ht : Tie B W f f') (hab : W.Sees a b) :
    Tie B (W.link f.scopes.size f'.scopes.size) ⟨f.scopes.push (.inside (some a))⟩
      ⟨f'.scopes.push (.inside (some b))⟩ where
  first := ht.first.push (ht.sees_lt_size hab).1
  second := ht.second.push (ht.sees_lt_size hab).2
  unique := by
    rintro x y z (h | ⟨rfl, rfl⟩) (h' | ⟨hx, rfl⟩)
    · exact ht.unique h h'
    · exact absurd (ht.lt_size (hx ▸ h)).1 (Nat.lt_irrefl _)
    · exact absurd (ht.lt_size h').1 (Nat.lt_irrefl _)
    · rfl
  unique' := by
    rintro x y z (h | ⟨rfl, rfl⟩) (h' | ⟨rfl, hz⟩)
    · exact ht.unique' h h'
    · exact absurd (ht.lt_size (hz ▸ h)).2 (Nat.lt_irrefl _)
    · exact absurd (ht.lt_size h').2 (Nat.lt_irrefl _)
    · rfl
  like := by
    have hle := W.le_link f.scopes.size f'.scopes.size
    rintro x y (hxy | ⟨rfl, rfl⟩)
    · obtain ⟨s, s', hs, hs', hlike⟩ := ht.like hxy
      refine ⟨s, s', ?_, ?_, hlike.mono hle⟩
      · rw [scope?_push_of_lt f _ (lt_size_of_scope? hs), hs]
      · rw [scope?_push_of_lt f' _ (lt_size_of_scope? hs'), hs']
    · refine ⟨_, _, scope?_push_self f _, scope?_push_self f' _, ?_, .nil, rfl⟩
      exact .inr ⟨a, b, rfl, rfl, hab.mono hle⟩
  blank := by
    intro c p hc
    obtain ⟨s, hs, hblank⟩ := ht.blank hc
    exact ⟨s, by rw [scope?_push_of_lt f' _ (lt_size_of_scope? hs), hs], hblank⟩
  unpaired := by
    rintro x y p hb (h | ⟨rfl, rfl⟩)
    · exact ht.unpaired hb h
    · obtain ⟨s, hs, -⟩ := ht.blank hb
      exact absurd (lt_size_of_scope? hs) (Nat.lt_irrefl _)

/-- A new blank scope. -/
theorem pass (ht : Tie B W f f') (hb : b < f'.scopes.size) :
    Tie B (W.pass f'.scopes.size b) f ⟨f'.scopes.push (.inside (some b))⟩ where
  first := ht.first
  second := ht.second.push hb
  unique := ht.unique
  unique' := ht.unique'
  like := by
    intro x y hxy
    obtain ⟨s, s', hs, hs', hlike⟩ := ht.like hxy
    refine ⟨s, s', hs, ?_, hlike.mono (W.le_pass f'.scopes.size b)⟩
    rw [scope?_push_of_lt f' _ (lt_size_of_scope? hs'), hs']
  blank := by
    rintro c p (hc | ⟨rfl, rfl⟩)
    · obtain ⟨s, hs, hblank⟩ := ht.blank hc
      exact ⟨s, by rw [scope?_push_of_lt f' _ (lt_size_of_scope? hs), hs], hblank⟩
    · exact ⟨_, scope?_push_self f' _, rfl, rfl⟩
  unpaired := by
    rintro x y p (hc | ⟨rfl, rfl⟩) hxy
    · exact ht.unpaired hc hxy
    · exact absurd (ht.lt_size hxy).2 (Nat.lt_irrefl _)

theorem capture (ht : Tie B W f f') (hab : W.pair a b) : Tie B W (f.capture a) (f'.capture b) where
  first := ht.first.capture a
  second := ht.second.capture b
  unique := ht.unique
  unique' := ht.unique'
  like := by
    intro x y hxy
    obtain ⟨s, s', hs, hs', hlike⟩ := ht.like hxy
    rw [ht.first.scope?_capture, ht.second.scope?_capture, hs, hs']
    refine ⟨_, _, rfl, rfl, ?_⟩
    by_cases hx : Above f a x
    · have hy := ht.above_of_above hx (.pair hab) hxy
      simp only [hx, hy, if_true]
      exact hlike.capture
    · have hy : ¬ Above f' b y := fun hy => hx (ht.above_of_above' hy (.pair hab) hxy)
      simp only [hx, hy, if_false]
      exact hlike
  blank := by
    intro c p hc
    obtain ⟨s, hs, hblank⟩ := ht.blank hc
    rw [ht.second.scope?_capture, hs]
    refine ⟨_, rfl, ?_⟩
    split
    · exact ⟨hblank.parent, hblank.bindings⟩
    · exact hblank
  unpaired := ht.unpaired

theorem leave (ht : Tie B W f f') (hab : W.pair a b) (discards : Bool) :
    Tie B W (f.leave discards a) (f'.leave discards b) := by
  obtain ⟨s, s', hs, hs', hlike⟩ := ht.like hab
  simp only [Forest.leave, release, hs, hs', hlike.captured]
  split
  · split
    · exact ht
    · exact ht.change hab .clear (fun _ => ⟨rfl, rfl⟩) fun _ => ⟨rfl, rfl⟩
  · exact ht

/-- A blank scope has nothing to lose. -/
theorem leave_blank (ht : Tie B W f f') (hb : W.blank b p) (discards : Bool) :
    Tie B W f (f'.leave discards b) := by
  rcases leave_cases f' discards b with h | ⟨-, h⟩
  · rw [h]
    exact ht
  · rw [h]
    refine { ht with
      second := ht.second.modifyAt b fun _ => ⟨rfl, rfl⟩
      like := fun {x y} hxy => ?_
      blank := fun {c q} hc => ?_ }
    · have hy : y ≠ b := by
        rintro rfl
        exact ht.unpaired hb hxy
      rw [scope?_modifyAt_of_ne f' hy]
      exact ht.like hxy
    · obtain ⟨t, hct, hcblank⟩ := ht.blank hc
      rw [scope?_modifyAt, hct]
      split
      · exact ⟨t.clear, rfl, hcblank.parent, rfl⟩
      · exact ⟨t, rfl, hcblank⟩

theorem child (ht : Tie B W f f') (hab : W.Sees a b) :
    Acts B W (fun V c c' => V.pair c c') (Forest.child a f) (Forest.child b f') :=
  .ok (W.le_link _ _) (ht.link hab) (.inr ⟨rfl, rfl⟩)

theorem define (ht : Tie B W f f') (hab : W.pair a b) (name : Name) {v v' : Value}
    (hv : v.Like B W v') (mark : Mark) :
    Acts B W (fun V => Value.Like B V) (Forest.define a name v mark f)
      (Forest.define b name v' mark f') := by
  obtain ⟨s, s', hs, hs', hlike⟩ := ht.like hab
  rcases hlike.find?_cases name with ⟨hno, hno'⟩ | ⟨c, c', hc, hc', -⟩
  · have hchange := ht.change hab (fun h => h.bind name hv mark) (fun _ => ⟨rfl, rfl⟩)
      fun _ => ⟨rfl, rfl⟩
    simpa only [Forest.define, hs, hs', Option.bind_some, hno, hno'] using
      Acts.ok (le_refl W) hchange hv
  · simpa only [Forest.define, hs, hs', Option.bind_some, hc, hc'] using Acts.error _ ht

theorem get (ht : Tie B W f f') (hab : W.Sees a b) (name : Name) :
    Acts B W (fun V => Value.Like B V) (Forest.get a name f) (Forest.get b name f') := by
  rcases ht.lookup?_cases hab name with ⟨h, h'⟩ | ⟨o, o', c, c', h, h', -, hcc⟩
  · simpa only [Forest.get, h, h'] using Acts.error _ ht
  · simpa only [Forest.get, h, h'] using Acts.ok (le_refl W) ht hcc.value

theorem set (ht : Tie B W f f') (hab : W.Sees a b) (name : Name) {v v' : Value}
    (hv : v.Like B W v') :
    Acts B W (fun V => Value.Like B V) (Forest.set a name v f) (Forest.set b name v' f') := by
  rcases ht.lookup?_cases hab name with ⟨h, h'⟩ | ⟨o, o', c, c', h, h', ho, hcc⟩
  · simpa only [Forest.set, h, h'] using Acts.error _ ht
  · simp only [Forest.set, h, h', hcc.mark]
    split
    · exact .ok (le_refl W) (ht.change ho (fun hs => hs.rebind name hv) (fun _ => ⟨rfl, rfl⟩)
        fun _ => ⟨rfl, rfl⟩) hv
    · exact .error _ ht

theorem delete (ht : Tie B W f f') (hab : W.Sees a b) (name : Name) :
    Acts B W (fun V => Value.Like B V) (Forest.delete a name f) (Forest.delete b name f') := by
  rcases ht.lookup?_cases hab name with ⟨h, h'⟩ | ⟨o, o', c, c', h, h', ho, hcc⟩
  · simpa only [Forest.delete, h, h'] using Acts.error _ ht
  · simp only [Forest.delete, h, h', hcc.mark]
    split
    · exact .error _ ht
    · exact .error _ ht
    · exact .ok (le_refl W) (ht.change ho (fun hs => hs.unbind name) (fun _ => ⟨rfl, rfl⟩)
        fun _ => ⟨rfl, rfl⟩) hcc.value

end Tie

/-- A forest whose functions close over captured scopes is alike to itself. -/
theorem Paired.tie {f : Forest} (hf : Paired (f, f)) (hB : ∀ n, B n n) : Tie B (.self f) f f where
  first := hf.sound
  second := hf.sound
  unique := by
    rintro a b c ⟨rfl, -⟩ ⟨rfl, -⟩
    rfl
  unique' := by
    rintro a b c ⟨rfl, -⟩ ⟨rfl, -⟩
    rfl
  like := by
    rintro a b ⟨rfl, ha⟩
    obtain ⟨s, hs⟩ := exists_scope?_of_lt ha
    refine ⟨s, s, hs, hs, ?_, ?_, rfl⟩
    · cases hp : s.parent? with
      | none => exact .inl ⟨rfl, rfl⟩
      | some p =>
        have hlt := hf.sound.parent_lt hs hp
        exact .inr ⟨p, p, rfl, rfl, .pair ⟨rfl, Nat.lt_trans hlt ha⟩⟩
    · refine List.forall₂_same.mpr fun b hb => ⟨rfl, rfl, ?_⟩
      exact (hf.kept hs b hb).like hB
  blank := nofun
  unpaired := nofun

end Script
