import Script.Proofs.Canonical
import Script.Proofs.Lexical

/-!
# Statements do not leak bindings

Whatever a statement runs through, it leaves the scopes that were there before as they were: they
keep their places, captured ones stay captured, constants and functions stay, no name is added, and
a name goes only where a statement deletes it. What is declared on the way is declared in scopes
that are new. Only a declaration adds a name, its own one, to the scope it is evaluated in, and it
does so if and only if it succeeds.
-/
namespace Script

open Forest

/-- A scope keeps its parent, stays captured and keeps its constants and functions. It gets only
names that may be added, and no other name gets another mark. -/
structure Scope.Becomes (Added : Name → Prop) (s t : Scope) : Prop where
  parent : t.parent? = s.parent?
  captured : s.captured = true → t.captured = true
  marked : ∀ name b, s.find? name = some b → b.mark ≠ .variable → t.find? name = some b
  remarked : ∀ name b c, s.find? name = some b → t.find? name = some c → c.mark ≠ b.mark →
    Added name
  added : ∀ name, s.find? name = none → t.find? name ≠ none → Added name

/-- In one step no name at all gets another mark, and a name goes only if it may be removed. -/
structure Scope.Turns (Added : Name → Prop) (Removed : Name → Binding → Prop) (s t : Scope) :
    Prop where
  parent : t.parent? = s.parent?
  captured : s.captured = true → t.captured = true
  marked : ∀ name b, s.find? name = some b → b.mark ≠ .variable → t.find? name = some b
  added : ∀ name, s.find? name = none → t.find? name ≠ none → Added name
  mark : ∀ name b c, s.find? name = some b → t.find? name = some c → c.mark = b.mark
  removed : ∀ name b, s.find? name = some b → t.find? name = none → Removed name b

namespace Scope

variable {Added : Name → Prop} {Removed : Name → Binding → Prop} {s t u : Scope}

theorem Turns.becomes (h : s.Turns Added Removed t) : s.Becomes Added t where
  parent := h.parent
  captured := h.captured
  marked := h.marked
  remarked name b c hb hc hne := absurd (h.mark name b c hb hc) hne
  added := h.added

theorem Becomes.trans (h : s.Becomes Added t) (h' : t.Becomes Added u) : s.Becomes Added u where
  parent := h'.parent.trans h.parent
  captured hs := h'.captured (h.captured hs)
  marked name b hb hm := h'.marked name b (h.marked name b hb hm) hm
  remarked := by
    intro name b d hb hd hne
    cases ht : t.find? name with
    | none =>
      -- the name was gone in between and came again
      exact h'.added name ht (hd ▸ nofun)
    | some c =>
      by_cases hc : c.mark = b.mark
      · exact h'.remarked name c d ht hd (hc ▸ hne)
      · exact h.remarked name b c hb ht hc
  added := by
    intro name hs hu
    cases ht : t.find? name with
    | none => exact h'.added name ht hu
    | some b => exact h.added name hs (ht ▸ nofun)

/-- A change that leaves the bindings as they are. -/
theorem turns_of_bindings (hp : t.parent? = s.parent?) (hc : s.captured = true → t.captured = true)
    (hb : t.bindings = s.bindings) : s.Turns Added Removed t := by
  have hfind (name : Name) : t.find? name = s.find? name := by rw [find?, hb, ← find?]
  refine ⟨hp, hc, fun name b h _ => (hfind name).trans h, fun name h h' => ?_,
    fun name b c h h' => ?_, fun name b h h' => ?_⟩
  · exact absurd ((hfind name).trans h) h'
  · rw [hfind, h] at h'
    rw [Option.some.inj h']
  · rw [hfind, h] at h'
    cases h'

theorem turns_refl (s : Scope) : s.Turns Added Removed s :=
  turns_of_bindings rfl (fun h => h) rfl

theorem turns_capture (s : Scope) : s.Turns Added Removed s.capture :=
  turns_of_bindings rfl (fun _ => rfl) rfl

theorem turns_bind {name : Name} (hs : s.find? name = none) (v : Value) (mark : Mark)
    (hadd : ∀ n, name.same n = true → Added n) :
    s.Turns Added Removed (s.bind ⟨name, v, mark⟩) := by
  have hkeep {n : Name} {b : Binding} (h : s.find? n = some b) := find?_bind hs h v mark
  refine ⟨rfl, fun h => h, fun n b h _ => hkeep h, fun n h h' => ?_, fun n b c h h' => ?_,
    fun n b h h' => ?_⟩
  · by_cases hn : name.same n = true
    · exact hadd n hn
    · rw [find?_bind_eq, if_neg hn] at h'
      exact absurd h h'
  · rw [hkeep h] at h'
    rw [Option.some.inj h']
  · cases (hkeep h).symm.trans h'

theorem turns_rebind {name : Name} {b : Binding} (hb : s.find? name = some b)
    (hm : b.mark = .variable) (v : Value) : s.Turns Added Removed (s.rebind name v) := by
  refine ⟨rfl, fun h => h, fun n c hc hmc => ?_, fun n h h' => ?_, fun n c d hc hd => ?_,
    fun n c hc h' => ?_⟩
  · exact find?_rebind hb hc (fun heq => hmc (heq.symm.trans hm)) v
  · rw [find?_rebind_eq, h] at h'
    exact absurd rfl h'
  · rw [find?_rebind_eq, hc, Option.map_some] at hd
    rw [← Option.some.inj hd]
    split <;> rfl
  · rw [find?_rebind_eq, hc] at h'
    cases h'

theorem turns_unbind {name : Name} {b : Binding} (hb : s.find? name = some b)
    (hm : b.mark = .variable) (hremove : ∀ n, name.same n = true → Removed n b) :
    s.Turns Added Removed (s.unbind name) := by
  have hsame {n : Name} (hn : name.same n = true) := find?_unbind_of_same hn s
  have hother {n : Name} (hn : ¬ name.same n = true) : (s.unbind name).find? n = s.find? n :=
    find?_unbind_of_not_same (by simpa using hn) s
  refine ⟨rfl, fun h => h, fun n c hc hmc => ?_, fun n h h' => ?_, fun n c d hc hd => ?_,
    fun n c hc h' => ?_⟩
  · exact find?_unbind hb hc fun heq => hmc (heq.symm.trans hm)
  · by_cases hn : name.same n = true
    · exact absurd (hsame hn) h'
    · rw [hother hn] at h'
      exact absurd h h'
  · by_cases hn : name.same n = true
    · cases (hsame hn).symm.trans hd
    · rw [hother hn, hc] at hd
      rw [Option.some.inj hd]
  · by_cases hn : name.same n = true
    · rw [find?_congr hn, hc] at hb
      rw [Option.some.inj hb]
      exact hremove n hn
    · cases hc.symm.trans ((hother hn).symm.trans h')

end Scope

/-- What may become of the first `size` scopes. -/
structure Frame (size : Nat) (Added : ScopeId → Name → Prop) (f g : Forest) : Prop where
  grown : f.scopes.size ≤ g.scopes.size
  scope : ∀ id s, id < size → f.scope? id = some s → ∃ t, g.scope? id = some t ∧
    s.Becomes (Added id) t

/-- What may become of the first `size` scopes from one moment to the next. A name goes only if the
statement that begins deletes it. -/
structure Moment.Turns (size : Nat) (Added : ScopeId → Name → Prop) (a b : Moment) : Prop where
  grown : a.forest.scopes.size ≤ b.forest.scopes.size
  scope : ∀ id s, id < size → a.forest.scope? id = some s → ∃ t, b.forest.scope? id = some t ∧
    s.Turns (Added id) (a.Deletes id) t

namespace Frames

variable {size : Nat} {Added : ScopeId → Name → Prop} {f g h : Forest} {a : Moment}

theorem frame_of_turns {b : Moment} (hab : a.Turns size Added b) :
    Frame size Added a.forest b.forest := by
  refine ⟨hab.grown, fun id s hid hs => ?_⟩
  obtain ⟨t, ht, hst⟩ := hab.scope id s hid hs
  exact ⟨t, ht, hst.becomes⟩

theorem frame_trans (hfg : Frame size Added f g) (hgh : Frame size Added g h) :
    Frame size Added f h := by
  refine ⟨Nat.le_trans hfg.grown hgh.grown, fun id s hid hs => ?_⟩
  obtain ⟨t, ht, hst⟩ := hfg.scope id s hid hs
  obtain ⟨u, hu, htu⟩ := hgh.scope id t hid ht
  exact ⟨u, hu, hst.trans htu⟩

/-- A change beyond the scopes that are there. -/
theorem turns_of_scopes {b : Moment} (hsize : a.forest.scopes.size ≤ b.forest.scopes.size)
    (hsame : ∀ id, id < size → b.forest.scope? id = a.forest.scope? id) :
    a.Turns size Added b := by
  refine ⟨hsize, fun id s hid hs => ⟨s, ?_, s.turns_refl⟩⟩
  rw [hsame id hid, hs]

theorem turns_same {b : Moment} (hab : a.forest = b.forest) : a.Turns size Added b := by
  refine turns_of_scopes (Nat.le_of_eq ?_) fun id _ => ?_
  · rw [hab]
  · rw [hab]

/-- A change of one scope. -/
theorem turns_modifyAt {o : ScopeId} {change : Scope → Scope}
    (hchange : o < size → ∀ s, a.forest.scope? o = some s →
      s.Turns (Added o) (a.Deletes o) (change s)) :
    a.Turns size Added ⟨.changed, a.forest.modifyAt o change⟩ := by
  refine ⟨?_, fun id s hid hs => ?_⟩
  · rw [scopes_size_modifyAt]
  · by_cases ho : id = o
    · subst ho
      exact ⟨change s, scope?_modifyAt_of_eq_some hs change, hchange hid s hs⟩
    · refine ⟨s, ?_, s.turns_refl⟩
      rw [scope?_modifyAt_of_ne _ ho, hs]

/-- Capturing changes nothing but marks of being captured, wherever it stops. -/
theorem scope?_captureFrom_cases (steps : Nat) (id : ScopeId) (f : Forest) (o : ScopeId) :
    (captureFrom steps id f).scope? o = f.scope? o ∨
      (captureFrom steps id f).scope? o = (f.scope? o).map Scope.capture := by
  refine captureFrom_induction (P := fun g => g.scope? o = f.scope? o ∨
    g.scope? o = (f.scope? o).map Scope.capture) (fun g a hg => ?_) steps id (.inl rfl)
  rw [scope?_modifyAt]
  split
  · -- a scope that is marked twice is marked once
    rcases hg with hg | hg
    · exact .inr (by rw [hg])
    · exact .inr (by rw [hg, Option.map_map]; rfl)
  · exact hg

theorem turns_captureFrom (steps : Nat) (id : ScopeId) :
    a.Turns size Added ⟨.changed, captureFrom steps id a.forest⟩ := by
  refine ⟨Nat.le_of_eq (scopes_size_captureFrom steps id a.forest).symm, fun o s _ hs => ?_⟩
  rcases scope?_captureFrom_cases steps id a.forest o with hscope | hscope
  · exact ⟨s, hscope.trans hs, s.turns_refl⟩
  · refine ⟨s.capture, ?_, s.turns_capture⟩
    rw [hscope, hs]
    rfl

theorem turns_push (hsize : size ≤ a.forest.scopes.size) (s : Scope) :
    a.Turns size Added ⟨.changed, ⟨a.forest.scopes.push s⟩⟩ := by
  refine turns_of_scopes ?_ fun id hid => ?_
  · rw [Array.size_push]
    exact Nat.le_succ _
  · exact scope?_push_of_lt _ _ (Nat.lt_of_lt_of_le hid hsize)

theorem turns_leave {o : ScopeId} (ho : size ≤ o) (discards : Bool) :
    a.Turns size Added ⟨.changed, a.forest.leave discards o⟩ := by
  rcases leave_cases a.forest discards o with hleave | ⟨-, hleave⟩
  · rw [hleave]
    exact turns_same rfl
  · rw [hleave]
    exact turns_modifyAt fun hlt => absurd hlt (Nat.not_lt_of_le ho)

end Frames

namespace Node

/-- A tree that the parser makes: a whole program, or a statement in one. -/
def Parsed (n : Node) : Prop := n.WellFormed ∨ n.Statement

/-- The name that a declaration declares, and its mark. -/
def declaration? : Node → Option (Name × Mark)
  | .varDecl name _ isConst =>
      (Name.ofNode? name).map fun x => (x, if isConst.isSet then .constant else .variable)
  | .funcDecl name _ _ => (Name.ofNode? name).map fun x => (x, .function)
  | _ => none

def Declares (n : Node) (name : Name) : Prop :=
  ∃ x mark, n.declaration? = some (x, mark) ∧ x.same name = true

theorem declares_varDecl {n : Node} {x name : Name} (hx : Name.ofNode? n = some x)
    (hname : x.same name = true) (value isConst : Node) :
    (Node.varDecl n value isConst).Declares name := by
  refine ⟨x, if isConst.isSet then .constant else .variable, ?_, hname⟩
  rw [declaration?, hx]
  rfl

theorem declares_funcDecl {n : Node} {x name : Name} (hx : Name.ofNode? n = some x)
    (hname : x.same name = true) (params body : Node) :
    (Node.funcDecl n params body).Declares name := by
  refine ⟨x, .function, ?_, hname⟩
  rw [declaration?, hx]
  rfl

theorem Expression.declaration? {n : Node} (h : n.Expression) : n.declaration? = none := by
  cases h <;> rfl

theorem Parsed.part {n p : Node} (h : n.Parsed) (hp : n.Part p) : p.Expression := by
  rcases h with h | h
  · cases h
    cases hp
  · exact h.part hp

end Node

/-- The first `size` scopes stay as they are, but for names that may be added. -/
def framing (size : Nat) (Added : ScopeId → Name → Prop) : Discipline where
  Inv f := size ≤ f.scopes.size
  Later := Frame size Added
  Next a b := a.Turns size Added b
  Open _ _ := True
  Held _ _ := True

/-- In newer scopes anything may happen. In the first ones only trees are evaluated that the parser
makes, and of declarations only those of names that may be added. -/
def sheltering (size : Nat) (Added : ScopeId → Name → Prop) : Discipline.Licence where
  May n id _ := size ≤ id ∨ n.Parsed ∧ ∀ name, n.Declares name → Added id name
  Free id name _ := size ≤ id ∨ ∀ x, name.same x = true → Added id x
  Own id _ := size ≤ id

namespace Frames

variable {size : Nat} {Added : ScopeId → Name → Prop}

/-- An operation on scopes that turns the ones that are there as it may. -/
theorem keeps_of_turns {α : Type} {a : Moment} {action : Action α}
    (h : (∃ v g, action a.forest = .ok v g ∧ a.Turns size Added ⟨.changed, g⟩) ∨
      ∃ fault, action a.forest = .error fault a.forest)
    (ha : size ≤ a.forest.scopes.size) :
    (framing size Added).Keeps a (fun _ _ => True) action := by
  rcases h with ⟨v, g, hok, hturns⟩ | herror
  · exact .inl ⟨v, g, hok, Nat.le_trans ha hturns.grown, frame_of_turns hturns, hturns, trivial⟩
  · exact .inr herror

theorem keeps_define {a : Moment} {id : ScopeId} {name : Name} (v : Value) (mark : Mark)
    (ha : size ≤ a.forest.scopes.size)
    (hfree : size ≤ id ∨ ∀ x, name.same x = true → Added id x) :
    (framing size Added).Keeps a (fun _ _ => True) (Forest.define id name v mark) := by
  refine keeps_of_turns ?_ ha
  rcases define_cases a.forest id name v mark with herror | ⟨hno, hok⟩
  · exact .inr herror
  · refine .inl ⟨_, _, hok, turns_modifyAt fun hid s hs => ?_⟩
    rw [hs] at hno
    rcases hfree with hnew | hadd
    · exact absurd hid (Nat.not_lt_of_le hnew)
    · exact Scope.turns_bind hno v mark hadd

theorem keeps_get {a : Moment} (id : ScopeId) (name : Name) (ha : size ≤ a.forest.scopes.size) :
    (framing size Added).Keeps a (fun _ _ => True) (Forest.get id name) := by
  refine keeps_of_turns ?_ ha
  rcases get_cases a.forest id name with herror | ⟨owner, b, -, hok⟩
  · exact .inr herror
  · exact .inl ⟨_, _, hok, turns_same rfl⟩

theorem keeps_set {a : Moment} (id : ScopeId) (name : Name) (v : Value)
    (ha : size ≤ a.forest.scopes.size) :
    (framing size Added).Keeps a (fun _ _ => True) (Forest.set id name v) := by
  refine keeps_of_turns ?_ ha
  rcases set_cases a.forest id name v with herror | ⟨owner, b, hl, hm, hok⟩
  · exact .inr herror
  · obtain ⟨-, s, hs, hb⟩ := findFrom_eq_some hl
    refine .inl ⟨_, _, hok, turns_modifyAt fun _ t ht => ?_⟩
    obtain rfl : s = t := Option.some.inj (hs.symm.trans ht)
    exact Scope.turns_rebind hb hm v

theorem keeps_delete {f : Forest} (id : ScopeId) {n : Node} {name : Name}
    (hn : Name.ofNode? n = some name) (hf : size ≤ f.scopes.size) :
    (framing size Added).Keeps ⟨.begins (.deleteStmt n) id, f⟩ (fun _ _ => True)
      (Forest.delete id name) := by
  refine keeps_of_turns ?_ hf
  rcases delete_cases f id name with herror | ⟨owner, b, hl, hm, hok⟩
  · exact .inr herror
  · obtain ⟨-, s, hs, hb⟩ := findFrom_eq_some hl
    refine .inl ⟨_, _, hok, turns_modifyAt (a := ⟨.begins (.deleteStmt n) id, f⟩) ?_⟩
    intro _ t ht
    obtain rfl : s = t := Option.some.inj (hs.symm.trans ht)
    exact Scope.turns_unbind hb hm fun x hx => ⟨n, id, name, rfl, hn, hx, hl⟩

/-- Expressions may be evaluated anywhere. -/
theorem may_expression {n : Node} (hn : n.Expression) {id : ScopeId} {f : Forest} :
    (sheltering size Added).May n id f := by
  refine .inr ⟨.inr (.expression hn), ?_⟩
  rintro name ⟨x, mark, hx, -⟩
  rw [hn.declaration?] at hx
  cases hx

theorem framing_respected (size : Nat) (Added : ScopeId → Name → Prop) :
    (framing size Added).Respected (sheltering size Added) where
  refl f := frame_of_turns (a := ⟨.changed, f⟩) (b := ⟨.changed, f⟩) (turns_same rfl)
  trans := frame_trans
  next_same := turns_same
  open_later _ _ := trivial
  held_later _ _ := trivial
  may_later h _ := h
  free_later h _ := h
  own_later h _ := h
  open_own _ := trivial
  free_own _ h := .inl h
  may_part := by
    rintro n p id f (hnew | ⟨hn, -⟩) hp
    · exact .inl hnew
    · exact may_expression (hn.part hp)
  may_inner _ _ hi := .inl hi
  may_body _ _ _ hi := .inl hi
  free_varDecl := by
    rintro n value isConst name id f (hnew | ⟨-, hadd⟩) hname
    · exact .inl hnew
    · exact .inr fun x hx => hadd x (Node.declares_varDecl hname hx value isConst)
  free_funcDecl := by
    rintro n params body name id f (hnew | ⟨-, hadd⟩) hname
    · exact .inl hnew
    · exact .inr fun x hx => hadd x (Node.declares_funcDecl hname hx params body)
  held_number _ _ := trivial
  held_boolean _ _ := trivial
  held_null _ := trivial
  held_string _ := trivial
  held_array := ⟨fun _ _ _ => trivial, fun _ => trivial⟩
  held_step _ _ := trivial
  held_apply _ _ _ _ _ := trivial
  held_get _ _ _ := trivial
  held_library _ _ _ _ _ := trivial
  open_closure _ _ := trivial
  child := by
    intro a id ha _
    have hpush : a.Turns size Added ⟨.changed, ⟨a.forest.scopes.push (.inside (some id))⟩⟩ :=
      turns_push ha _
    have hinv := Nat.le_trans ha hpush.grown
    refine .inl ⟨_, _, rfl, hinv, frame_of_turns hpush, hpush, ha, fun b discards hb hlater => ?_⟩
    have hleave : b.Turns size Added
        ⟨.changed, b.forest.leave discards a.forest.scopes.size⟩ := turns_leave ha discards
    refine ⟨Nat.le_trans hb hleave.grown, ?_, hleave⟩
    exact frame_trans (frame_trans (frame_of_turns hpush) hlater) (frame_of_turns hleave)
  define mark ha _ hfree _ := keeps_define _ mark ha hfree
  get name ha _ := keeps_get _ name ha
  set name ha _ _ := keeps_set _ name _ ha
  delete hn hf _ := keeps_delete _ hn hf
  capture := by
    intro a id n params body ha _ _
    have hcapture : a.Turns size Added ⟨.changed, a.forest.capture id⟩ :=
      turns_captureFrom (id + 1) id
    exact ⟨Nat.le_trans ha hcapture.grown, frame_of_turns hcapture, hcapture, fun _ _ _ => trivial⟩

abbrev closed (size : Nat) : Discipline := framing size fun _ _ => False

/-- A declaration that fails adds nothing; one that succeeds adds its name, last of all. -/
inductive Declaring (size : Nat) (e : ScopeId) (x : Name) (mark : Mark) (a : Moment) :
    List Moment → EStateM.Result Fault Machine Value → Prop
  | failed {ms b fault m} (path : (closed size).Leads a ms b) (hb : b.forest = m.forest) :
      Declaring size e x mark a ms (.error fault m)
  | declared {ms b v m} (path : (closed size).Leads a ms b) (hno : b.forest.at? e x = none)
      (hbound : m.forest.at? e x = some ⟨x, v, mark⟩) :
      Declaring size e x mark a (ms ++ [⟨.changed, m.forest⟩]) (.ok v m)

section Declaring

variable {e : ScopeId} {x : Name} {mark : Mark} {a : Moment} {eval : Evaluator} {history : History}

/-- What comes before the declaration adds nothing. -/
theorem Declaring.bind {α : Type} {P : α → Forest → Prop} {y : Run α} {k : α → Run Value}
    {m : Machine} {ms : List Moment} {g : α → Machine → List Moment}
    (hy : (closed size).Goes a P ms (y m))
    (hk : ∀ v (b : Moment) (n : Machine), y m = .ok v n → n.forest = b.forest →
      size ≤ b.forest.scopes.size → P v b.forest → Declaring size e x mark b (g v n) (k v n)) :
    Declaring size e x mark a (ms ++ afterwards g (y m)) ((y >>= k) m) := by
  simp only [Bind.bind, EStateM.bind]
  cases hr : y m with
  | error fault n =>
    rw [hr] at hy
    rw [afterwards, List.append_nil]
    cases hy with
    | error path hb _ _ => exact .failed path hb
  | ok v n =>
    rw [hr] at hy
    cases hy with
    | ok path hb hi _ hv =>
      have hrest := hk v _ n hr hb.symm (hb ▸ hi) (hb ▸ hv)
      simp only [afterwards]
      generalize k v n = r, g v n = ns at hrest
      cases hrest with
      | failed path' hb' => exact .failed (path.trans path') hb'
      | declared path' hno hbound =>
        rw [← List.append_assoc]
        exact .declared (path.trans path') hno hbound

theorem discard_apply {α : Type} (y : Run α) (m : Machine) :
    (Functor.discard y : Run Unit) m =
      match y m with
      | .ok _ n => .ok () n
      | .error fault n => .error fault n := by
  change (y >>= fun _ => pure ()) m = _
  simp only [Bind.bind, EStateM.bind]
  cases y m <;> rfl

/-- The declaration itself, with a message that can be written. -/
theorem declaring_define {level : Nat} {message : Unit → Except Fault Node} {v : Value}
    (hentry : Entry level message) (hmessage : ∃ s, message () = .ok (.text s)) (m : Machine)
    (hm : m.forest = a.forest) (ha : size ≤ a.forest.scopes.size) (he : e < size) :
    Declaring size e x mark a
      (Course.moments eval history (.seq (.discard (.scopes (Forest.define e x v mark))) fun _ =>
        .seq (.log hentry) fun _ => .done v) m)
      ((do
        discard (Run.scopes (Forest.define e x v mark))
        Run.log level message
        return v : Run Value) m) := by
  cases hb : m.forest.at? e x with
  | some b =>
    have hdefine : Run.scopes (Forest.define e x v mark) m =
        .error (.binding (.redefined x.shown)) m := by
      simp only [Run.scopes, define_of_bound hb]
    simp only [Course.moments, Course.discard, Course.done, Bind.bind, EStateM.bind, discard_apply,
      hdefine, afterwards, List.append_nil]
    exact .failed (.step (turns_same hm.symm) (Discipline.right_changed (hm ▸ ha)) (.here _)) rfl
  | none =>
    obtain ⟨s, hs⟩ := exists_scope?_of_lt (Nat.lt_of_lt_of_le he (hm ▸ ha))
    have hdefine : Run.scopes (Forest.define e x v mark) m =
        .ok v { m with forest := m.forest.modifyAt e (·.bind ⟨x, v, mark⟩) } := by
      simp only [Run.scopes, define_of_unbound hb]
    -- a fault of the message would come too late to undo the binding
    obtain ⟨es, hlog⟩ := log_of_text level message hmessage
      { m with forest := m.forest.modifyAt e (·.bind ⟨x, v, mark⟩) }
    have hbound : (m.forest.modifyAt e (·.bind ⟨x, v, mark⟩)).at? e x = some ⟨x, v, mark⟩ := by
      rw [at?_modifyAt_self, hs, Option.bind_some, Scope.find?_bind_eq,
        if_pos (Name.same_refl x)]
    let n : Machine :=
      { m with forest := m.forest.modifyAt e (·.bind ⟨x, v, mark⟩), events := es }
    have hdeclared : Declaring size e x mark a ([] ++ [⟨.changed, n.forest⟩]) (.ok v n) :=
      .declared (.here a) (hm ▸ hb) hbound
    simp only [Course.moments, Course.discard, Course.done, Bind.bind, EStateM.bind, discard_apply,
      hdefine, afterwards, List.append_nil, hlog]
    exact hdeclared

variable {m : Machine} (hproper : m.Proper) (hm : m.forest = a.forest)
  (ha : size ≤ a.forest.scopes.size) (he : e < size)

include hm ha he

include hproper in
theorem declaring_varDecl (passes depth : Nat) (s : String) {value : Node}
    (hvalue : value = .null ∨ value.Expression) (isConst : Node) :
    Declaring size e (.word s) (if isConst.isSet then .constant else .variable) a
      ((Course.varDecl (.text s) value isConst e).moments (evaluate passes depth)
        (Script.history passes depth) m)
      (Evaluate.varDecl (evaluate passes depth) (.text s) value isConst e m) := by
  have hD := framing_respected size fun _ _ => False
  have hmay : value ≠ .null → (sheltering size fun _ _ => False).May value e a.forest :=
    fun hne => may_expression (hvalue.resolve_left hne)
  have hfirst := hD.good_valueIfAny (fun hb ho hn => hD.goes_history passes depth hb ho hn) ha
    trivial hmay m hm
  have hsafe : Progress.Safe (fun fault _ => ¬ fault.Unshown) Value.Proper
      (Evaluate.valueIfAny (evaluate passes depth) value e) := by
    rcases hvalue with rfl | hexp
    · exact Progress.safe_pure .null
    · rw [Progress.valueIfAny_of_expression e hexp]
      exact Progress.safe_evaluate passes depth e (.expression hexp)
  refine Declaring.bind hfirst fun v b n hv hn hb _ => ?_
  have hvproper : v.Proper := by
    have hfine := hsafe m hproper
    rw [hv] at hfine
    cases hfine with
    | ok _ hv => exact hv
  refine Declaring.bind (hD.good_nameOf hb (.text s) n hn) fun y c n' _ hn' hc hy => ?_
  cases hy
  exact declaring_define _ (Progress.declared_message _ s _ hvproper) n' hn' hc he

theorem declaring_funcDecl (s : String) (ps : List String) (body : Node) :
    Declaring size e (.word s) .function a
      ((Course.funcDecl (.text s) (.list (ps.map .text)) body e).moments eval history m)
      (Evaluate.funcDecl (.text s) (.list (ps.map .text)) body e m) := by
  have hD := framing_respected size fun _ _ => False
  have hcapture : (closed size).Goes a (fun _ _ => True) [⟨.changed, m.forest.capture e⟩]
      (Run.onForest (·.capture e) m) := by
    have hturns : a.Turns size (fun _ _ => False) ⟨.changed, m.forest.capture e⟩ :=
      hm ▸ turns_captureFrom (e + 1) e
    have hinv := Nat.le_trans ha hturns.grown
    exact .ok (.step hturns (Discipline.right_changed hinv) (.here _)) rfl hinv
      (frame_of_turns hturns) trivial
  refine Declaring.bind hcapture fun _ b n _ hn hb _ => ?_
  refine Declaring.bind (hD.good_nameOf hb (.text s) n hn) fun y c n' _ hn' hc hy => ?_
  cases hy
  refine Declaring.bind (hD.good_freshIdentity hc n' hn') fun i d n'' _ hn'' hd _ => ?_
  exact declaring_define _ (Progress.defined_message s ps) n'' hn'' hd he

end Declaring

end Frames

def Moment.Adds (ms : List Moment) (id : ScopeId) (name : Name) : Prop :=
  ∃ a b, [a, b] <:+: ms ∧ a.forest.at? id name = none ∧ b.forest.at? id name ≠ none

namespace Discipline

variable {D : Discipline} {a b : Moment} {ms : List Moment}

theorem Leads.inv (h : D.Leads a ms b) (ha : D.Inv a.forest) : D.Inv b.forest := by
  induction h with
  | here => exact ha
  | step _ hb _ ih => exact ih hb.inv

theorem Leads.exists_append (h : D.Leads a ms b) : ∃ l, a :: ms = l ++ [b] := by
  induction h with
  | here a => exact ⟨[], rfl⟩
  | @step a _ _ _ _ _ _ ih =>
    obtain ⟨l, hl⟩ := ih
    refine ⟨a :: l, ?_⟩
    rw [hl, List.cons_append]

end Discipline

namespace Frames

variable {size : Nat} {e : ScopeId} {x : Name} {mark : Mark} {a : Moment}

theorem not_adds {b : Moment} {ms : List Moment} (path : (closed size).Leads a ms b)
    (ha : size ≤ a.forest.scopes.size) (he : e < size) : ¬ Moment.Adds (a :: ms) e x := by
  rintro ⟨c, d, hcd, hno, hbound⟩
  have hpair : [c, d].IsChain (closed size).Next := List.IsChain.infix path.isChain hcd
  have hturns : c.Turns size (fun _ _ => False) d := List.isChain_pair.mp hpair
  have hsize : size ≤ c.forest.scopes.size := by
    have hmem : c ∈ a :: ms := hcd.subset List.mem_cons_self
    rcases List.mem_cons.mp hmem with rfl | hc
    · exact ha
    · exact (path.right c hc).inv
  obtain ⟨s, hs⟩ := exists_scope?_of_lt (Nat.lt_of_lt_of_le he hsize)
  obtain ⟨t, ht, hst⟩ := hturns.scope e s he hs
  rw [at?, hs] at hno
  rw [at?, ht] at hbound
  exact hst.added x hno hbound

/-- A declaration adds its name if and only if it succeeds. -/
theorem Declaring.adds_iff {ms : List Moment} {r : EStateM.Result Fault Machine Value}
    (h : Declaring size e x mark a ms r) (ha : size ≤ a.forest.scopes.size) (he : e < size) :
    Moment.Adds (a :: ms ++ [.closing r]) e x ↔ ∃ v m, r = .ok v m := by
  cases h with
  | @failed ms b fault m path hb =>
    constructor
    · intro hadds
      have hinv : size ≤ m.forest.scopes.size := hb ▸ path.inv ha
      have hclosing : (closed size).Right (.closing (.error fault m)) := by
        refine ⟨hinv, ?_⟩
        rintro v ⟨⟩
      have hpath := path.trans (.step (turns_same hb) hclosing (.here _))
      exact absurd hadds (not_adds hpath ha he)
    · rintro ⟨v, n, ⟨⟩⟩
  | @declared ms b v m path hno hbound =>
    refine iff_of_true ?_ ⟨v, m, rfl⟩
    obtain ⟨l, hl⟩ := path.exists_append
    refine ⟨b, ⟨.changed, m.forest⟩, ⟨l, [.closing (.ok v m)], ?_⟩, hno, ?_⟩
    · rw [← List.cons_append, hl]
      simp only [List.append_assoc, List.cons_append, List.nil_append]
    · rw [hbound]
      exact nofun

/-- The rule of a declaration, right after its evaluation has begun, if there is depth left. -/
theorem declaring_parsed {n : Node} (hn : n.Parsed) (hx : n.declaration? = some (x, mark))
    (passes depth : Nat) {m : Machine} (hproper : m.Proper) (he : e < m.forest.scopes.size) :
    Declaring m.forest.scopes.size e x mark ⟨.begins n e, m.forest⟩
      ((Course.rule passes n e).moments (evaluate passes depth) (Script.history passes depth) m)
      (evaluate passes (depth + 1) n e m) := by
  have hsize := Nat.le_refl m.forest.scopes.size
  rcases hn with hn | hn
  · cases hn
    cases hx
  · cases hn with
    | expression hn =>
      rw [hn.declaration?] at hx
      cases hx
    | declaration hn =>
      cases hn with
      | uninitialized _ =>
        cases hx
        exact declaring_varDecl (a := ⟨_, m.forest⟩) hproper rfl hsize he passes depth _
          (.inl rfl) _
      | initialized b _ hvalue =>
        cases hx
        exact declaring_varDecl (a := ⟨_, m.forest⟩) hproper rfl hsize he passes depth _
          (.inr hvalue) _
    | function _ _ _ =>
      cases hx
      exact declaring_funcDecl (a := ⟨_, m.forest⟩) rfl hsize he _ _ _
    | _ => cases hx

/-- The moments of a declaration, from its beginning on. -/
theorem declaring_history {n : Node} (hn : n.Parsed) (hx : n.declaration? = some (x, mark))
    (passes depth : Nat) {m : Machine} (hproper : m.Proper) (he : e < m.forest.scopes.size) :
    ∃ ms, history passes depth n e m =
        ⟨.begins n e, m.forest⟩ :: ms ++ [.closing (evaluate passes depth n e m)] ∧
      Declaring m.forest.scopes.size e x mark ⟨.begins n e, m.forest⟩ ms
        (evaluate passes depth n e m) := by
  cases depth with
  | zero => exact ⟨[], rfl, .failed (.here _) rfl⟩
  | succ depth => exact ⟨_, rfl, declaring_parsed hn hx passes depth hproper he⟩

end Frames

/-- What the evaluation of a tree in the scope `e` does to the scopes that are there, at its end and
from one of its moments to the next. A tree that is no declaration adds no name at all. -/
structure Node.Framed (n : Node) (passes depth : Nat) (e : ScopeId) (m : Machine) : Prop where
  frame : Frame m.forest.scopes.size (fun id name => id = e ∧ n.Declares name) m.forest
    (machineOf (evaluate passes depth n e m)).forest
  turns : (history passes depth n e m).IsChain
    (Moment.Turns m.forest.scopes.size fun id name => id = e ∧ n.Declares name)
  adds_iff : ∀ x mark, n.declaration? = some (x, mark) →
    (Moment.Adds (history passes depth n e m) e x ↔ ∃ v m', evaluate passes depth n e m = .ok v m')
  declared : ∀ x mark v m', n.declaration? = some (x, mark) →
    evaluate passes depth n e m = .ok v m' → m'.forest.at? e x = some ⟨x, v, mark⟩

namespace Session

/-- Whenever a session of source texts has come somewhere, a tree from the parser may be evaluated
in any scope: it leaves the scopes that are there in their frame. -/
theorem statements_do_not_leak (ambient : Ambient) (debugLevel : Nat) (inputs : List String)
    (steps : List (Bool × String)) {a : Moment}
    (ha : a ∈ moments (sources steps) (.fresh ambient debugLevel inputs)) {m : Machine}
    (hm : m.forest = a.forest) {n : Node} (hn : n.Parsed) {e : ScopeId}
    (he : e < m.forest.scopes.size) (passes depth : Nat) : n.Framed passes depth e m := by
  -- the frame is kept in any forest; only the messages of declarations need proper values
  have hproper : m.Proper := by
    intro id s hs b hb
    rw [hm] at hs
    exact ((canonical_moments ambient debugLevel inputs steps a ha).inv id s hs b hb).proper
  have hD := Frames.framing_respected m.forest.scopes.size fun id name => id = e ∧ n.Declares name
  have hgoes := hD.goes_history (a := ⟨.changed, m.forest⟩) passes depth (Nat.le_refl _) trivial
    (.inr ⟨hn, fun name hname => ⟨rfl, hname⟩⟩) m rfl
  refine ⟨?_, ?_, fun x mark hx => ?_, fun x mark v m' hx hv => ?_⟩
  · generalize evaluate passes depth n e m = r at hgoes
    cases hgoes with
    | ok _ _ _ hlater _ => exact hlater
    | error _ _ _ hlater => exact hlater
  · generalize evaluate passes depth n e m = r at hgoes
    cases hgoes with
    | ok path _ _ _ _ => exact path.isChain.tail
    | error path _ _ _ => exact path.isChain.tail
  · obtain ⟨ms, hms, hdeclaring⟩ := Frames.declaring_history hn hx passes depth hproper he
    rw [hms]
    exact hdeclaring.adds_iff (Nat.le_refl _) he
  · obtain ⟨ms, -, hdeclaring⟩ := Frames.declaring_history hn hx passes depth hproper he
    rw [hv] at hdeclaring
    cases hdeclaring with
    | declared _ _ hbound => exact hbound

/-- A declaration whose value is a call of a closure. -/
def declaredCall : Node :=
  .varDecl (.text "u") (.call (.text "step") (.list [])) (.boolean false)

/-- In the scope that a closure keeps, after blocks and a fault. -/
theorem statements_do_not_leak_closure :
    declaredCall.Framed 4 9 1 closureMachine ∧
      Moment.Adds (history 4 9 declaredCall 1 closureMachine) 1 (.word "u") := by
  obtain ⟨a, ha, hforest⟩ := exists_moment_after (sources closureSteps) (.fresh (.seeded 0 0) 0 [])
  have hcall : (Node.call (.text "step") (.list [])).Expression :=
    .call (by decide) (List.forall_mem_nil _)
  have hend : closureMachine.forest = a.forest := hforest.symm
  have hparsed : declaredCall.Parsed := .inr (.declaration (.initialized false (by decide) hcall))
  have hscopes : 1 < closureMachine.forest.scopes.size := by decide +kernel
  have hframed : declaredCall.Framed 4 9 1 closureMachine :=
    statements_do_not_leak (.seeded 0 0) 0 [] closureSteps ha hend hparsed hscopes 4 9
  have hends : ((evaluate 4 9 declaredCall 1).run' closureMachine).isSome = true := by
    decide +kernel
  exact ⟨hframed, (hframed.adds_iff _ _ rfl).mpr (Run.exists_ok_of_isSome hends)⟩

end Session

end Script
