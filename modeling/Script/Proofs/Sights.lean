import Script.Proofs.Simulation
import Script.Proofs.Closures

/-!
# What can be seen of a session

A step of a session shows what its values are printed as, everything that has happened outside the
programs, and the bindings of the root scope. Two sessions that go on with the same steps, on
machines whose forests are alike, show the same, step for step.
-/
namespace Script

open Forest

/-- What is seen of a value: its kind and what it is printed as. -/
abbrev Shown := String × Except Fault Node

def Value.shown (v : Value) : Shown := (v.kindName, v.content)

def Binding.shown (b : Binding) : Name × Mark × Shown := (b.name, b.mark, b.value.shown)

/-- What is seen of a scope: the names that it binds, with their marks and values. -/
def Forest.shown (f : Forest) (id : ScopeId) : Option (List (Name × Mark × Shown)) :=
  (f.scope? id).map (·.bindings.map Binding.shown)

namespace Session

/-- What can be seen after a step. -/
structure Sight where
  result : Except StepFault (List Shown)
  events : List Event
  bindings : Option (List (Name × Mark × Shown))

def sight (o : Outcome) : Sight where
  result := o.1.map (·.map Value.shown)
  events := o.2.events.toList
  bindings := o.2.forest.shown Forest.root

def statementsBy (eval : Evaluator) (echo : Bool) (values : List Value) :
    List Node → Run (List Value)
  | [] => pure values.reverse
  | n :: rest => do
      let v ← eval n Forest.root
      if echo && !v.isNull then Run.write (← v.content)
      statementsBy eval echo (v :: values) rest

def programBy (eval : Evaluator) (echo : Bool) (tree : Node) : Run (List Value) := do
  statementsBy eval echo [] (← Content.parts (← bodyOf tree))

theorem statements_eq_statementsBy (echo : Bool) (values : List Value) (ns : List Node) :
    statements echo values ns = statementsBy (evaluate passLimit depthLimit) echo values ns := by
  induction ns generalizing values with
  | nil => rfl
  | cons n ns ih => simp only [statements, statementsBy, ih]

theorem program_eq_programBy (echo : Bool) (tree : Node) :
    program echo tree = programBy (evaluate passLimit depthLimit) echo tree := by
  simp only [program, programBy, statements_eq_statementsBy]

end Session

/-- The bounds on the depth of two runs of one tree: the one that is excused may have the lower. -/
def Slack.Allows : Slack → Nat → Nat → Prop
  | .none, d, d' => d = d'
  | .first, d, d' => d ≤ d'
  | .second, d, d' => d' ≤ d

namespace Comparison

variable {C : Comparison} {W V : Matching}

theorem shown_eq {v v' : Value} (h : C.Like W v v') : v.shown = v'.shown := by
  rw [Value.shown, Value.shown, h.kindName_eq, h.content_eq]

theorem shown_all_eq {vs vs' : List Value} (h : List.Forall₂ (C.Like W) vs vs') :
    vs.map Value.shown = vs'.map Value.shown := by
  induction h with
  | nil => rfl
  | cons hv _ ih => rw [List.map_cons, List.map_cons, shown_eq hv, ih]

theorem shown_bindings_eq {bs bs' : List Binding}
    (h : List.Forall₂ (Binding.Like C.bodies W) bs bs') :
    bs.map Binding.shown = bs'.map Binding.shown := by
  induction h with
  | nil => rfl
  | cons hb _ ih =>
    rw [List.map_cons, List.map_cons, ih, Binding.shown, Binding.shown, hb.name, hb.mark,
      shown_eq hb.value]

/-- Scopes that stand for each other show the same. -/
theorem shown_scope_eq {f f' : Forest} (ht : Tie C.bodies W f f') {a b : ScopeId}
    (hab : W.pair a b) : f.shown a = f'.shown b := by
  obtain ⟨s, s', hs, hs', hlike⟩ := ht.like hab
  rw [Forest.shown, Forest.shown, hs, hs', Option.map_some, Option.map_some,
    shown_bindings_eq hlike.bindings]

theorem follows_runBody_self {eval eval' : Evaluator} (h : C.Relates Eq eval eval') (block : Node)
    {s s' : ScopeId} (hs : W.pair s s') :
    C.Follows W C.Like (runBody eval block s) (runBody eval' block s') := by
  refine follows_bind (follows_same (blind_statementsOf block)) ?_
  rintro V ss _ hV rfl
  refine follows_bind (follows_lift rfl) ?_
  rintro U ns _ hU rfl
  exact follows_body h (Matching.pair_mono (hV.trans hU) hs) (bodies_self (fun _ => rfl) ns)

theorem carries_of_near (hB : C.bodies = Eq) {eval eval' : Evaluator}
    (h : ∀ (W : Matching) n s s', Near W n s s' → C.Follows W C.Like (eval n s) (eval' n s')) :
    C.Carries eval eval' where
  trees := by
    rintro V n _ c c' rfl hc
    exact h V n c c' (.inl hc)
  expressions he hs := h _ _ _ _ (.inr ⟨he, hs⟩)
  bodies := by
    intro W block block' s s' hblock hs
    rw [hB] at hblock
    subst hblock
    refine follows_runBody_self ?_ block hs
    rintro V n _ c c' rfl hc
    exact h V n c c' (.inl hc)
  bodies_refl block := by rw [hB]

theorem follows_of_first {P : Matching → Value → Value → Prop} (h : C.slack = .first) (passes : Nat)
    (n : Node) (s : ScopeId) (x' : Run Value) : C.Follows W P (evaluate passes 0 n s) x' := by
  intro V _ f f' _ m _
  refine .excused ?_
  rw [h]
  exact ⟨m.over f, rfl⟩

theorem follows_of_second {P : Matching → Value → Value → Prop} (h : C.slack = .second)
    (passes : Nat) (n : Node) (s : ScopeId) (x : Run Value) :
    C.Follows W P x (evaluate passes 0 n s) := by
  intro V _ f f' _ m _
  refine .excused ?_
  rw [h]
  exact ⟨m.over f', rfl⟩

/-- Evaluation of one tree ends alike. -/
theorem follows_evaluate (hB : C.bodies = Eq) (passes : Nat) {d d' : Nat}
    (hd : C.slack.Allows d d') {n : Node} {s s' : ScopeId} (hn : Near W n s s') :
    C.Follows W C.Like (evaluate passes d n s) (evaluate passes d' n s') := by
  induction d generalizing d' W n s s' with
  | zero =>
    cases hslack : C.slack with
    | none =>
      rw [hslack] at hd
      obtain rfl : 0 = d' := hd
      exact follows_throw _
    | first => exact follows_of_first hslack passes n s _
    | second =>
      rw [hslack] at hd
      obtain rfl : d' = 0 := Nat.le_zero.mp hd
      exact follows_of_second hslack passes n s' _
  | succ d ih =>
    cases d' with
    | zero =>
      cases hslack : C.slack with
      | none | first =>
        rw [hslack] at hd
        cases hd
      | second => exact follows_of_second hslack passes n s' _
    | succ d' =>
      have hd' : C.slack.Allows d d' := by
        cases hslack : C.slack with
        | none | first | second =>
          rw [hslack] at hd
          simp only [Slack.Allows] at hd ⊢
          omega
      have hcarries : C.Carries (evaluate passes d) (evaluate passes d') :=
        carries_of_near hB fun _ _ _ _ hn => ih hd' hn
      exact follows_rule hcarries passes hn

theorem carries_evaluate (hB : C.bodies = Eq) (passes : Nat) {d d' : Nat}
    (hd : C.slack.Allows d d') : C.Carries (evaluate passes d) (evaluate passes d') :=
  carries_of_near hB fun _ _ _ _ => follows_evaluate hB passes hd

theorem follows_write {line line' : Node} (h : line = line') :
    C.Follows W Any (Run.write line) (Run.write line') :=
  h ▸ (follows_same (blind_write line)).imp fun _ => trivial

theorem follows_statements {R : Node → Node → Prop} {eval eval' : Evaluator}
    (hR : C.Relates R eval eval') (echo : Bool) (hroot : W.pair Forest.root Forest.root)
    {ns ns' : List Node} (hns : List.Forall₂ R ns ns') {values values' : List Value}
    (hvalues : List.Forall₂ (C.Like W) values values') :
    C.Follows W (fun V => List.Forall₂ (C.Like V)) (Session.statementsBy eval echo values ns)
      (Session.statementsBy eval' echo values' ns') := by
  induction hns generalizing W values values' with
  | nil =>
    exact follows_pure fun hV => List.rel_reverse (like_all_mono hvalues hV)
  | cons hn _ ih =>
    refine follows_bind (hR.follows hn hroot) fun {V v v'} hV hv => ?_
    have hrest {U : Matching} (hU : V ≤ U) :=
      ih (Matching.pair_mono (hV.trans hU) hroot)
        (.cons (hv.mono hU) (like_all_mono hvalues (hV.trans hU)))
    rw [hv.isNull_eq]
    split
    · refine follows_bind (follows_lift hv.content_eq) fun hU hline => ?_
      exact follows_bind (follows_write hline) fun hT _ => hrest (hU.trans hT)
    · exact hrest (le_refl _)

theorem programBy_eq (eval : Evaluator) (echo : Bool) (tree : Node) :
    Session.programBy eval echo tree =
      Session.statementsIn tree >>= Session.statementsBy eval echo [] := by
  rw [Session.statementsIn, bind_assoc]
  rfl

theorem follows_program {R : Node → Node → Prop} {eval eval' : Evaluator}
    (hR : C.Relates R eval eval') (echo : Bool) (hroot : W.pair Forest.root Forest.root)
    {tree tree' : Node}
    (htree : C.Follows W (fun _ => List.Forall₂ R) (Session.statementsIn tree)
      (Session.statementsIn tree')) :
    C.Follows W (fun V => List.Forall₂ (C.Like V)) (Session.programBy eval echo tree)
      (Session.programBy eval' echo tree') := by
  rw [programBy_eq, programBy_eq]
  refine follows_bind htree fun hV hns => ?_
  exact follows_statements hR echo (Matching.pair_mono hV hroot) hns .nil

theorem blind_statementsIn (tree : Node) : Blind (Session.statementsIn tree) :=
  (blind_bodyOf tree).bind fun _ => blind_ofExcept _

theorem follows_program_self {eval eval' : Evaluator} (h : C.Relates Eq eval eval') (echo : Bool)
    (hroot : W.pair Forest.root Forest.root) (tree : Node) :
    C.Follows W (fun V => List.Forall₂ (C.Like V)) (Session.programBy eval echo tree)
      (Session.programBy eval' echo tree) := by
  refine follows_program h echo hroot ?_
  refine (follows_same (blind_statementsIn tree)).imp ?_
  rintro V ns _ rfl
  exact List.forall₂_same.mpr fun _ _ => rfl

theorem outreaches_statementsBy {eval eval' : Evaluator}
    (h : ∀ n s, Outreaches (eval n s) (eval' n s)) (echo : Bool) (values : List Value)
    (ns : List Node) :
    Outreaches (Session.statementsBy eval echo values ns)
      (Session.statementsBy eval' echo values ns) := by
  induction ns generalizing values with
  | nil => exact outreaches_refl _
  | cons n ns ih =>
    refine (h n Forest.root).bind fun v => ?_
    split
    · refine (outreaches_refl _).bind fun line => ?_
      exact (outreaches_refl _).bind fun _ => ih (v :: values)
    · exact ih (v :: values)

theorem rising_programBy (passes : Nat) (echo : Bool) (tree : Node) :
    Rising fun depth => Session.programBy (evaluate passes depth) echo tree := by
  intro depth depth' hd
  simp only [programBy_eq]
  refine (outreaches_refl _).bind (outreaches_statementsBy (fun n s => ?_) echo [])
  exact rising_evaluate passes n s depth depth' hd

/-- Two sessions have come to the same point: their machines differ in nothing but forests that are
alike, in a matching in which the root stands for itself. -/
structure Level (C : Comparison) (m m' : Machine) : Prop where
  level : m.debugLevel = C.level
  rest : m' = m.over m'.forest
  tie : ∃ W : Matching, Tie C.bodies W m.forest m'.forest ∧ W.pair Forest.root Forest.root

theorem Level.sight_eq {m m' : Machine} (h : C.Level m m')
    {r r' : Except Session.StepFault (List Value)}
    (hr : r.map (·.map Value.shown) = r'.map (·.map Value.shown)) :
    Session.sight (r, m) = Session.sight (r', m') := by
  obtain ⟨W, ht, hroot⟩ := h.tie
  have hevents : m.events = m'.events := by
    rw [h.rest]
    rfl
  rw [Session.sight, Session.sight, hr, hevents, shown_scope_eq ht hroot]

theorem level_over {n : Machine} (hn : n.debugLevel = C.level) {f f' : Forest}
    (ht : Tie C.bodies W f f') (hroot : W.pair Forest.root Forest.root) :
    C.Level (n.over f) (n.over f') :=
  ⟨hn, rfl, W, ht, hroot⟩

/-- A program that both sessions run. -/
theorem Level.tree (hB : C.bodies = Eq) (hslack : C.slack = .none) {m m' : Machine}
    (h : C.Level m m') (echo : Bool) (tree : Node) :
    Session.sight (Session.tree echo tree m) = Session.sight (Session.tree echo tree m') ∧
      C.Level (Session.tree echo tree m).2 (Session.tree echo tree m').2 := by
  obtain ⟨W, ht, hroot⟩ := h.tie
  have hcarries : C.Carries (evaluate Session.passLimit Session.depthLimit)
      (evaluate Session.passLimit Session.depthLimit) := by
    refine carries_evaluate hB Session.passLimit ?_
    rw [hslack]
    rfl
  have hends := follows_program_self hcarries.trees echo hroot tree W (le_refl _) _ _ ht m h.level
  rw [← h.rest] at hends
  change C.Ends W _ (Session.programBy _ echo tree m) _ at hends
  unfold Session.tree
  rw [Session.program_eq_programBy]
  generalize Session.programBy _ echo tree m = r, Session.programBy _ echo tree m' = r' at hends
  cases hends with
  | ok n hn hV ht' hvs =>
    have hlevel := level_over hn ht' (Matching.pair_mono hV hroot)
    exact ⟨hlevel.sight_eq (congrArg Except.ok (shown_all_eq hvs)), hlevel⟩
  | error fault n hn hV ht' =>
    have hlevel := level_over hn ht' (Matching.pair_mono hV hroot)
    exact ⟨hlevel.sight_eq rfl, hlevel⟩
  | excused hno =>
    rw [hslack] at hno
    cases hno

/-- One step of both sessions. -/
theorem Level.step (hB : C.bodies = Eq) (hslack : C.slack = .none) {m m' : Machine}
    (h : C.Level m m') (echo : Bool) (step : Session.Step) :
    Session.sight (step.run echo m) = Session.sight (step.run echo m') ∧
      C.Level (step.run echo m).2 (step.run echo m').2 := by
  cases step with
  | source text =>
    simp only [Session.Step.run, Session.source]
    split
    · exact ⟨h.sight_eq rfl, h⟩
    · exact h.tree hB hslack echo _
  | saved tree =>
    simp only [Session.Step.run, Session.saved]
    split
    · exact ⟨h.sight_eq rfl, h⟩
    · exact h.tree hB hslack echo _

/-- All further steps of both sessions show the same. -/
theorem Level.outcomes (hB : C.bodies = Eq) (hslack : C.slack = .none) {m m' : Machine}
    (h : C.Level m m') (steps : List (Bool × Session.Step)) :
    (Session.outcomes steps m).map Session.sight =
      (Session.outcomes steps m').map Session.sight := by
  induction steps generalizing m m' with
  | nil => rfl
  | cons step steps ih =>
    obtain ⟨echo, step⟩ := step
    obtain ⟨hsight, hlevel⟩ := h.step hB hslack echo step
    rw [Session.outcomes, Session.outcomes, List.map_cons, List.map_cons, hsight, ih hlevel]

end Comparison

/-- In every moment of a session functions close over captured scopes, and the root is there. -/
theorem Session.paired_of_mem_moments (ambient : Ambient) (debugLevel : Nat) (inputs : List String)
    (steps : List (Bool × Step)) {a : Moment}
    (ha : a ∈ moments steps (.fresh ambient debugLevel inputs)) :
    Paired (a.forest, a.forest) ∧ Forest.root < a.forest.scopes.size := by
  obtain ⟨hchain, hright⟩ := keeping_stable.session steps
    (m := .fresh ambient debugLevel inputs) paired_fresh whole_fresh
  refine ⟨(hright a ha).inv, ?_⟩
  have hlater : IsTrans Moment fun a b => Keeping a.forest b.forest := ⟨fun _ _ _ => .trans⟩
  have hpairs := (hchain.imp fun _ _ h => h.1).pairwise
  have hroot : (Machine.fresh ambient debugLevel inputs).forest.scope? Forest.root =
    some Library.root := rfl
  rcases List.mem_cons.mp ha with rfl | ha
  · exact lt_size_of_scope? hroot
  · obtain ⟨t, ht, -⟩ := (List.rel_of_pairwise_cons hpairs ha).grown.old hroot
    exact lt_size_of_scope? ht

end Script
