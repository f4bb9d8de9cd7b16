import Script.Proofs.Course
import Script.Proofs.Concatenation
import Script.Proofs.Coupling

/-!
# The moments of a run

A run passes through moments: the evaluation of a tree begins or ends, or there has been an
operation on the scopes. They are read off the courses of the rules, in their order, for an
evaluation, a program and a whole session, whether they end well or with a fault.
-/
namespace Script

/-- What makes a moment: the evaluation of a tree begins, or ends with a value unless there is a
fault, or the scopes may have changed. -/
inductive Occasion where
  | begins (n : Node) (scope : ScopeId)
  | ends (value? : Option Value)
  | changed

structure Moment where
  occasion : Occasion
  forest : Forest

def Moment.closing : EStateM.Result Fault Machine Value → Moment
  | .ok v m => ⟨.ends (some v), m.forest⟩
  | .error _ m => ⟨.ends none, m.forest⟩

/-- The moments in which parts of a tree are evaluated. -/
abbrev History := Node → ScopeId → Machine → List Moment

/-- The moments of a computation, in their order. -/
def Course.moments (eval : Evaluator) (history : History) :
    {α : Type} → {x : Evaluator → Run α} → Course x → Machine → List Moment
  | _, _, quiet _ _, _ | _, _, log _, _ => []
  | _, _, scopes action, m => [⟨.changed, (machineOf (Run.scopes action m)).forest⟩]
  | _, _, capture id, m => [⟨.changed, m.forest.capture id⟩]
  | _, _, part n scope, m => history n scope m
  | _, _, @seq _ _ x _ first next, m =>
      first.moments eval history m ++
        afterwards (fun a => (next a).moments eval history) (x eval m)
  | _, _, @within _ parent body inner, m =>
      let id := m.forest.scopes.size
      let start := m.inside parent
      let stop := machineOf (body id eval start)
      ⟨.changed, start.forest⟩ :: (inner id).moments eval history start ++
        [⟨.changed, stop.forest.leave stop.discards id⟩]

def history (passes : Nat) : (depth : Nat) → History
  | 0, n, scope, m => [⟨.begins n scope, m.forest⟩, .closing (evaluate passes 0 n scope m)]
  | depth + 1, n, scope, m =>
      ⟨.begins n scope, m.forest⟩ ::
        (Course.rule passes n scope).moments (evaluate passes depth) (history passes depth) m ++
        [.closing (evaluate passes (depth + 1) n scope m)]

namespace Session

def statementsMoments (echo : Bool) : List Node → Machine → List Moment
  | [], _ => []
  | n :: rest, m =>
      history passLimit depthLimit n Forest.root m ++
        afterwards (fun _ => statementsMoments echo rest) (statement echo n m)

def statementsIn (tree : Node) : Run (List Node) := do Content.parts (← bodyOf tree)

theorem program_eq (echo : Bool) (tree : Node) :
    program echo tree = statementsIn tree >>= statements echo [] := by
  rw [statementsIn, bind_assoc]
  rfl

def treeMoments (echo : Bool) (tree : Node) (m : Machine) : List Moment :=
  afterwards (statementsMoments echo) (statementsIn tree m)

def Step.moments (echo : Bool) (step : Step) (m : Machine) : List Moment :=
  match step with
  | .source text =>
      match Node.ofSource text with
      | .error _ => []
      | .ok tree => treeMoments echo tree m
  | .saved j =>
      match Node.ofJson j with
      | .error _ => []
      | .ok tree => treeMoments echo tree m

/-- The moments of a session, from the one before its first step on. -/
def moments (steps : List (Bool × Step)) (m : Machine) : List Moment :=
  ⟨.changed, m.forest⟩ :: go steps m
where
  go : List (Bool × Step) → Machine → List Moment
    | [], _ => []
    | (echo, step) :: rest, m => step.moments echo m ++ go rest (step.run echo m).2

def after : List (Bool × Step) → Machine → Machine
  | [], m => m
  | (echo, step) :: rest, m => after rest (step.run echo m).2

theorem closing_mem_history (passes depth : Nat) (n : Node) (scope : ScopeId) (m : Machine) :
    Moment.closing (evaluate passes depth n scope m) ∈ history passes depth n scope m := by
  cases depth <;> simp [history]

theorem forest_closing (r : EStateM.Result Fault Machine Value) :
    (Moment.closing r).forest = (machineOf r).forest := by
  cases r <;> rfl

/-- The echo of a statement leaves the scopes alone. -/
theorem forest_statement (echo : Bool) (n : Node) (m : Machine) :
    (machineOf (statement echo n m)).forest =
      (machineOf (evaluate passLimit depthLimit n Forest.root m)).forest := by
  refine forest_bind_of_blind (fun v => ?_) m
  split
  · exact (blind_ofExcept _).bind fun _ => (blind_write _).bind fun _ => blind_pure v
  · exact blind_pure v

/-- Where statements have come to, they come in a moment, unless there are none. -/
theorem exists_moment_statements (echo : Bool) (ns : List Node) (values : List Value)
    (m : Machine) :
    ∃ a ∈ ⟨.changed, m.forest⟩ :: statementsMoments echo ns m,
      a.forest = (machineOf (statements echo values ns m)).forest := by
  induction ns generalizing values m with
  | nil => exact ⟨_, List.mem_cons_self, rfl⟩
  | cons n ns ih =>
    have hstatement := forest_statement echo n m
    have hclosing : ∃ a ∈ history passLimit depthLimit n Forest.root m,
        a.forest = (machineOf (statement echo n m)).forest :=
      ⟨_, closing_mem_history .., (forest_closing _).trans hstatement.symm⟩
    obtain ⟨a, ha, hforest⟩ := hclosing
    simp only [statementsMoments, statements_cons, bind, EStateM.bind]
    cases hrun : statement echo n m with
    | error fault k =>
      rw [hrun] at hforest
      exact ⟨a, List.mem_cons_of_mem _ (List.mem_append_left _ ha), hforest⟩
    | ok v k =>
      rw [hrun] at hforest
      obtain ⟨b, hb, hend⟩ := ih (v :: values) k
      rcases List.mem_cons.mp hb with rfl | hb
      · exact ⟨a, List.mem_cons_of_mem _ (List.mem_append_left _ ha), hforest.trans hend⟩
      · exact ⟨b, List.mem_cons_of_mem _ (List.mem_append_right _ hb), hend⟩

theorem exists_moment_tree (echo : Bool) (n : Node) (m : Machine) :
    ∃ a ∈ ⟨.changed, m.forest⟩ :: treeMoments echo n m,
      a.forest = (tree echo n m).2.forest := by
  have hblind : Blind (statementsIn n) := (blind_bodyOf n).bind fun _ => blind_ofExcept _
  have hforest := hblind.forest m
  have htree : (tree echo n m).2 = machineOf (program echo n m) := by
    simp only [tree]
    cases program echo n m <;> rfl
  rw [htree, program_eq, treeMoments]
  simp only [bind, EStateM.bind]
  cases hrun : statementsIn n m with
  | error fault k =>
    rw [hrun] at hforest
    exact ⟨_, List.mem_cons_self, hforest.symm⟩
  | ok ns k =>
    rw [hrun] at hforest
    have hstart : m.forest = k.forest := hforest.symm
    rw [hstart]
    exact exists_moment_statements echo ns [] k

theorem exists_moment_step (echo : Bool) (step : Step) (m : Machine) :
    ∃ a ∈ ⟨.changed, m.forest⟩ :: step.moments echo m,
      a.forest = (step.run echo m).2.forest := by
  cases step with
  | source text =>
    simp only [Step.moments, Step.run, source]
    cases Node.ofSource text with
    | error fault => exact ⟨_, List.mem_cons_self, rfl⟩
    | ok n => exact exists_moment_tree echo n m
  | saved j =>
    simp only [Step.moments, Step.run, saved]
    cases Node.ofJson j with
    | error fault => exact ⟨_, List.mem_cons_self, rfl⟩
    | ok n => exact exists_moment_tree echo n m

/-- What holds in the moments of a session holds where its steps leave it. -/
theorem exists_moment_after (steps : List (Bool × Step)) (m : Machine) :
    ∃ a ∈ moments steps m, a.forest = (after steps m).forest := by
  induction steps generalizing m with
  | nil => exact ⟨_, List.mem_cons_self, rfl⟩
  | cons step steps ih =>
    obtain ⟨echo, step⟩ := step
    obtain ⟨b, hb, hend⟩ := ih (step.run echo m).2
    rcases List.mem_cons.mp hb with rfl | hb
    · obtain ⟨a, ha, hforest⟩ := exists_moment_step echo step m
      rcases List.mem_cons.mp ha with rfl | ha
      · exact ⟨_, List.mem_cons_self, hforest.trans hend⟩
      · exact ⟨a, List.mem_cons_of_mem _ (List.mem_append_left _ ha), hforest.trans hend⟩
    · exact ⟨b, List.mem_cons_of_mem _ (List.mem_append_right _ hb), hend⟩

/-- A session that makes a closure over a number, calls it, and ends with a fault in a block
within a block. -/
def closureSteps : List (Bool × String) :=
  [(false, "function make(n) \x7b \x7b var k = n / 4; \x7d "
      ++ "function step() \x7b n++; return n; \x7d return step; \x7d"),
    (true, "var step = make(0.1); step(); "
      ++ "\x7b const t = ['x', step()]; \x7b missing; \x7d \x7d")]

def closureMachine : Machine := after (sources closureSteps) (.fresh (.seeded 0 0) 0 [])

end Session

end Script
