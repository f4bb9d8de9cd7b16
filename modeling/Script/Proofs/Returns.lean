import Script.Proofs.Sights

/-!
# Where `return` matters

Only a `return` among the statements of a function body itself ends a call. Everywhere else a
`return` does what its expression does, and what follows the first `return` of a body is never
run. So a program may be pruned: nothing that it shows changes, also where functions with pruned
bodies are stored, returned and called later.
-/
namespace Script

open Forest

namespace Node

mutual

/-- A tree in which every `return` that does not stand among the statements of a function body
itself is replaced by its expression, and every function body ends with its first `return`. -/
@[simp] def pruned : Node → Node
  | .list ss => .list (prunedAll ss)
  | .program body => .program (pruned body)
  | .block ss => .block (pruned ss)
  | .ifStmt test thenBlock elseBlock => .ifStmt test (pruned thenBlock) (pruned elseBlock)
  | .whileStmt test body => .whileStmt test (pruned body)
  | .forStmt init test update body => .forStmt init test update (pruned body)
  | .funcDecl name params body => .funcDecl name params (prunedBody body)
  | .returnStmt .null => .nullLiteral
  | .returnStmt value => value
  | n => n

@[simp] def prunedAll : List Node → List Node
  | [] => []
  | n :: rest => pruned n :: prunedAll rest

@[simp] def prunedBody : Node → Node
  | .block (.list ss) => .block (.list (upToReturn ss))
  | n => n

/-- The statements of a function body up to the first `return` among them. -/
@[simp] def upToReturn : List Node → List Node
  | [] => []
  | .returnStmt value :: _ => [.returnStmt value]
  | n :: rest => pruned n :: upToReturn rest

end

/-- The same tree, or a statement and the pruned one. -/
inductive Prunes : Node → Node → Prop
  | same (n) : Prunes n n
  | statement {n} (hn : n.Statement) : Prunes n n.pruned

/-- The same tree, or the body of a function and the pruned one. -/
inductive PrunesBody : Node → Node → Prop
  | same (n) : PrunesBody n n
  | body {ss} (hs : ∀ s ∈ ss, Statement s) :
      PrunesBody (.block (.list ss)) (.block (.list (upToReturn ss)))

theorem Expression.pruned_eq {n : Node} (h : n.Expression) : n.pruned = n := by
  cases h <;> simp only [pruned]

theorem Declaration.pruned_eq {n : Node} (h : n.Declaration) : n.pruned = n := by
  cases h <;> simp only [pruned]

theorem pruned_returnStmt {e : Node} (he : e.Expression) : (Node.returnStmt e).pruned = e := by
  cases he <;> simp only [pruned]

theorem Expression.ne_returnStmt {n : Node} (h : n.Expression) (value : Node) :
    n ≠ .returnStmt value := by
  rintro rfl
  cases h

/-- A pruned statement is no `return`. -/
theorem Statement.pruned_ne_returnStmt {n : Node} (h : n.Statement) (value : Node) :
    n.pruned ≠ .returnStmt value := by
  cases h with
  | expression he =>
    rw [he.pruned_eq]
    exact he.ne_returnStmt value
  | declaration hd =>
    rw [hd.pruned_eq]
    rintro rfl
    cases hd
  | returnValue he =>
    rw [pruned_returnStmt he]
    exact he.ne_returnStmt value
  | _ => simp

theorem forall₂_prunedAll {ss : List Node} (hs : ∀ s ∈ ss, Statement s) :
    List.Forall₂ Prunes ss (prunedAll ss) := by
  induction ss with
  | nil =>
    rw [prunedAll]
    exact .nil
  | cons s ss ih =>
    obtain ⟨hs, hss⟩ := List.forall_mem_cons.mp hs
    rw [prunedAll]
    exact .cons (.statement hs) (ih hss)

theorem bodies_upToReturn {ss : List Node} (hs : ∀ s ∈ ss, Statement s) :
    Comparison.Bodies Prunes ss (upToReturn ss) := by
  induction ss with
  | nil =>
    rw [upToReturn]
    exact .nil
  | cons s ss ih =>
    obtain ⟨hs, hss⟩ := List.forall_mem_cons.mp hs
    by_cases hreturn : ∃ value, s = .returnStmt value
    · obtain ⟨value, rfl⟩ := hreturn
      rw [upToReturn]
      exact .last (.same _) ss []
    · have hne : ∀ value, s ≠ .returnStmt value := not_exists.mp hreturn
      rw [upToReturn]
      · exact .cons hne hs.pruned_ne_returnStmt (.statement hs) (ih hss)
      · exact hne

/-- Blocks of statements, and the pruned ones. -/
theorem blocks_pruned {ss : List Node} (hs : ∀ s ∈ ss, Statement s) :
    Comparison.Blocks Prunes (.block (.list ss)) (Node.pruned (.block (.list ss))) := by
  rw [pruned, pruned]
  exact .block (.ok (forall₂_prunedAll hs))

end Node

open Node (Prunes PrunesBody)

/-- The bounds on the depth of a run and of the run of the pruned program: without its `return`s a
program nests less deep, by no more than half. -/
def Slack.Prunes : Slack → Nat → Nat → Prop
  | .none, _, _ => False
  | .first, d, d' => d ≤ d'
  | .second, d, d' => 2 * d' ≤ d

theorem Slack.Prunes.imp {slack : Slack} {d d' e e' : Nat} (h : slack.Prunes d d')
    (hfirst : d ≤ d' → e ≤ e') (hsecond : 2 * d' ≤ d → 2 * e' ≤ e) : slack.Prunes e e' := by
  cases slack with
  | none => exact h
  | first => exact hfirst h
  | second => exact hsecond h

namespace Comparison

variable {C : Comparison} {W : Matching}

/-- One bound too few for one of the runs, which is excused. -/
theorem follows_of_zero {d d' : Nat} (hd : C.slack.Prunes d d') (h : d = 0 ∨ d' = 0) (passes : Nat)
    (n n' : Node) (s s' : ScopeId) :
    C.Follows W C.Like (evaluate passes d n s) (evaluate passes d' n' s') := by
  cases hslack : C.slack with
  | none =>
    rw [hslack] at hd
    cases hd
  | first =>
    rw [hslack] at hd
    obtain rfl : d = 0 := by
      simp only [Slack.Prunes] at hd
      omega
    exact follows_of_first hslack passes n s _
  | second =>
    rw [hslack] at hd
    obtain rfl : d' = 0 := by
      simp only [Slack.Prunes] at hd
      omega
    exact follows_of_second hslack passes n' s' _

/-- Two ways to evaluate trees that agree on statements and the pruned ones. -/
theorem carries_of_prunes (hB : C.bodies = PrunesBody) {eval eval' : Evaluator}
    (hnear : ∀ (W : Matching) n s s', Near W n s s' → C.Follows W C.Like (eval n s) (eval' n s'))
    (hprunes : C.Relates Prunes eval eval') : C.Carries eval eval' where
  trees := by
    rintro V n _ c c' rfl hc
    exact hnear V n c c' (.inl hc)
  expressions he hs := hnear _ _ _ _ (.inr ⟨he, hs⟩)
  bodies := by
    intro W block block' s s' hblock hs
    rw [hB] at hblock
    cases hblock with
    | same =>
      refine follows_runBody_self ?_ block hs
      rintro V n _ c c' rfl hc
      exact hnear V n c c' (.inl hc)
    | body hss => exact follows_body hprunes hs (Node.bodies_upToReturn hss)
  bodies_refl block := by
    rw [hB]
    exact .same block

/-- One step: a statement and the pruned one, if the parts of both end alike. -/
theorem follows_pruned_rule (hB : C.bodies = PrunesBody) (passes : Nat) {eval eval' : Evaluator}
    (hcarries : C.Carries eval eval') (hprunes : C.Relates Prunes eval eval') {n : Node}
    (hn : n.Statement) (hreturn : ∀ e, n ≠ .returnStmt e) {s s' : ScopeId} (hs : W.pair s s') :
    C.Follows W C.Like (Evaluate.rule passes eval n s)
      (Evaluate.rule passes eval' n.pruned s') := by
  have hsees : W.Sees s s' := .pair hs
  have hpart (e : Node) : C.Follows W C.Like (eval e s) (eval' e s') :=
    hprunes.follows (.same e) hs
  cases hn with
  | expression he =>
    rw [he.pruned_eq]
    exact follows_rule hcarries passes (.inl hs)
  | declaration hd =>
    rw [hd.pruned_eq]
    exact follows_rule hcarries passes (.inl hs)
  | block hss =>
    rw [Node.pruned, Node.pruned]
    refine follows_bind (follows_inOwnScope hprunes hsees ?_) fun _ _ => follows_made .null
    exact .ok (Node.forall₂_prunedAll hss)
  | empty => exact follows_made .null
  | function hx hp hss =>
    rw [Node.pruned, Node.prunedBody]
    refine follows_funcDecl hs _ _ ?_
    rw [hB]
    exact .body hss
  | ifThen he hss =>
    rw [Node.pruned]
    exact follows_ifStmt hprunes hsees (hpart _) (Node.blocks_pruned hss) (.other nofun)
  | ifElse he hss hrs =>
    rw [Node.pruned]
    exact follows_ifStmt hprunes hsees (hpart _) (Node.blocks_pruned hss) (Node.blocks_pruned hrs)
  | «while» he hss =>
    rw [Node.pruned]
    exact follows_whileStmt hprunes hsees passes (hpart _) (Node.blocks_pruned hss)
  | «for» hi he hu hss =>
    rw [Node.pruned]
    exact follows_forStmt hprunes hsees passes (.same _) (.same _) (.same _)
      (Node.blocks_pruned hss)
  | returnNothing | returnValue => exact absurd rfl (hreturn _)
  | delete hx => exact follows_rule hcarries passes (.inl hs)

theorem valueIfAny_expression {e : Node} (he : e.Expression) (eval : Evaluator) (s : ScopeId) :
    Evaluate.valueIfAny eval e s = eval e s := by
  cases he <;> rfl

/-- A `return` that ends no call does what its expression does. -/
theorem follows_pruned_return (passes : Nat) {k k' : Nat} (hd : C.slack.Prunes (k + 1) (k' + 1))
    (hcarries : ∀ j, j + 1 = k → C.Carries (evaluate passes j) (evaluate passes k')) {e : Node}
    (hn : (Node.returnStmt e).Statement) {s s' : ScopeId} (hs : W.pair s s') :
    C.Follows W C.Like (evaluate passes (k + 1) (.returnStmt e) s)
      (evaluate passes (k' + 1) (Node.returnStmt e).pruned s') := by
  cases hn with
  | expression he => cases he
  | declaration hd => cases hd
  | returnNothing =>
    rw [Node.pruned]
    exact follows_made .null
  | returnValue he =>
    have hvalue : evaluate passes (k + 1) (.returnStmt e) s = evaluate passes k e s :=
      valueIfAny_expression he _ s
    rw [hvalue, Node.pruned_returnStmt he]
    cases k with
    | zero =>
      have hzero : C.slack.Prunes 0 (k' + 1) := hd.imp (by omega) (by omega)
      exact follows_of_zero hzero (.inl rfl) passes e e s s'
    | succ j => exact follows_rule (hcarries j rfl) passes (.inl hs)

/-- Evaluation of a tree, of an expression past blank scopes, and of a statement and the pruned
one. -/
theorem follows_pruned_evaluate (hB : C.bodies = PrunesBody) (passes : Nat) {d d' : Nat}
    (hd : C.slack.Prunes d d') :
    (∀ (W : Matching) n s s', Near W n s s' →
      C.Follows W C.Like (evaluate passes d n s) (evaluate passes d' n s')) ∧
    C.Relates Prunes (evaluate passes d) (evaluate passes d') := by
  -- the parts of a `return` are two levels below it, but one below its expression
  induction d using Nat.strongRecOn generalizing d' with
  | ind d ih =>
    by_cases hzero : d = 0 ∨ d' = 0
    · exact ⟨fun _ n s s' _ => follows_of_zero hd hzero passes n n s s',
        fun _ n n' s s' _ _ => follows_of_zero hd hzero passes n n' s s'⟩
    obtain ⟨k, rfl⟩ := Nat.exists_eq_succ_of_ne_zero fun h => hzero (.inl h)
    obtain ⟨k', rfl⟩ := Nat.exists_eq_succ_of_ne_zero fun h => hzero (.inr h)
    have hcarries {j : Nat} (hj : j < k + 1) (hjk : C.slack.Prunes j k') :
        C.Carries (evaluate passes j) (evaluate passes k') :=
      carries_of_prunes hB (ih j hj hjk).1 (ih j hj hjk).2
    have hk : C.slack.Prunes k k' := hd.imp (by omega) (by omega)
    have hnear (W : Matching) n s s' (hn : Near W n s s') :
        C.Follows W C.Like (evaluate passes (k + 1) n s) (evaluate passes (k' + 1) n s') :=
      follows_rule (hcarries (Nat.lt_succ_self k) hk) passes hn
    refine ⟨hnear, ?_⟩
    intro W n n' s s' hnn' hs
    cases hnn' with
    | same => exact hnear W n s s' (.inl hs)
    | statement hn =>
      by_cases hreturn : ∃ e, n = .returnStmt e
      · obtain ⟨e, rfl⟩ := hreturn
        refine follows_pruned_return passes hd (fun j hj => ?_) hn hs
        exact hcarries (by omega) (hd.imp (by omega) (by omega))
      · exact follows_pruned_rule hB passes (hcarries (Nat.lt_succ_self k) hk)
          (ih k (Nat.lt_succ_self k) hk).2 hn (not_exists.mp hreturn) hs

/-- A program and the pruned one. -/
theorem follows_pruned_program (hB : C.bodies = PrunesBody) (passes : Nat) {d d' : Nat}
    (hd : C.slack.Prunes d d') (echo : Bool) {tree : Node} (htree : tree.WellFormed)
    (hroot : W.pair Forest.root Forest.root) :
    C.Follows W (fun V => List.Forall₂ (C.Like V))
      (Session.programBy (evaluate passes d) echo tree)
      (Session.programBy (evaluate passes d') echo tree.pruned) := by
  obtain ⟨hss⟩ := htree
  refine follows_program (follows_pruned_evaluate hB passes hd).2 echo hroot ?_
  rw [Node.pruned, Node.pruned]
  exact follows_pure fun _ => Node.forall₂_prunedAll hss

end Comparison

namespace Session

def outcomeOf : EStateM.Result Fault Machine (List Value) → Outcome
  | .ok values m => (.ok values, m)
  | .error fault m => (.error (.run fault), m)

theorem tree_eq_outcomeOf (echo : Bool) (node : Node) (m : Machine) :
    tree echo node m = outcomeOf (program echo node m) := by
  unfold tree
  cases program echo node m <;> rfl

end Session

open Session

/-- Runs of programs that end alike show the same, unless one is excused. -/
theorem Comparison.Ends.sight_eq {C : Comparison} {W : Matching}
    (hroot : W.pair Forest.root Forest.root) {r r' : EStateM.Result Fault Machine (List Value)}
    (h : C.Ends W (fun V => List.Forall₂ (C.Like V)) r r') (hno : ¬ C.slack.Excuses r r') :
    sight (outcomeOf r) = sight (outcomeOf r') ∧ (TooDeep r ↔ TooDeep r') := by
  cases h with
  | ok n hn hV ht hvs =>
    have hlevel := level_over hn ht (Matching.pair_mono hV hroot)
    refine ⟨hlevel.sight_eq (congrArg Except.ok (shown_all_eq hvs)), ?_⟩
    simp [TooDeep]
  | error fault n hn hV ht =>
    have hlevel := level_over hn ht (Matching.pair_mono hV hroot)
    refine ⟨hlevel.sight_eq rfl, ?_⟩
    simp [TooDeep]
  | excused h => exact absurd h hno

section Programs

variable {m : Machine} (hpaired : Paired (m.forest, m.forest))
  (hroot : Forest.root < m.forest.scopes.size) {tree : Node} (htree : tree.WellFormed)
  (echo : Bool) (passes : Nat)

include hpaired hroot htree

theorem sight_pruned (slack : Slack) {d d' : Nat} (hd : slack.Prunes d d')
    (hno : ¬ slack.Excuses (programBy (evaluate passes d) echo tree m)
      (programBy (evaluate passes d') echo tree.pruned m)) :
    sight (outcomeOf (programBy (evaluate passes d) echo tree m)) =
        sight (outcomeOf (programBy (evaluate passes d') echo tree.pruned m)) ∧
      (TooDeep (programBy (evaluate passes d) echo tree m) ↔
        TooDeep (programBy (evaluate passes d') echo tree.pruned m)) := by
  let C : Comparison := ⟨PrunesBody, slack, m.debugLevel⟩
  have ht : Tie C.bodies (.self m.forest) m.forest m.forest := hpaired.tie .same
  have hpair : (Matching.self m.forest).pair Forest.root Forest.root := ⟨rfl, hroot⟩
  have h := C.follows_pruned_program rfl passes hd echo htree hpair _ (le_refl _) _ _ ht m rfl
  exact h.sight_eq hpair hno

end Programs

namespace Session

/-- Only at the top level of a function body `return` matters. Whenever a session has come
somewhere, a program from the parser and the pruned one show the same: what their values are
printed as or their fault, what happens outside them, debug messages included, and the bindings of
the root scope. With every bound on the passes of loops, one of them comes to something exactly if
the other does; and if the program itself is not too deep for a session, the pruned one shows the
same there. -/
theorem returns_matter_only_at_the_top_of_bodies (ambient : Ambient) (debugLevel : Nat)
    (inputs : List String) (steps : List (Bool × Step)) {a : Moment}
    (ha : a ∈ moments steps (.fresh ambient debugLevel inputs)) {m : Machine}
    (hm : m.forest = a.forest) {tree : Node} (htree : tree.WellFormed) (echo : Bool) :
    (∀ passes, Concurs (fun r r' => sight (outcomeOf r) = sight (outcomeOf r'))
      (fun depth => programBy (evaluate passes depth) echo tree)
      (fun depth => programBy (evaluate passes depth) echo tree.pruned) m) ∧
    (¬ TooDeep (program echo tree m) →
      sight (Session.tree echo tree m) = sight (Session.tree echo tree.pruned m)) := by
  obtain ⟨hpaired, hroot⟩ := paired_of_mem_moments ambient debugLevel inputs steps ha
  rw [← hm] at hpaired hroot
  refine ⟨fun passes => concurs_of_settles (Comparison.rising_programBy passes echo _) ?_ ?_,
    fun hdeep => ?_⟩
  · rintro r ⟨d, rfl, hdeep⟩
    obtain ⟨hsight, hiff⟩ :=
      sight_pruned hpaired hroot htree echo passes .first (Nat.le_refl d) hdeep
    exact ⟨_, ⟨d, rfl, fun h => hdeep (hiff.mpr h)⟩, hsight⟩
  · rintro r' ⟨d, rfl, hdeep⟩
    obtain ⟨-, hiff⟩ :=
      sight_pruned hpaired hroot htree echo passes .second (Nat.le_refl (2 * d)) hdeep
    exact ⟨_, 2 * d, rfl, fun h => hdeep (hiff.mp h)⟩
  · rw [tree_eq_outcomeOf, tree_eq_outcomeOf, program_eq_programBy, program_eq_programBy]
    rw [program_eq_programBy] at hdeep
    exact (sight_pruned hpaired hroot htree echo passLimit .first (Nat.le_refl depthLimit) hdeep).1

/-- A nested `return`, one that ends a call, one after it and one outside of all functions. -/
theorem returns_matter_in_one_place :
    let m := Machine.fresh (.seeded 0 0) 0 []
    let yes := Node.booleanLiteral (.boolean true)
    let call := Node.call (.text "f") (.list [])
    let function (ss : List Node) := Node.funcDecl (.text "f") (.list []) (.block (.list ss))
    let tree := Node.program (.list [
      function [.ifStmt yes (.block (.list [.returnStmt .null])) .null, .returnStmt yes,
        .returnStmt .null],
      .returnStmt call])
    let pruned := Node.program (.list [
      function [.ifStmt yes (.block (.list [.nullLiteral])) .null, .returnStmt yes],
      call])
    sight (Session.tree false tree m) = sight (Session.tree false pruned m) := by
  intro m yes call function tree pruned
  have hpruned : tree.pruned = pruned := by
    simp only [tree, pruned, function, call, yes, Node.pruned, Node.prunedAll, Node.prunedBody,
      Node.upToReturn]
  have htree : tree.WellFormed := by
    have hcall : call.Expression := .call (by decide) nofun
    have hf : Node.Statement (function [.ifStmt yes (.block (.list [.returnStmt .null])) .null,
        .returnStmt yes, .returnStmt .null]) := by
      refine @Node.Statement.function "f" [] _ (by decide) nofun ?_
      simp only [List.mem_cons, List.not_mem_nil, or_false]
      rintro s (rfl | rfl | rfl)
      · refine .ifThen (.boolean true) ?_
        simp only [List.mem_singleton]
        rintro s rfl
        exact .returnNothing
      · exact .returnValue (.boolean true)
      · exact .returnNothing
    refine .program ?_
    simp only [List.mem_cons, List.not_mem_nil, or_false]
    rintro s (rfl | rfl)
    · exact hf
    · exact .returnValue hcall
  have hdeep : ¬ TooDeep (program false tree m) := by
    have h : ((program false tree).run' m).isSome := by decide +kernel
    rintro ⟨n, hn⟩
    unfold EStateM.run' EStateM.run at h
    rw [hn] at h
    cases h
  rw [← hpruned]
  exact (returns_matter_only_at_the_top_of_bodies (.seeded 0 0) 0 [] [] List.mem_cons_self
    (m := m) rfl htree false).2 hdeep

end Session

end Script
