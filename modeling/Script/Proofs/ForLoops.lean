import Script.Proofs.Sights

/-!
# `for` is `while` with a scope of its own

A `for` statement and the block of its initialization and a `while` loop cannot be told apart below
the debug level from which on loops leave messages. The block makes one more scope in every pass, in
which the update runs. It stays blank, so no name is ever found in it, and it stands for nothing in
the forest that the `for` statement makes.
-/
namespace Script

open Forest

/-- The block that a `for` statement comes to: its initialization, and a loop whose passes run its
body and its update. -/
def Node.whileForm (init test update body : Node) : Node :=
  .block (.list [init, .whileStmt test (.block (.list [body, update]))])

namespace Comparison

variable {C : Comparison} {W : Matching}

theorem discard_return {α : Type} (x : Run Unit) (a : α) : discard (x >>= fun _ => pure a) = x := by
  change ((x >>= fun _ => pure a) >>= fun _ => pure ()) = x
  rw [bind_assoc]
  exact bind_pure_unit

theorem discard_then {α : Type} (x : Run α) : (discard x >>= fun _ => pure ()) = discard x :=
  bind_pure_unit

/-- A pass of the `while` form. -/
theorem blockIn_pass (passes depth : Nat) (ss update : Node) (s : ScopeId) :
    Evaluate.blockIn (evaluate passes (depth + 1)) (.block (.list [.block ss, update])) s =
      Run.within s fun blank =>
        Evaluate.inOwnScope (evaluate passes depth) ss blank >>= fun _ =>
          discard (evaluate passes (depth + 1) update blank) := by
  have h (blank : ScopeId) :
      Evaluate.sequence (evaluate passes (depth + 1)) blank [.block ss, update] =
        (Evaluate.inOwnScope (evaluate passes depth) ss blank >>= fun _ =>
          discard (evaluate passes (depth + 1) update blank)) := by
    have hblock : discard (evaluate passes (depth + 1) (.block ss) blank) =
        Evaluate.inOwnScope (evaluate passes depth) ss blank := discard_return _ Value.null
    rw [Evaluate.sequence, hblock, Evaluate.sequence, Evaluate.sequence, discard_then]
  exact congrArg (Run.within s) (funext h)

def announced (opening : String) (condition : Run Bool) (pass : Run Unit) (passes : Nat) :
    Run Unit := do
  let count ← Evaluate.loop condition pass passes 0
  Run.log 3 fun _ => .ok (.text (opening ++ toString count ++ " iterations"))

theorem whileStmt_eq (passes : Nat) (eval : Evaluator) (test body : Node) (s : ScopeId) :
    Evaluate.whileStmt passes eval test body s =
      (announced "while loop finished after " (Evaluate.condition eval test s)
        (Evaluate.blockIn eval body s) passes >>= fun _ => pure .null) := by
  rw [announced, bind_assoc]
  rfl

theorem evaluate_whileForm (passes depth : Nat) (init test update ss : Node) (s : ScopeId) :
    evaluate passes (depth + 3) (.whileForm init test update (.block ss)) s =
      (Run.within s (fun inner =>
        discard (evaluate passes (depth + 2) init inner) >>= fun _ =>
          announced "while loop finished after "
            (Evaluate.condition (evaluate passes (depth + 1)) test inner)
            (Evaluate.blockIn (evaluate passes (depth + 1)) (.block (.list [.block ss, update]))
              inner) passes) >>= fun _ => pure .null) := by
  have h (inner : ScopeId) : Evaluate.sequence (evaluate passes (depth + 2)) inner
      [init, .whileStmt test (.block (.list [.block ss, update]))] =
        (discard (evaluate passes (depth + 2) init inner) >>= fun _ =>
          announced "while loop finished after "
            (Evaluate.condition (evaluate passes (depth + 1)) test inner)
            (Evaluate.blockIn (evaluate passes (depth + 1)) (.block (.list [.block ss, update]))
              inner) passes) := by
    have hwhile : discard (evaluate passes (depth + 2)
        (.whileStmt test (.block (.list [.block ss, update]))) inner) = _ :=
      (congrArg discard (whileStmt_eq passes _ test _ inner)).trans (discard_return _ Value.null)
    rw [Evaluate.sequence, Evaluate.sequence, hwhile, Evaluate.sequence]
    exact congrArg _ (funext fun _ => bind_pure_unit)
  exact congrArg (· >>= fun _ => pure Value.null) (congrArg (Run.within s) (funext h))

theorem evaluate_forStmt (passes depth : Nat) (init test update body : Node) (s : ScopeId) :
    evaluate passes (depth + 1) (.forStmt init test update body) s =
      (Run.within s (fun inner =>
        discard (evaluate passes depth init inner) >>= fun _ =>
          announced "for loop finished after "
            (Evaluate.condition (evaluate passes depth) test inner)
            (Evaluate.blockIn (evaluate passes depth) body inner >>= fun _ =>
              discard (evaluate passes depth update inner))
            passes) >>= fun _ => pure .null) :=
  rfl

theorem follows_announced (hlevel : C.level < 3) {c c' : Run Bool} {b b' : Run Unit}
    (hc : C.Follows W Same c c') (hb : C.Follows W Any b b') (opening opening' : String)
    (passes : Nat) :
    C.Follows W Any (announced opening c b passes) (announced opening' c' b' passes) :=
  follows_bind (follows_loop hc hb passes 0) fun _ _ => follows_silence hlevel _ _

/-- The update runs in a blank scope. -/
theorem follows_pass (passes : Nat) {d d' : Nat} {ss update : Node} {s s' : ScopeId}
    (hstatements : C.Carries (evaluate passes d) (evaluate passes d'))
    (hparts : C.Carries (evaluate passes d) (evaluate passes (d' + 1)))
    (hupdate : update.Expression) (hs : W.pair s s') :
    C.Follows W Any
      (Evaluate.blockIn (evaluate passes d) (.block ss) s >>= fun _ =>
        discard (evaluate passes d update s))
      (Evaluate.blockIn (evaluate passes (d' + 1)) (.block (.list [.block ss, update])) s') := by
  rw [blockIn_pass]
  refine follows_within_blank (.pair hs) fun {V blank} hV hblank => ?_
  have hsees : V.Sees s blank := .blank hblank (.pair (Matching.pair_mono hV hs))
  have hbody := follows_inOwnScope hstatements.trees hsees (parts_agree (fun _ => rfl) ss)
  refine follows_bind hbody fun hU _ => ?_
  exact follows_discard (hparts.expressions hupdate (hsees.mono hU))

/-- A `for` statement and its `while` form, at depths that allow for how much deeper the latter
nests. -/
theorem follows_whileForm (hB : C.bodies = Eq) (hlevel : C.level < 3) (passes : Nat) {d d' : Nat}
    (hd : C.slack.Allows d d') (hd₁ : C.slack.Allows d (d' + 1)) (hd₂ : C.slack.Allows d (d' + 2))
    (init test : Node) {update : Node} (hupdate : update.Expression) (ss : Node) {s s' : ScopeId}
    (hs : W.pair s s') :
    C.Follows W (fun _ v v' => v = .null ∧ v' = .null)
      (evaluate passes (d + 1) (.forStmt init test update (.block ss)) s)
      (evaluate passes (d' + 3) (.whileForm init test update (.block ss)) s') := by
  rw [evaluate_forStmt, evaluate_whileForm]
  refine follows_bind (follows_within (.pair hs) fun {V c c'} _ hc => ?_) fun _ _ =>
    follows_pure fun _ => ⟨rfl, rfl⟩
  have hstatements := carries_evaluate hB passes hd
  have hparts := carries_evaluate hB passes hd₁
  have hinit := (carries_evaluate hB passes hd₂).trees.follows (rfl : init = init) hc
  refine follows_bind (follows_discard hinit) fun hU _ => ?_
  have hc := Matching.pair_mono hU hc
  exact follows_announced hlevel (follows_condition (hparts.trees.follows rfl hc))
    (follows_pass passes hstatements hparts hupdate hc) _ _ passes

end Comparison

/-- The ends of two runs, from a machine with so many scopes, that nothing tells apart: both give
null or the same fault, nothing but the scopes differs, the scopes that there were show the same,
and so does every session that goes on from there. -/
structure Indistinct (size : Nat) (r r' : EStateM.Result Fault Machine Value) : Prop where
  result : (∃ n n', r = .ok .null n ∧ r' = .ok .null n') ∨
    ∃ fault n n', r = .error fault n ∧ r' = .error fault n'
  rest : machineOf r' = (machineOf r).over (machineOf r').forest
  scopes : ∀ id < size, (machineOf r).forest.shown id = (machineOf r').forest.shown id
  later : ∀ steps, (Session.outcomes steps (machineOf r)).map Session.sight =
    (Session.outcomes steps (machineOf r')).map Session.sight

/-- A tree whose evaluation does not come to an end, however deep it may nest and however many
passes its loops may take. -/
def Diverges (n : Node) (e : ScopeId) (m : Machine) : Prop :=
  ∀ passes r, Settles (evaluate passes · n e) m r → ∃ m', r = .error .unfinished m'

theorem Indistinct.tooDeep_iff {size : Nat} {r r' : EStateM.Result Fault Machine Value}
    (h : Indistinct size r r') : TooDeep r ↔ TooDeep r' := by
  rcases h.result with ⟨n, n', rfl, rfl⟩ | ⟨fault, n, n', rfl, rfl⟩ <;> simp [TooDeep]

theorem Indistinct.unfinished_iff {size : Nat} {r r' : EStateM.Result Fault Machine Value}
    (h : Indistinct size r r') :
    (∃ m, r = .error .unfinished m) ↔ ∃ m, r' = .error .unfinished m := by
  rcases h.result with ⟨n, n', rfl, rfl⟩ | ⟨fault, n, n', rfl, rfl⟩ <;> simp

/-- Runs that end alike cannot be told apart, unless one is excused. -/
theorem Comparison.Ends.indistinct {C : Comparison} (hB : C.bodies = Eq) {f : Forest}
    (hroot : Forest.root < f.scopes.size) {r r' : EStateM.Result Fault Machine Value}
    (h : C.Ends (.self f) (fun _ v v' => v = .null ∧ v' = .null) r r')
    (hno : ¬ C.slack.Excuses r r') : Indistinct f.scopes.size r r' := by
  have hmachines {V : Matching} {g g' : Forest} (hV : .self f ≤ V) (ht : Tie C.bodies V g g')
      {n : Machine} (hn : n.debugLevel = C.level) :
      (∀ id < f.scopes.size, g.shown id = g'.shown id) ∧
        ∀ steps, (Session.outcomes steps (n.over g)).map Session.sight =
          (Session.outcomes steps (n.over g')).map Session.sight := by
    constructor
    · intro id hid
      exact shown_scope_eq ht (Matching.pair_mono hV ⟨rfl, hid⟩)
    · -- whatever was excused before, from here on both sessions have the same bounds
      let C' : Comparison := { C with slack := .none }
      have hlevel : C'.Level (n.over g) (n.over g') :=
        ⟨hn, rfl, V, ht, Matching.pair_mono hV ⟨rfl, hroot⟩⟩
      exact Level.outcomes (C := C') hB rfl hlevel
  cases h with
  | ok n hn hV ht hnull =>
    obtain ⟨rfl, rfl⟩ := hnull
    obtain ⟨hscopes, hlater⟩ := hmachines hV ht hn
    exact ⟨.inl ⟨_, _, rfl, rfl⟩, rfl, hscopes, hlater⟩
  | error fault n hn hV ht =>
    obtain ⟨hscopes, hlater⟩ := hmachines hV ht hn
    exact ⟨.inr ⟨fault, _, _, rfl, rfl⟩, rfl, hscopes, hlater⟩
  | excused h => exact absurd h hno

section Forms

variable {m : Machine} (hpaired : Paired (m.forest, m.forest)) (hlevel : m.debugLevel < 3)
  (init test : Node) {update : Node} (hupdate : update.Expression) (ss : Node) {e : ScopeId}
  (he : e < m.forest.scopes.size) (passes : Nat)

include hpaired hlevel hupdate he

theorem indistinct_whileForm (slack : Slack) {d d' : Nat} (hd : slack.Allows d d')
    (hd₁ : slack.Allows d (d' + 1)) (hd₂ : slack.Allows d (d' + 2))
    (hno : ¬ slack.Excuses (evaluate passes (d + 1) (.forStmt init test update (.block ss)) e m)
      (evaluate passes (d' + 3) (.whileForm init test update (.block ss)) e m)) :
    Indistinct m.forest.scopes.size
      (evaluate passes (d + 1) (.forStmt init test update (.block ss)) e m)
      (evaluate passes (d' + 3) (.whileForm init test update (.block ss)) e m) := by
  let C : Comparison := ⟨Eq, slack, m.debugLevel⟩
  have ht : Tie C.bodies (.self m.forest) m.forest m.forest := hpaired.tie fun _ => rfl
  have h := C.follows_whileForm (W := .self m.forest) rfl hlevel passes hd hd₁ hd₂ init
    test hupdate ss ⟨rfl, he⟩ _ (le_refl _) _ _ ht m rfl
  exact h.indistinct rfl (Nat.lt_of_le_of_lt (Nat.zero_le e) he) hno

theorem settles_whileForm {r : EStateM.Result Fault Machine Value}
    (hr : Settles (evaluate passes · (.forStmt init test update (.block ss)) e) m r) :
    ∃ r', Settles (evaluate passes · (.whileForm init test update (.block ss)) e) m r' ∧
      Indistinct m.forest.scopes.size r r' := by
  obtain ⟨depth, rfl, hdeep⟩ := hr
  cases depth with
  | zero => exact absurd ⟨m, rfl⟩ hdeep
  | succ d =>
    have h := indistinct_whileForm hpaired hlevel init test hupdate ss he passes .first
      (Nat.le_refl d) (Nat.le_add_right d 1) (Nat.le_add_right d 2) hdeep
    exact ⟨_, ⟨d + 3, rfl, fun hno => hdeep (h.tooDeep_iff.mpr hno)⟩, h⟩

theorem settles_forStmt {r' : EStateM.Result Fault Machine Value}
    (hr : Settles (evaluate passes · (.whileForm init test update (.block ss)) e) m r') :
    ∃ r, Settles (evaluate passes · (.forStmt init test update (.block ss)) e) m r := by
  obtain ⟨d, rfl, hdeep⟩ := hr
  have hsame := rising_evaluate passes (.whileForm init test update (.block ss)) e d (d + 3)
    (Nat.le_add_right d 3) m hdeep
  rw [← hsame] at hdeep
  have h := indistinct_whileForm hpaired hlevel init test hupdate ss he passes .second
    (show d ≤ d + 2 by omega) (show d + 1 ≤ d + 2 by omega) (Nat.le_refl (d + 2)) hdeep
  exact ⟨_, d + 3, rfl, fun hno => hdeep (h.tooDeep_iff.mp hno)⟩

end Forms

namespace Session

/-- `for` is `while` with a scope of its own. Whenever a session has come somewhere, and in whatever
scope, a `for` statement from the parser and its `while` form cannot be told apart below debug
level 3: with every bound on the passes of loops, one of them comes to something exactly if the
other does, what they come to is indistinct, and one comes to no end exactly if the other does. -/
theorem for_is_while_in_its_own_scope (ambient : Ambient) (debugLevel : Nat) (inputs : List String)
    (steps : List (Bool × Step)) {a : Moment}
    (ha : a ∈ moments steps (.fresh ambient debugLevel inputs)) {m : Machine}
    (hm : m.forest = a.forest) (hlevel : m.debugLevel < 3) {init test update body : Node}
    (hn : Node.Statement (.forStmt init test update body)) {e : ScopeId}
    (he : e < m.forest.scopes.size) :
    (∀ passes, Concurs (Indistinct m.forest.scopes.size)
      (evaluate passes · (.forStmt init test update body) e)
      (evaluate passes · (.whileForm init test update body) e) m) ∧
    (Diverges (.forStmt init test update body) e m ↔
      Diverges (.whileForm init test update body) e m) := by
  obtain ⟨ss, rfl, hupdate⟩ : ∃ ss, body = .block ss ∧ update.Expression := by
    cases hn with
    | expression h => cases h
    | declaration h => cases h
    | «for» _ _ hupdate _ => exact ⟨_, rfl, hupdate⟩
  have hpaired : Paired (m.forest, m.forest) :=
    hm ▸ (paired_of_mem_moments ambient debugLevel inputs steps ha).1
  have hconcurs (passes : Nat) : Concurs (Indistinct m.forest.scopes.size)
      (evaluate passes · (.forStmt init test update (.block ss)) e)
      (evaluate passes · (.whileForm init test update (.block ss)) e) m :=
    concurs_of_settles (rising_evaluate passes _ e)
      (fun _ => settles_whileForm hpaired hlevel init test hupdate ss he passes)
      fun _ => settles_forStmt hpaired hlevel init test hupdate ss he passes
  refine ⟨hconcurs, fun h passes r' hr' => ?_, fun h passes r hr => ?_⟩
  · obtain ⟨r, hr⟩ := (hconcurs passes).settles_iff.mpr ⟨r', hr'⟩
    exact ((hconcurs passes).related r r' hr hr').unfinished_iff.mp (h passes r hr)
  · obtain ⟨r', hr'⟩ := (hconcurs passes).settles_iff.mp ⟨r, hr⟩
    exact ((hconcurs passes).related r r' hr hr').unfinished_iff.mpr (h passes r' hr')

/-- A loop that declares a function in its only pass. -/
theorem for_is_while_declaring_a_function :
    let m := Machine.fresh (.seeded 0 0) 0 []
    let init := Node.varDecl (.text "x") (.booleanLiteral (.boolean true)) (.boolean false)
    let test := Node.identifier (.text "x")
    let update := Node.assign (.text "x") (.booleanLiteral (.boolean false))
    let body := Node.block (.list [.funcDecl (.text "f") (.list []) (.block (.list []))])
    ∃ n n', Settles (evaluate 2 · (.forStmt init test update body) root) m (.ok .null n) ∧
      Settles (evaluate 2 · (.whileForm init test update body) root) m (.ok .null n') ∧
      Indistinct 1 (.ok .null n) (.ok .null n') := by
  intro m init test update body
  have hn : Node.Statement (.forStmt init test update body) := by
    refine .for (.inl (.initialized false (by decide) (.boolean true))) (.identifier (by decide))
      (.assign (by decide) (.boolean false)) ?_
    simp only [List.mem_singleton]
    rintro s rfl
    exact @Node.Statement.function "f" [] [] (by decide) nofun nofun
  obtain ⟨n, hr⟩ : ∃ n, evaluate 2 3 (.forStmt init test update body) root m = .ok .null n := by
    have h : ((evaluate 2 3 (.forStmt init test update body) root).run' m).any Value.isNull := by
      decide +kernel
    unfold EStateM.run' EStateM.run at h
    cases hr : evaluate 2 3 (.forStmt init test update body) root m with
    | ok v n =>
      rw [hr] at h
      cases v with
      | null => exact ⟨n, rfl⟩
      | _ => cases h
    | error fault n =>
      rw [hr] at h
      cases h
  have hsettles : Settles (evaluate 2 · (.forStmt init test update body) root) m (.ok .null n) :=
    ⟨3, hr, nofun⟩
  obtain ⟨hconcurs, -⟩ := for_is_while_in_its_own_scope (.seeded 0 0) 0 [] [] List.mem_cons_self
    (m := m) rfl (by decide) hn Nat.one_pos
  obtain ⟨r', hr'⟩ := (hconcurs 2).settles_iff.mp ⟨_, hsettles⟩
  have hindistinct := (hconcurs 2).related _ r' hsettles hr'
  rcases hindistinct.result with ⟨_, n', -, rfl⟩ | ⟨fault, _, _, hno, -⟩
  · exact ⟨n, n', hsettles, hr', hindistinct⟩
  · cases hno

end Session

end Script
