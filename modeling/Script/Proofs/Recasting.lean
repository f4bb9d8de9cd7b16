import Script.Proofs.Course

/-!
# Runs at another debug level

A machine can be recast with a lower debug level and a view of its log that leaves out the messages
above it. What runs on it then ends as before, with the same view of the log, unless a message that
is left out could not be shown. The view may also put something ahead of the log. Declarations,
decisions and calls always make a message, if the debug level is high enough.
-/
namespace Script

/-- The machine with another debug level and another view of its log. -/
def Machine.recast (m : Machine) (level : Nat) (view : Array Event → Array Event) : Machine :=
  m.seen m.forest level view

/-- A view for a debug level below `top`: messages from higher levels do not show. -/
structure Lowering (top level : Nat) (view : Array Event → Array Event) : Prop where
  le : level ≤ top
  additive : Additive view
  message : ∀ es s l, levelOf? s = some l → l ≤ top →
    view (es.push (.logged s)) = if l ≤ level then (view es).push (.logged s) else view es

/-- The second run ends as the first one, on the recast machine, unless the first one has a fault
because a message could not be shown. -/
inductive Mirrors {α : Type} (top level : Nat) (view : Array Event → Array Event) :
    EStateM.Result Fault Machine α → EStateM.Result Fault Machine α → Prop
  | same {r} (h : (machineOf r).debugLevel = top) :
      Mirrors top level view r (onMachine (·.recast level view) r)
  | unshown {fault m r} (hlt : level < top) (h : fault.Unshown) :
      Mirrors top level view (.error fault m) r

/-- A computation that runs alike on the recast machine. -/
def Reflected {α : Type} (top level : Nat) (view : Array Event → Array Event) (x : Run α) : Prop :=
  ∀ m : Machine, m.debugLevel = top → Mirrors top level view (x m) (x (m.recast level view))

section Steps

variable {α β : Type} {top level : Nat} {view : Array Event → Array Event}

theorem Blind.reflected {x : Run α} (hx : Blind x) (hv : Lowering top level view) :
    Reflected top level view x := by
  intro m hm
  have hrun : x (m.recast level view) = onMachine (·.recast level view) (x m) := by
    have hforest := hx.forest m
    rw [Machine.recast, hx m m.forest level view hv.additive]
    cases hr : x m with
    | ok a n | error fault n =>
      rw [hr] at hforest
      simp only [onMachine, Machine.recast, hforest.symm, machineOf]
  rw [hrun]
  exact .same ((hx.debugLevel m).trans hm)

theorem Reflected.bind {x : Run α} {k : α → Run β} (hx : Reflected top level view x)
    (hk : ∀ a, Reflected top level view (k a)) : Reflected top level view (x >>= k) := by
  intro m hm
  have h := hx m hm
  simp only [Bind.bind, EStateM.bind]
  generalize x m = r, x (m.recast level view) = r' at h
  cases h with
  | unshown hlt h => exact .unshown hlt h
  | same hr =>
    cases r with
    | ok a n => exact hk a n hr
    | error fault n => exact .same (r := .error fault n) hr

/-- A message that is made is one of its level. -/
theorem Entry.levelOf? {l : Nat} {message : Unit → Except Fault Node} (he : Entry l message)
    {s : String} (hs : message () >>= Content.written = .ok s) : Script.levelOf? s = some l := by
  cases hm : message () with
  | error fault =>
    rw [hm] at hs
    cases hs
  | ok c =>
    rw [hm] at hs
    exact he.level c s hm hs

theorem mirrors_logged {m : Machine} {s : String} {es : Array Event}
    (hes : view (m.events.push (.logged s)) = es) :
    Mirrors m.debugLevel level view (.ok () { m with events := m.events.push (.logged s) })
      (.ok () { m.recast level view with events := es }) := by
  subst hes
  exact .same (r := .ok () { m with events := m.events.push (.logged s) }) rfl

theorem reflected_log {l : Nat} {message : Unit → Except Fault Node} (he : Entry l message)
    (hv : Lowering top level view) : Reflected top level view (Run.log l message) := by
  intro m hm
  subst hm
  have hlevel : (m.recast level view).debugLevel = level := rfl
  have hshows := he.shows.bind shows_written
  rw [log_apply, log_apply, hlevel]
  by_cases hl : l ≤ level
  · have htop := Nat.le_trans hl hv.le
    rw [if_pos hl, if_pos htop]
    cases hw : message () >>= Content.written with
    | error fault => exact .same (r := .error fault m) rfl
    | ok s =>
      have hview := hv.message m.events s l (he.levelOf? hw) htop
      rw [if_pos hl] at hview
      exact mirrors_logged hview
  · rw [if_neg hl]
    by_cases htop : l ≤ m.debugLevel
    · rw [if_pos htop]
      cases hw : message () >>= Content.written with
      | error fault => exact .unshown (by omega) (hshows fault hw)
      | ok s =>
        have hview := hv.message m.events s l (he.levelOf? hw) htop
        rw [if_neg hl] at hview
        exact mirrors_logged hview
    · rw [if_neg htop]
      exact .same (r := .ok () m) rfl

theorem reflected_scopes (action : Forest.Action α) :
    Reflected top level view (Run.scopes action) := by
  intro m hm
  simp only [Run.scopes, Machine.recast, Machine.seen]
  cases action m.forest with
  | ok a f => exact .same (r := .ok a { m with forest := f }) hm
  | error fault f => exact .same (r := .error (.binding fault) { m with forest := f }) hm

theorem reflected_within (parent : ScopeId) {body : ScopeId → Run α}
    (hb : ∀ id, Reflected top level view (body id)) :
    Reflected top level view (Run.within parent body) := by
  intro m hm
  have h := hb m.forest.scopes.size (m.inside parent) hm
  rw [within_apply, within_apply]
  change Mirrors top level view (onMachine _ (body m.forest.scopes.size (m.inside parent)))
    (onMachine _ (body m.forest.scopes.size ((m.inside parent).recast level view)))
  generalize body m.forest.scopes.size (m.inside parent) = r,
    body m.forest.scopes.size ((m.inside parent).recast level view) = r' at h
  cases h with
  | unshown hlt h => exact .unshown hlt h
  | same hr =>
    cases r with
    | ok a n =>
      exact .same
        (r := .ok a { n with forest := n.forest.leave n.discards m.forest.scopes.size }) hr
    | error fault n =>
      exact .same
        (r := .error fault { n with forest := n.forest.leave n.discards m.forest.scopes.size }) hr

end Steps

variable {top level : Nat} {view : Array Event → Array Event}

/-- What is composed of steps runs alike, if the parts of the tree do. -/
theorem Course.reflected (hv : Lowering top level view) {eval : Evaluator}
    (heval : ∀ n scope, Reflected top level view (eval n scope)) {α : Type}
    {x : Evaluator → Run α} (c : Course x) : Reflected top level view (x eval) := by
  induction c with
  | quiet x h => exact h.reflected hv
  | log h => exact reflected_log h hv
  | scopes action => exact reflected_scopes action
  | capture id =>
    exact fun m hm => .same (r := .ok () { m with forest := m.forest.capture id }) hm
  | part n scope => exact heval n scope
  | seq _ _ ih₁ ih₂ => exact ih₁.bind ih₂
  | within parent _ ih => exact reflected_within parent ih

/-- Evaluation runs alike, by induction on the depth. -/
theorem evaluate_reflected (hv : Lowering top level view) (passes depth : Nat) (n : Node)
    (scope : ScopeId) : Reflected top level view (evaluate passes depth n scope) := by
  induction depth generalizing n scope with
  | zero => exact (blind_throw _).reflected hv
  | succ depth ih => exact (Course.rule passes n scope).reflected hv ih

theorem lowering_ahead (level : Nat) (es : Array Event) : Lowering level level (es ++ ·) where
  le := Nat.le_refl level
  additive _ _ _ := Array.append_push
  message _ _ _ _ h := by
    rw [if_pos h]
    exact Array.append_push

def Machine.withLog (m : Machine) (es : Array Event) : Machine := { m with events := es }

@[simp] theorem Machine.withLog_withLog (m : Machine) (es es' : Array Event) :
    (m.withLog es).withLog es' = m.withLog es' := rfl

@[simp] theorem Machine.events_withLog (m : Machine) (es : Array Event) :
    (m.withLog es).events = es := rfl

@[simp] theorem Machine.withLog_events (m : Machine) : m.withLog m.events = m := rfl

/-- What happened before has no influence on what runs alike with it. -/
theorem Reflected.ahead {α : Type} {x : Run α} {m : Machine}
    (h : Reflected m.debugLevel m.debugLevel (m.events ++ ·) x) :
    x m = onMachine (fun k => k.withLog (m.events ++ k.events)) (x (m.withLog #[])) ∧
      (machineOf (x m)).debugLevel = m.debugLevel := by
  have hx := h (m.withLog #[]) rfl
  have hm : (m.withLog #[]).recast m.debugLevel (m.events ++ ·) = m := by
    simp [Machine.recast, Machine.seen, Machine.withLog]
  rw [hm] at hx
  generalize x m = r', x (m.withLog #[]) = r at hx
  cases hx with
  | unshown hlt => exact absurd hlt (Nat.lt_irrefl _)
  | same hr =>
    cases r with
    | ok v k | error fault k =>
      have hk : k.debugLevel = m.debugLevel := hr
      refine ⟨?_, rfl⟩
      simp only [onMachine, Machine.recast, Machine.seen, Machine.withLog, ← hk]

theorem Course.ahead (passes depth : Nat) {α : Type} {x : Evaluator → Run α} (c : Course x)
    (m : Machine) :
    x (evaluate passes depth) m = onMachine (fun k => k.withLog (m.events ++ k.events))
        (x (evaluate passes depth) (m.withLog #[])) ∧
      (machineOf (x (evaluate passes depth) m)).debugLevel = m.debugLevel :=
  (c.reflected (lowering_ahead _ _) (evaluate_reflected (lowering_ahead _ _) passes depth)).ahead

/-- Every run along the course that ends well makes a message of the level. -/
inductive Course.Tells (l : Nat) : {α : Type} → {x : Evaluator → Run α} → Course x → Prop
  | log {message : Unit → Except Fault Node} (h : Entry l message) : Tells l (.log h)
  | first {α β : Type} {x : Evaluator → Run α} {k : α → Evaluator → Run β} {c : Course x}
      {d : (a : α) → Course (k a)} (h : Tells l c) : Tells l (.seq c d)
  | next {α β : Type} {x : Evaluator → Run α} {k : α → Evaluator → Run β} {c : Course x}
      {d : (a : α) → Course (k a)} (h : ∀ a, Tells l (d a)) : Tells l (.seq c d)
  | within {α : Type} {parent : ScopeId} {body : ScopeId → Evaluator → Run α}
      {c : (id : ScopeId) → Course (body id)} (h : ∀ id, Tells l (c id)) :
      Tells l (.within parent c)

theorem Course.Tells.made {l : Nat} (passes depth : Nat) {α : Type} {x : Evaluator → Run α}
    {c : Course x} (h : c.Tells l) {m m' : Machine} {a : α} (hl : l ≤ m.debugLevel)
    (hx : x (evaluate passes depth) m = .ok a m') :
    ∃ s, levelOf? s = some l ∧ .logged s ∈ m'.events := by
  induction h generalizing m m' with
  | log he =>
    simp only [log_apply, if_pos hl] at hx
    split at hx
    · rename_i s hs
      cases hx
      exact ⟨s, he.levelOf? hs, by simp⟩
    · cases hx
  | @first α β x k c d _ ih =>
    simp only [bind, EStateM.bind] at hx
    split at hx
    · rename_i b n hb
      obtain ⟨s, hs, hmem⟩ := ih hl hb
      refine ⟨s, hs, ?_⟩
      rw [((d b).ahead passes depth n).1] at hx
      generalize k b (evaluate passes depth) (n.withLog #[]) = r at hx
      cases r with
      | error => cases hx
      | ok _ k =>
        cases hx
        exact Array.mem_append_left _ hmem
    · cases hx
  | @next α β x k c d _ ih =>
    simp only [bind, EStateM.bind] at hx
    split at hx
    · rename_i b n hb
      have hn := (c.ahead passes depth m).2
      rw [hb] at hn
      exact ih b (hn.symm ▸ hl) hx
    · cases hx
  | @within α parent body c _ ih =>
    simp only [within_apply] at hx
    generalize hr : body m.forest.scopes.size (evaluate passes depth) (m.inside parent) = r at hx
    cases r with
    | error => cases hx
    | ok _ k =>
      cases hx
      obtain ⟨s, hs, hmem⟩ := ih _ (m := m.inside parent) hl hr
      exact ⟨s, hs, hmem⟩

/-- The debug level from which on the evaluation of a tree makes a message of its own. -/
def Node.toldFrom? : Node → Option Nat
  | .varDecl .. | .funcDecl .. => some 2
  | .ifStmt .. | .whileStmt .. | .forStmt .. => some 3
  | .call .. => some 4
  | _ => none

theorem Course.tells_rule (passes : Nat) {n : Node} {l : Nat} (hn : n.toldFrom? = some l)
    (scope : ScopeId) : (Course.rule passes n scope).Tells l := by
  cases n with
  | varDecl name value isConst =>
    cases hn
    exact .next fun v => .next fun x => .next fun _ => .first (.log _)
  | funcDecl name params body =>
    cases hn
    exact .next fun _ => .next fun _ => .next fun _ => .next fun _ => .first (.log _)
  | ifStmt test thenBlock elseBlock =>
    cases hn
    exact .next fun _ => .next fun _ => .first (.log _)
  | whileStmt test body =>
    cases hn
    exact .next fun _ => .first (.log _)
  | forStmt init test update body =>
    cases hn
    exact .first (.within fun _ => .next fun _ => .next fun _ => .log _)
  | call name args =>
    cases hn
    exact .next fun _ => .next fun _ => .next fun _ => .next fun _ => .first (.log _)
  | _ => cases hn

/-- A declaration, a decision or a call that is evaluated makes a message of its level. -/
theorem evaluate_tells {passes depth : Nat} {n : Node} {l : Nat} (hn : n.toldFrom? = some l)
    {scope : ScopeId} {m m' : Machine} {v : Value} (hl : l ≤ m.debugLevel)
    (h : evaluate passes depth n scope m = .ok v m') :
    ∃ es s, m'.events = m.events ++ es ∧ .logged s ∈ es ∧ levelOf? s = some l := by
  cases depth with
  | zero => cases h
  | succ depth =>
    have hrule := Course.tells_rule passes hn scope
    obtain ⟨h', -⟩ := (Course.rule passes n scope).ahead passes depth m
    simp only [evaluate] at h
    rw [h] at h'
    generalize hr : Evaluate.rule passes (evaluate passes depth) n scope (m.withLog #[]) = r at h'
    cases r with
    | error => cases h'
    | ok _ k =>
      cases h'
      obtain ⟨s, hs, hmem⟩ := hrule.made passes depth (m := m.withLog #[]) hl hr
      exact ⟨k.events, s, rfl, hmem, hs⟩

end Script
