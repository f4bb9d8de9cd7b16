import Script.Proofs.Concatenation
import Script.Proofs.Course
import Script.Proofs.Diagnostics
import Script.Proofs.Lexical
import Script.Proofs.Proper
import Script.Proofs.WholeNumbers

/-!
# What runs ensure

A run ensures something if it ends without a fault and what it gives and leaves behind is as told,
messages for the debug log aside. Each rule of evaluation ensures what its parts do, one after
another.
-/
namespace Script

namespace Forest

variable {f : Forest} {e o p : ScopeId} {x : Name} {b : Binding}

/-- From a scope a name is found in `o`, whatever lies around that. -/
def Sees (f : Forest) (e : ScopeId) (x : Name) (o : ScopeId) (b : Binding) : Prop :=
  ∀ steps, e < steps → f.findFrom x steps e = some (o, b)

theorem Sees.here (h : f.at? e x = some b) : f.Sees e x e b := by
  intro steps hsteps
  obtain ⟨s, hs, hb⟩ := Option.bind_eq_some_iff.mp h
  obtain ⟨k, rfl⟩ := Nat.exists_eq_add_of_lt hsteps
  simp only [findFrom, hs, hb]

theorem Sees.out (hno : f.at? e x = none) (hp : f.parentOf? e = some p) (hlt : p < e)
    (h : f.Sees p x o b) : f.Sees e x o b := by
  intro steps hsteps
  obtain ⟨s, hs, hparent⟩ := Option.bind_eq_some_iff.mp hp
  obtain ⟨k, rfl⟩ := Nat.exists_eq_add_of_lt hsteps
  have hnone : s.find? x = none := by rwa [at?, hs, Option.bind_some] at hno
  simp only [findFrom, hs, hnone, hparent]
  exact h _ (Nat.lt_of_lt_of_le hlt (Nat.le_add_right e k))

theorem Sees.lookup? (h : f.Sees e x o b) : f.lookup? e x = some (o, b) :=
  h (e + 1) (Nat.lt_succ_self e)

theorem Sees.get (h : f.Sees e x o b) : Forest.get e x f = .ok b.value f := by
  rw [Forest.get, h.lookup?]

theorem Sees.set (h : f.Sees e x o b) (hb : b.mark = .variable) (v : Value) :
    Forest.set e x v f = .ok v (f.modifyAt o (·.rebind x v)) := by
  rw [Forest.set, h.lookup?]
  exact if_pos hb

/-- Nothing lies around the root scope, as far as looking up can tell. -/
theorem lookup?_root (f : Forest) (x : Name) :
    f.lookup? root x = (f.at? root x).map (root, ·) := by
  have hnone (p : ScopeId) : f.findFrom x root p = none := rfl
  rw [lookup?, findFrom, at?]
  cases f.scope? root with
  | none => rfl
  | some s =>
    cases hs : s.find? x with
    | some b => simp [hs]
    | none => cases hp : s.parent? <;> simp [hs, hp, hnone]

theorem at?_bind (ho : o < f.scopes.size) (b : Binding) (a : ScopeId) (x : Name) :
    (f.modifyAt o (·.bind b)).at? a x =
      if a = o ∧ b.name.same x = true then some b else f.at? a x := by
  obtain ⟨s, hs⟩ := exists_scope?_of_lt ho
  by_cases ha : a = o
  · subst ha
    rw [at?_modifyAt_self, at?, hs]
    simp [Scope.find?_bind_eq]
  · rw [at?_modifyAt_of_ne ha, if_neg fun h => ha h.1]

theorem at?_rebind (f : Forest) (o : ScopeId) (name : Name) (v : Value) (a : ScopeId) (x : Name) :
    (f.modifyAt o (·.rebind name v)).at? a x =
      if a = o ∧ name.same x = true then (f.at? a x).map ({ · with value := v })
      else f.at? a x := by
  by_cases ha : a = o
  · subst ha
    rw [at?_modifyAt_self, at?]
    cases f.scope? a with
    | none => simp
    | some s =>
      rw [Option.bind_some, Option.bind_some, Scope.find?_rebind_eq]
      cases hb : s.find? x with
      | none => simp
      | some b =>
        have hsame := Scope.same_of_find? hb
        have hname : b.name.same name = name.same x := by
          rw [Name.same_comm, Name.same_congr hsame]
        by_cases hn : name.same x = true <;> simp [hname, hn]
  · rw [at?_modifyAt_of_ne ha, if_neg fun h => ha h.1]

end Forest

/-- What a run depends on and changes, messages aside. -/
structure Scene where
  forest : Forest
  discards : Bool
  output : List Event

def Scene.inside (w : Scene) (parent : ScopeId) : Scene :=
  { w with forest := ⟨w.forest.scopes.push (.inside (some parent))⟩ }

theorem Scene.at?_inside_new (w : Scene) (parent : ScopeId) (x : Name) :
    (w.inside parent).forest.at? w.forest.scopes.size x = none :=
  (Forest.at?_push _ _ _ x).trans (if_pos rfl)

theorem Scene.at?_inside_of_lt {w : Scene} {a : ScopeId} (ha : a < w.forest.scopes.size)
    (parent : ScopeId) (x : Name) : (w.inside parent).forest.at? a x = w.forest.at? a x :=
  (Forest.at?_push _ _ _ x).trans (if_neg ha.ne)

theorem Scene.parentOf?_inside (w : Scene) (parent : ScopeId) :
    (w.inside parent).forest.parentOf? w.forest.scopes.size = some parent :=
  congrArg (Option.bind · Scope.parent?) (Forest.scope?_push_self _ _)

def Scene.leave (w : Scene) (id : ScopeId) : Scene :=
  { w with forest := w.forest.leave w.discards id }

def Machine.scene (m : Machine) : Scene :=
  ⟨m.forest, m.discards, m.events.toList.filter (!·.isMessage)⟩

namespace Run

variable {α β : Type} {w : Scene}

/-- From a scene on, the run ends without a fault, and with a value and a scene as told. -/
def Ensures (x : Run α) (w : Scene) (Q : α → Scene → Prop) : Prop :=
  ∀ m : Machine, m.scene = w → ∃ a m', x m = .ok a m' ∧ Q a m'.scene

theorem Ensures.mono {x : Run α} {Q Q' : α → Scene → Prop} (h : Ensures x w Q)
    (hQ : ∀ a w', Q a w' → Q' a w') : Ensures x w Q' := by
  intro m hm
  obtain ⟨a, m', hx, hq⟩ := h m hm
  exact ⟨a, m', hx, hQ a _ hq⟩

theorem ensures_pure {a : α} {Q : α → Scene → Prop} (hQ : Q a w) : Ensures (pure a) w Q :=
  fun m hm => ⟨a, m, rfl, hm ▸ hQ⟩

theorem Ensures.bind {x : Run α} {k : α → Run β} {Q : β → Scene → Prop}
    (h : Ensures x w fun a w' => Ensures (k a) w' Q) : Ensures (x >>= k) w Q := by
  intro m hm
  obtain ⟨a, m₁, hx, h⟩ := h m hm
  obtain ⟨b, m₂, hk, hq⟩ := h m₁ rfl
  refine ⟨b, m₂, ?_, hq⟩
  simp only [Bind.bind, EStateM.bind, hx, hk]

theorem Ensures.discard {x : Run α} {Q : Unit → Scene → Prop}
    (h : Ensures x w fun _ w' => Q () w') : Ensures (discard x) w Q :=
  Ensures.bind (h.mono fun _ _ hq => ensures_pure hq)

theorem ensures_ofExcept {x : Except Fault α} {a : α} {Q : α → Scene → Prop} (h : x = .ok a)
    (hQ : Q a w) : Ensures (ofExcept x) w Q := by
  rw [h]
  exact ensures_pure hQ

theorem ensures_scopes {action : Forest.Action α} {a : α} {f : Forest} {Q : α → Scene → Prop}
    (h : action w.forest = .ok a f) (hQ : Q a { w with forest := f }) :
    Ensures (scopes action) w Q := by
  rintro m rfl
  have h : action m.forest = .ok a f := h
  refine ⟨a, { m with forest := f }, ?_, hQ⟩
  simp only [scopes, h]

theorem ensures_onForest {change : Forest → Forest} {Q : Unit → Scene → Prop}
    (hQ : Q () { w with forest := change w.forest }) : Ensures (onForest change) w Q := by
  rintro m rfl
  exact ⟨(), _, rfl, hQ⟩

theorem ensures_record {event : Event} {Q : Unit → Scene → Prop} (he : event.isMessage = false)
    (hQ : Q () { w with output := w.output ++ [event] }) : Ensures (record event) w Q := by
  rintro m rfl
  refine ⟨(), { m with events := m.events.push event }, rfl, ?_⟩
  simpa [Machine.scene, List.filter_append, he] using hQ

/-- A message is a text that can be written, so that it does not matter whether it is made. -/
theorem ensures_log {level : Nat} {message : Unit → Except Fault Node} {t : String}
    {Q : Unit → Scene → Prop} (h : message () = .ok (.text t)) (hQ : Q () w) :
    Ensures (log level message) w Q := by
  rintro m rfl
  rw [log_apply, h]
  split_ifs
  · refine ⟨(), { m with events := m.events.push (.logged t) }, rfl, ?_⟩
    simpa [Machine.scene, List.filter_append, Event.isMessage] using hQ
  · exact ⟨(), m, rfl, hQ⟩

theorem ensures_write {t : String} {Q : Unit → Scene → Prop}
    (hQ : Q () { w with output := w.output ++ [.wrote (.text t)] }) :
    Ensures (write (.text t)) w Q :=
  Ensures.bind (.discard (ensures_ofExcept rfl (ensures_record rfl hQ)))

theorem ensures_freshIdentity {Q : Identity → Scene → Prop} (hQ : ∀ i, Q i w) :
    Ensures freshIdentity w Q := by
  rintro m rfl
  exact ⟨m.identity, _, rfl, hQ m.identity⟩

theorem ensures_within {parent : ScopeId} {body : ScopeId → Run α} {Q : α → Scene → Prop}
    (h : Ensures (body w.forest.scopes.size) (w.inside parent) fun a w' =>
      Q a (w'.leave w.forest.scopes.size)) :
    Ensures (within parent body) w Q := by
  rintro m rfl
  obtain ⟨a, m', hbody, hq⟩ := h (m.inside parent) rfl
  have hbody : body m.forest.scopes.size (m.inside parent) = .ok a m' := hbody
  rw [within_apply, hbody]
  exact ⟨a, _, rfl, hq⟩

end Run

namespace Evaluate

open Run

variable {passes depth : Nat} {s o : ScopeId} {b : Binding} {w : Scene} {x : String}
  {Q : Value → Scene → Prop}

theorem ensures_identifier (hs : w.forest.Sees s (.word x) o b) (hQ : Q b.value w) :
    Ensures (evaluate passes (depth + 1) (.identifier (.text x)) s) w Q :=
  .bind (ensures_pure (ensures_scopes hs.get hQ))

theorem ensures_number {n : Nat} (hn : n ≤ 2 ^ 53) (hQ : Q (.number (toString n)) w) :
    Ensures (evaluate passes (depth + 1) (.numberLiteral (.text (toString n))) s) w Q := by
  have hread : numberOf (.text (toString n)) = .ok (.ofNat n) := by
    rw [numberOf, Value.readNumber_toString hn]
  refine .bind (ensures_ofExcept hread (ensures_pure ?_))
  rwa [← Value.ofNat_eq hn] at hQ

/-- A comparison of two whole numbers. -/
theorem ensures_less {left right : Node} {m n : Nat} (hm : m ≤ 2 ^ 53) (hn : n ≤ 2 ^ 53)
    (hleft : Ensures (evaluate passes depth left s) w fun u w₁ => u = .number (toString m) ∧
      Ensures (evaluate passes depth right s) w₁ fun v w₂ => v = .number (toString n) ∧
        Q (.boolean (decide (m < n))) w₂) :
    Ensures (evaluate passes (depth + 1) (.binaryOp (.text "<") left right) s) w Q := by
  refine .bind (hleft.mono ?_)
  rintro _ w₁ ⟨rfl, hright⟩
  refine .bind (hright.mono ?_)
  rintro _ w₂ ⟨rfl, hQ⟩
  have hroom : Ensures (pure ()) w₂ fun _ w₃ => Ensures (do
      Run.ofExcept (Operator.apply (← freshIdentity) "<" (.number (toString m))
        (.number (toString n)))) w₃ Q :=
    ensures_pure (.bind (ensures_freshIdentity fun i =>
      ensures_ofExcept (Operator.apply_lt i hm hn) hQ))
  exact .bind hroom

/-- A variable is stepped up where it is found. -/
theorem ensures_stepUp {n : Nat} (hs : w.forest.Sees s (.word x) o b)
    (hv : b.value = .number (toString n)) (hm : b.mark = .variable) (hn : n + 1 ≤ 2 ^ 53)
    (hQ : Q (.number (toString (n + 1)))
      { w with forest := w.forest.modifyAt o (·.rebind (.word x) (.number (toString (n + 1)))) }) :
    Ensures (evaluate passes (depth + 2) (.unaryOp (.text "++") (.identifier (.text x))) s) w
      Q := by
  refine .bind (ensures_identifier hs ?_)
  rw [hv]
  exact .bind (ensures_ofExcept (Operator.step?_up hn)
    (.bind (ensures_pure (ensures_scopes (hs.set hm _) hQ))))

theorem ensures_varDecl {value : Node}
    (h : Ensures (valueIfAny (evaluate passes depth) value s) w fun v w' =>
      w'.forest.at? s (.word x) = none ∧ (∃ t, v.content = .ok (.text t)) ∧
        Q v { w' with forest := w'.forest.modifyAt s (·.bind ⟨.word x, v, .variable⟩) }) :
    Ensures (evaluate passes (depth + 1) (.varDecl (.text x) value (.boolean false)) s) w Q := by
  refine .bind (h.mono ?_)
  rintro v w' ⟨hno, ⟨t, ht⟩, hQ⟩
  have hdefine := Forest.define_of_unbound hno v .variable
  refine .bind (ensures_pure (.bind (.discard (ensures_scopes hdefine (.bind ?_)))))
  refine ensures_log
    (t := String.intercalate "" ["declare var ", x, ": " ++ v.kindName ++ " = ", t]) ?_
    (ensures_pure hQ)
  rw [← Content.line_texts]
  simp only [ht, ok_bind]
  rfl

/-- A call looks up its name and then evaluates its arguments. -/
theorem ensures_call {args : List Node} (hs : w.forest.Sees s (.word x) o b)
    (h : Ensures (all (evaluate passes depth) s args) w fun vs w' =>
      (∃ ts : List String, Value.contents vs = .ok (ts.map .text)) ∧
        Ensures (invoke (evaluate passes depth) (.word x) b.value vs) w' Q) :
    Ensures (evaluate passes (depth + 1) (.call (.text x) (.list args)) s) w Q := by
  refine .bind (ensures_pure (.bind (ensures_scopes hs.get (.bind (ensures_ofExcept rfl ?_)))))
  refine .bind (h.mono ?_)
  rintro vs w' ⟨⟨ts, hts⟩, hinvoke⟩
  refine .bind (ensures_log
    (t := String.intercalate "" ["call ", x, "(", String.intercalate ", " ts, ")"]) ?_ hinvoke)
  rw [← Content.line_texts]
  simp only [hts, ok_bind, Content.line_texts]
  rfl

/-- What `print` is given as its only argument is written out. -/
theorem ensures_print {arg : Node} (hs : w.forest.Sees s (.word x) o b)
    (hb : b.value = .native .print)
    (h : Ensures (evaluate passes depth arg s) w fun v w' => ∃ t, v.content = .ok (.text t) ∧
      Q .null { w' with output := w'.output ++ [.wrote (.text t)] }) :
    Ensures (evaluate passes (depth + 1) (.call (.text x) (.list [arg])) s) w Q := by
  refine ensures_call hs (.bind (h.mono ?_))
  rintro v w' ⟨t, ht, hQ⟩
  have hcontents : Value.contents [v] = .ok ([t].map .text) := by
    simp [Value.contents, ht]
  refine .bind (ensures_pure (ensures_pure ⟨⟨[t], hcontents⟩, ?_⟩))
  rw [hb]
  have hline : Content.line " " ([t].map .text) = .ok (.text t) := Content.line_texts " " [t]
  exact .bind (ensures_ofExcept hcontents (.bind (ensures_ofExcept hline (.bind
    (ensures_write (ensures_pure hQ))))))

theorem ensures_funcDecl (ps : List String) {block : Node} (hno : w.forest.at? s (.word x) = none)
    (hQ : ∀ i, Q (.function i (.word x) (.list (ps.map .text)) block s) { w with
      forest := (w.forest.capture s).modifyAt s
        (·.bind ⟨.word x, .function i (.word x) (.list (ps.map .text)) block s, .function⟩) }) :
    Ensures (evaluate passes (depth + 1) (.funcDecl (.text x) (.list (ps.map .text)) block) s) w
      Q := by
  refine .bind (ensures_onForest (.bind (ensures_pure (.bind (ensures_freshIdentity fun i => ?_)))))
  have hno : (w.forest.capture s).at? s (.word x) = none :=
    (Forest.at?_captureFrom _ _ _ _ _).trans hno
  refine .bind (.discard (ensures_scopes (Forest.define_of_unbound hno _ _) (.bind ?_)))
  refine ensures_log (t := String.intercalate "" ["define function ", x, "(",
    String.intercalate ", " ps, ")"]) ?_ (ensures_pure (hQ i))
  rw [← Content.line_texts]
  simp only [Content.parts, ok_bind, Content.line_texts]
  rfl

theorem ensures_returnStmt {value : Node}
    (h : Ensures (valueIfAny (evaluate passes depth) value s) w Q) :
    Ensures (evaluate passes (depth + 1) (.returnStmt value) s) w Q := h

/-- A function without parameters runs its statements in a scope inside the one it comes from. -/
theorem ensures_invoke {i : Identity} {name name' : Name} {statements : List Node}
    {closure : ScopeId} (h : Ensures (body (evaluate passes depth) w.forest.scopes.size statements)
      (w.inside closure) Q) :
    Ensures (invoke (evaluate passes depth) name
      (.function i name' (.list []) (.block (.list statements)) closure) []) w Q :=
  .bind (ensures_scopes rfl (.bind (ensures_ofExcept rfl (.bind (ensures_pure (.bind
    (ensures_pure (.bind (ensures_ofExcept rfl h)))))))))

theorem ensures_condition {test : Node} {P : Bool → Scene → Prop}
    (h : Ensures (evaluate passes depth test s) w fun v w' => ∃ c, v = .boolean c ∧ P c w') :
    Ensures (condition (evaluate passes depth) test s) w P := by
  refine .bind (h.mono ?_)
  rintro _ w' ⟨c, rfl, hP⟩
  have hholds : (Value.boolean c).holds = .ok c := by cases c <;> rfl
  exact ensures_ofExcept hholds hP

/-- A loop makes `n` passes if its condition holds before each of them and not afterwards. The
invariant is told the number of passes made. -/
theorem ensures_loop {test : Run Bool} {pass : Run Unit} {n : Nat} {I : Nat → Scene → Prop}
    (htest : ∀ k ≤ n, ∀ w, I k w → Ensures test w fun c w' => c = decide (k < n) ∧ I k w')
    (hpass : ∀ k < n, ∀ w, I k w → Ensures pass w fun _ w' => I (k + 1) w') {limit k : Nat}
    (count : Nat) {w : Scene} (hlimit : n < k + limit) (hk : k ≤ n) (hI : I k w) :
    Ensures (loop test pass limit count) w fun _ w' => I n w' := by
  -- the passes left are more than the ones still to make
  induction limit generalizing k count w with
  | zero => omega
  | succ limit ih =>
    refine .bind ((htest k hk w hI).mono ?_)
    rintro _ w₁ ⟨rfl, hI⟩
    by_cases hlt : k < n
    · rw [decide_eq_true hlt, if_pos rfl]
      exact .bind ((hpass k hlt w₁ hI).mono fun _ w₂ hI => ih _ (by omega) hlt hI)
    · obtain rfl : k = n := by omega
      rw [decide_eq_false hlt, if_neg Bool.false_ne_true]
      exact ensures_pure hI

/-- The statements of a block, one after another in a scope of their own. -/
theorem ensures_inOwnScope {eval : Node → ScopeId → Run Value} {statements : List Node}
    {P : Unit → Scene → Prop} (h : Ensures (sequence eval w.forest.scopes.size statements)
      (w.inside s) fun _ w' => P () (w'.leave w.forest.scopes.size)) :
    Ensures (inOwnScope eval (.list statements) s) w P :=
  ensures_within (.bind (ensures_ofExcept rfl h))

theorem ensures_whileStmt {test body : Node} {n : Nat} {I : Nat → Scene → Prop} (hn : n < passes)
    (htest : ∀ k ≤ n, ∀ w, I k w → Ensures (condition (evaluate passes depth) test s) w fun c w' =>
      c = decide (k < n) ∧ I k w')
    (hpass : ∀ k < n, ∀ w, I k w → Ensures (blockIn (evaluate passes depth) body s) w fun _ w' =>
      I (k + 1) w') (hI : I 0 w) (hQ : ∀ w', I n w' → Q .null w') :
    Ensures (evaluate passes (depth + 1) (.whileStmt test body) s) w Q := by
  have hloop := ensures_loop htest hpass 0 (by omega : n < 0 + passes) (Nat.zero_le n) hI
  exact .bind (hloop.mono fun _ w' hI => .bind (ensures_log rfl (ensures_pure (hQ w' hI))))

theorem ensures_forStmt {init test update body : Node} {n : Nat} {I : Nat → Scene → Prop}
    (hn : n < passes)
    (hinit : Ensures (evaluate passes depth init w.forest.scopes.size) (w.inside s) fun _ => I 0)
    (htest : ∀ k ≤ n, ∀ w', I k w' →
      Ensures (condition (evaluate passes depth) test w.forest.scopes.size) w' fun c w' =>
        c = decide (k < n) ∧ I k w')
    (hpass : ∀ k < n, ∀ w', I k w' →
      Ensures (blockIn (evaluate passes depth) body w.forest.scopes.size) w' fun _ w' =>
        Ensures (evaluate passes depth update w.forest.scopes.size) w' fun _ => I (k + 1))
    (hQ : ∀ w', I n w' → Q .null (w'.leave w.forest.scopes.size)) :
    Ensures (evaluate passes (depth + 1) (.forStmt init test update body) s) w Q := by
  refine .bind (ensures_within (.bind (.discard (hinit.mono fun _ w₁ hI => .bind ?_))))
  have hpass' : ∀ k < n, ∀ w', I k w' → Ensures (do
      blockIn (evaluate passes depth) body w.forest.scopes.size
      discard (evaluate passes depth update w.forest.scopes.size)) w' fun _ w' => I (k + 1) w' :=
    fun k hk w' hI => .bind ((hpass k hk w' hI).mono fun _ w₂ h => .discard h)
  have hloop := ensures_loop htest hpass' 0 (by omega : n < 0 + passes) (Nat.zero_le n) hI
  exact hloop.mono fun _ w' hI => ensures_log rfl (ensures_pure (hQ w' hI))

end Evaluate

namespace Session

open Run

variable {echo : Bool} {w : Scene}

/-- A statement may have its value written out, if that is not null. -/
theorem ensures_statement {n : Node} {Q : Value → Scene → Prop}
    (h : Ensures (evaluate passLimit depthLimit n Forest.root) w fun v w' =>
      (∃ t, v.content = .ok (.text t)) ∧
        ∀ es, (v.isNull = true → es = []) → Q v { w' with output := w'.output ++ es }) :
    Ensures (statement echo n) w Q := by
  refine .bind (h.mono ?_)
  rintro v w' ⟨⟨t, ht⟩, hQ⟩
  have hsilent : Q v w' := by simpa using hQ [] fun _ => rfl
  cases hwrite : echo && !v.isNull with
  | false => exact .bind (ensures_pure (ensures_pure hsilent))
  | true =>
    have hsome : v.isNull = false := by simp_all
    refine .bind (ensures_ofExcept ht (.bind (ensures_write (ensures_pure (hQ _ ?_)))))
    simp [hsome]

theorem source_of_ensures {text : String} {ns : List Node} {m : Machine}
    {P : List Value → Scene → Prop} (hread : Node.ofSource text = .ok (.program (.list ns)))
    (h : Ensures (statements echo [] ns) m.scene P) :
    ∃ vs m', source echo text m = (.ok vs, m') ∧ P vs m'.scene := by
  obtain ⟨vs, m', hrun, hP⟩ := h m rfl
  refine ⟨vs, m', ?_, hP⟩
  rw [source, hread]
  dsimp only
  rw [tree_list, hrun]

/-- Statements run one after another in the root scope, with values and a scene at the end as told,
whatever else is written out between them. -/
def Yields : List Node → Scene → (List Value → Scene → Prop) → Prop
  | [], w, P => P [] w
  | n :: ns, w, P =>
      Ensures (evaluate passLimit depthLimit n Forest.root) w fun v w' =>
        (∃ t, v.content = .ok (.text t)) ∧
          ∀ es, Yields ns { w' with output := w'.output ++ es } fun vs => P (v :: vs)

theorem Yields.mono {ns : List Node} {P P' : List Value → Scene → Prop} (h : Yields ns w P)
    (hP : ∀ vs w', P vs w' → P' vs w') : Yields ns w P' := by
  induction ns generalizing w P P' with
  | nil => exact hP [] w h
  | cons n ns ih =>
    exact Ensures.mono h fun v w' h => ⟨h.1, fun es => ih (h.2 es) fun vs => hP (v :: vs)⟩

/-- Statements are run on from where others have come to. -/
theorem yields_append {ns ns' : List Node} {P : List Value → Scene → Prop} :
    Yields (ns ++ ns') w P ↔ Yields ns w fun vs w' => Yields ns' w' fun vs' => P (vs ++ vs') := by
  induction ns generalizing w P with
  | nil => rfl
  | cons n ns ih => simp only [List.cons_append, Yields, ih]

theorem Yields.ensures {ns : List Node} {P : List Value → Scene → Prop} (h : Yields ns w P) :
    Ensures (statements echo [] ns) w P := by
  induction ns generalizing w P with
  | nil => exact ensures_pure h
  | cons n ns ih =>
    rw [statements_cons]
    refine .bind (ensures_statement (Ensures.mono h fun v w' h => ⟨h.1, fun es _ => ?_⟩))
    rw [statements_eq_map]
    exact fun m hm =>
      let ⟨vs, m', hrun, hP⟩ := ih (h.2 es) m hm
      ⟨v :: vs, m', by simp [Functor.map, EStateM.map, hrun], hP⟩

/-- However statements are spread over source texts, and with echo or without. -/
theorem Yields.outcomes {steps : List (Bool × String)} {m : Machine}
    {P : List Value → Scene → Prop} (hread : ∀ s ∈ steps, ∃ p, Node.ofSource s.2 = .ok p)
    (h : Yields (steps.flatMap fun s => statementsRead s.2) m.scene P) :
    ∃ vss : List (List Value), (outcomes (sources steps) m).map (·.1) = vss.map .ok ∧
      ∃ w, P vss.flatten w := by
  induction steps generalizing m P with
  | nil => exact ⟨[], rfl, _, h⟩
  | cons step steps ih =>
    obtain ⟨echo, text⟩ := step
    rw [List.forall_mem_cons] at hread
    obtain ⟨⟨p, hp⟩, hread⟩ := hread
    obtain ⟨hs⟩ := Node.wellFormed_of_ofSource hp
    rename_i ns
    have hns : statementsRead text = ns := by rw [statementsRead, hp]
    rw [List.flatMap_cons, hns, yields_append] at h
    have hrun : Ensures (statements echo [] ns) m.scene _ := h.ensures
    obtain ⟨vs, m', hsource, hrest⟩ := source_of_ensures hp hrun
    obtain ⟨vss, hvss, w, hP⟩ := ih hread hrest
    refine ⟨vs :: vss, ?_, w, hP⟩
    have hstep : (Step.source text).run echo m = (.ok vs, m') := hsource
    rw [sources, List.map_cons, Session.outcomes, hstep, List.map_cons, List.map_cons]
    exact congrArg _ hvss

end Session
end Script
