import Script.Proofs.Concatenation
import Script.Proofs.Coupling
import Script.Proofs.Visits

/-!
# Programs from source texts do not go wrong

Running such a program gives one value for each of its statements, or ends in a fault that the
language speaks of: a name that is used in the wrong way, a value that is no function, a missing
argument, or operands that an operator refuses. Apart from that only the bounds of a run are met.
-/
namespace Script

/-- Every value that is bound on the machine is proper. -/
def Machine.Proper (m : Machine) : Prop :=
  ∀ id s, m.forest.scope? id = some s → ∀ b ∈ s.bindings, b.value.Proper

def Machine.Holds (V : Value → Prop) (m : Machine) : Prop :=
  ∀ id s, m.forest.scope? id = some s → ∀ b ∈ s.bindings, V b.value

section Holds

variable {V : Value → Prop} {m : Machine}

theorem holds_modifyAt (hm : m.Holds V) {id : ScopeId} {change : Scope → Scope}
    (hc : ∀ s, m.forest.scope? id = some s → ∀ b ∈ (change s).bindings, V b.value) :
    Machine.Holds V { m with forest := m.forest.modifyAt id change } := by
  intro a t ht b hb
  rcases Forest.scope?_modifyAt_eq_some ht with ⟨rfl, s, hs, rfl⟩ | ⟨-, hs⟩
  · exact hc s hs b hb
  · exact hm _ _ hs b hb

theorem holds_lookup? (hm : m.Holds V) {id owner : ScopeId} {name : Name} {b : Binding}
    (h : m.forest.lookup? id name = some (owner, b)) : V b.value := by
  obtain ⟨-, s, hs, hb⟩ := Forest.findFrom_eq_some h
  exact hm _ _ hs b (List.mem_of_find?_eq_some hb)

theorem holds_child (hm : m.Holds V) (parent : ScopeId) :
    Machine.Holds V { m with forest := ⟨m.forest.scopes.push (.inside (some parent))⟩ } := by
  intro id s hs b hb
  rcases Forest.scope?_push_eq_some hs with ⟨-, rfl⟩ | ⟨-, hs⟩
  · cases hb
  · exact hm _ _ hs b hb

theorem holds_captureFrom (hm : m.Holds V) (steps : Nat) (id : ScopeId) :
    Machine.Holds V { m with forest := Forest.captureFrom steps id m.forest } :=
  Forest.captureFrom_induction (P := fun g => Machine.Holds V { m with forest := g })
    (fun _ a hg => holds_modifyAt hg fun s hs => hg a s hs) steps id hm

theorem holds_leave (hm : m.Holds V) (discards : Bool) (id : ScopeId) :
    Machine.Holds V { m with forest := m.forest.leave discards id } := by
  rcases Forest.leave_cases m.forest discards id with h | ⟨-, h⟩
  · rw [h]
    exact hm
  · rw [h]
    exact holds_modifyAt hm fun s _ b hb => nomatch hb

theorem holds_bind (hm : m.Holds V) (id : ScopeId) (name : Name) {v : Value} (hv : V v)
    (mark : Mark) :
    Machine.Holds V { m with forest := m.forest.modifyAt id (·.bind ⟨name, v, mark⟩) } :=
  holds_modifyAt hm fun s hs => List.forall_mem_cons.mpr ⟨hv, hm _ s hs⟩

theorem holds_rebind (hm : m.Holds V) (id : ScopeId) (name : Name) {v : Value} (hv : V v) :
    Machine.Holds V { m with forest := m.forest.modifyAt id (·.rebind name v) } := by
  refine holds_modifyAt hm fun s hs b hb => ?_
  obtain ⟨c, hc, rfl⟩ := List.mem_map.mp hb
  split
  · exact hv
  · exact hm _ _ hs c hc

theorem holds_unbind (hm : m.Holds V) (id : ScopeId) (name : Name) :
    Machine.Holds V { m with forest := m.forest.modifyAt id (·.unbind name) } :=
  holds_modifyAt hm fun s hs b hb => hm _ s hs b (List.mem_of_mem_filter hb)

/-- An operation on scopes that keeps a property of all values, unless it does not go through. -/
def Forest.Upholds {α : Type} (V : Value → Prop) (P : α → Prop) (action : Forest.Action α) : Prop :=
  ∀ m : Machine, m.Holds V →
    (∃ a f, action m.forest = .ok a f ∧ Machine.Holds V { m with forest := f } ∧ P a) ∨
      ∃ fault, action m.forest = .error fault m.forest

theorem upholds_child (parent : ScopeId) :
    Forest.Upholds V (fun _ => True) (Forest.child parent) :=
  fun _ hm => .inl ⟨_, _, rfl, holds_child hm parent, trivial⟩

theorem upholds_define (id : ScopeId) (name : Name) {v : Value} (hv : V v) (mark : Mark) :
    Forest.Upholds V V (Forest.define id name v mark) := by
  intro m hm
  rcases Forest.define_cases m.forest id name v mark with herror | ⟨-, hok⟩
  · exact .inr herror
  · exact .inl ⟨v, _, hok, holds_bind hm id name hv mark, hv⟩

theorem upholds_get (id : ScopeId) (name : Name) : Forest.Upholds V V (Forest.get id name) := by
  intro m hm
  rcases Forest.get_cases m.forest id name with herror | ⟨owner, b, hl, hok⟩
  · exact .inr herror
  · exact .inl ⟨_, _, hok, hm, holds_lookup? hm hl⟩

theorem upholds_set (id : ScopeId) (name : Name) {v : Value} (hv : V v) :
    Forest.Upholds V V (Forest.set id name v) := by
  intro m hm
  rcases Forest.set_cases m.forest id name v with herror | ⟨owner, b, -, -, hok⟩
  · exact .inr herror
  · exact .inl ⟨v, _, hok, holds_rebind hm _ name hv, hv⟩

theorem upholds_delete (id : ScopeId) (name : Name) :
    Forest.Upholds V V (Forest.delete id name) := by
  intro m hm
  rcases Forest.delete_cases m.forest id name with herror | ⟨owner, b, hl, -, hok⟩
  · exact .inr herror
  · exact .inl ⟨_, _, hok, holds_unbind hm _ name, holds_lookup? hm hl⟩

end Holds

namespace Progress

/-- The faults that the language speaks of, and those that stop a run somewhere on its way; from
there to its end nothing but the scopes changes. -/
inductive Documented (S : Fault → Machine → Prop) (n : Machine) : Fault → Prop
  | binding (fault) : Documented S n (.binding fault)
  | missingArgument : Documented S n (.evaluation .missingArgument)
  | notFunction (name) : Documented S n (.evaluation (.notFunction name))
  | stopped {fault f} (h : S fault { n with forest := f }) : Documented S n fault

theorem Documented.of_stopped {S T : Fault → Machine → Prop} {n n' : Machine} {fault : Fault}
    (h : Documented S n fault)
    (hs : ∀ f, S fault { n with forest := f } → ∃ g, T fault { n' with forest := g }) :
    Documented T n' fault := by
  cases h with
  | binding fault => exact .binding fault
  | missingArgument => exact .missingArgument
  | notFunction name => exact .notFunction name
  | stopped h =>
    obtain ⟨g, hg⟩ := hs _ h
    exact .stopped hg

theorem Documented.leave {S : Fault → Machine → Prop} {n : Machine} {fault : Fault}
    (h : Documented S n fault) (f : Forest) : Documented S { n with forest := f } fault :=
  h.of_stopped fun f hf => ⟨f, hf⟩

/-- A run ends with a value for which `P` holds, or in a documented fault. -/
inductive Fine {α : Type} (S : Fault → Machine → Prop) (P : α → Prop) :
    EStateM.Result Fault Machine α → Prop
  | ok {a n} (hn : n.Proper) (ha : P a) : Fine S P (.ok a n)
  | error {fault n} (hn : n.Proper) (hf : Documented S n fault) :
      Fine S P (.error fault n)

/-- A computation that ends well on every machine with proper values. -/
def Safe {α : Type} (S : Fault → Machine → Prop) (P : α → Prop) (x : Run α) : Prop :=
  ∀ m : Machine, m.Proper → Fine S P (x m)

section Steps

variable {S : Fault → Machine → Prop} {α β : Type} {P : α → Prop} {Q : β → Prop}

theorem safe_pure {a : α} (ha : P a) : Safe S P (pure a) := fun _ hm => .ok hm ha

theorem safe_throw {fault : Fault} (h : ∀ n, Documented S n fault) :
    Safe S P (throw fault) := fun m hm => .error hm (h m)

theorem fine_of_stops {fault : Fault} {m : Machine} (hm : m.Proper) (h : S fault m) :
    Fine S P (.error fault m) :=
  .error hm (.stopped (f := m.forest) h)

theorem Fine.mono {T : Fault → Machine → Prop} {r : EStateM.Result Fault Machine α}
    (h : Fine S P r) (hs : ∀ fault n, S fault n → T fault n) : Fine T P r := by
  cases h with
  | ok hn ha => exact .ok hn ha
  | error hn hf => exact .error hn (hf.of_stopped fun f hf => ⟨f, hs _ _ hf⟩)

theorem Fine.bind {x : Run α} {k : α → Run β} {m : Machine} (hx : Fine S P (x m))
    (hk : ∀ a n, x m = .ok a n → n.Proper → P a → Fine S Q (k a n)) : Fine S Q ((x >>= k) m) := by
  simp only [Bind.bind, EStateM.bind]
  cases hr : x m with
  | ok a n =>
    rw [hr] at hx
    cases hx with
    | ok hn ha => exact hk a n hr hn ha
  | error fault n =>
    rw [hr] at hx
    cases hx with
    | error hn hf => exact .error hn hf

theorem Safe.bind {x : Run α} {k : α → Run β} (hx : Safe S P x)
    (hk : ∀ a, P a → Safe S Q (k a)) : Safe S Q (x >>= k) :=
  fun m hm => (hx m hm).bind fun a n _ hn ha => hk a ha n hn

theorem Safe.discard {x : Run α} (hx : Safe S P x) :
    Safe S (fun _ => True) (Functor.discard x) :=
  hx.bind fun _ _ => safe_pure trivial

theorem safe_ofExcept {x : Except Fault α} (h : ∃ a, x = .ok a ∧ P a) :
    Safe S P (Run.ofExcept x) := by
  obtain ⟨a, rfl, ha⟩ := h
  exact safe_pure ha

/-- A change that has nothing to do with the forest. -/
theorem safe_modifyGet {g : Machine → α × Machine} (hg : ∀ m, (g m).2.forest = m.forest) :
    Safe S (fun _ => True) (modifyGet g : Run α) := by
  intro m hm
  have hn : (g m).2.Proper := by
    intro id s hs
    rw [hg] at hs
    exact hm _ _ hs
  exact .ok hn trivial

theorem safe_record (event : Event) : Safe S (fun _ => True) (Run.record event) :=
  safe_modifyGet fun _ => rfl

theorem safe_freshIdentity : Safe S (fun _ => True) Run.freshIdentity :=
  safe_modifyGet fun _ => rfl

theorem safe_now : Safe S (fun _ => True) Run.now := safe_modifyGet fun _ => rfl

theorem safe_random : Safe S (fun _ => True) Run.random := safe_modifyGet fun _ => rfl

theorem safe_written (s : String) :
    Safe S (fun _ => True) (Functor.discard (Run.ofExcept (Content.written (.text s)))) :=
  (safe_ofExcept (P := fun _ => True) ⟨s, rfl, trivial⟩).discard

theorem safe_write (s : String) : Safe S (fun _ => True) (Run.write (.text s)) :=
  (safe_written s).bind fun _ _ => safe_record _

theorem safe_readLine? (s : String) : Safe S (fun _ => True) (Run.readLine? (.text s)) := by
  refine (safe_written s).bind fun _ _ => (safe_record _).bind fun _ _ => ?_
  refine safe_modifyGet fun m => ?_
  cases m.inputs <;> rfl

theorem safe_get {k : Machine → Run α} (h : ∀ m, Safe S P (k m)) :
    Safe S P (MonadState.get >>= k) :=
  fun m hm => h m m hm

/-- A message that is a text. -/
theorem safe_log (level : Nat) {message : Unit → Except Fault Node}
    (h : ∃ s, message () = .ok (.text s)) :
    Safe S (fun _ => True) (Run.log level message) := by
  obtain ⟨s, hs⟩ := h
  refine safe_get fun m => ?_
  split
  · refine (safe_ofExcept (P := fun n => n = .text s) ⟨_, hs, rfl⟩).bind fun n hn => ?_
    subst hn
    refine (safe_ofExcept (P := fun _ => True) ⟨s, rfl, trivial⟩).bind fun text _ => ?_
    exact safe_record _
  · exact safe_pure trivial

/-- An operation on scopes that keeps the values proper. -/
theorem safe_scopes {action : Forest.Action α} (h : Forest.Upholds Value.Proper P action) :
    Safe S P (Run.scopes action) := by
  intro m hm
  rcases h m hm with ⟨a, f, ha, hn, hp⟩ | ⟨fault, hf⟩
  · simp only [Run.scopes, ha]
    exact .ok hn hp
  · simp only [Run.scopes, hf]
    exact .error hm (.binding fault)

theorem safe_child (parent : ScopeId) :
    Safe S (fun _ => True) (Run.scopes (Forest.child parent)) :=
  safe_scopes (upholds_child parent)

theorem safe_define (id : ScopeId) (name : Name) {v : Value} (hv : v.Proper) (mark : Mark) :
    Safe S Value.Proper (Run.scopes (Forest.define id name v mark)) :=
  safe_scopes (upholds_define id name hv mark)

theorem safe_lookup (id : ScopeId) (name : Name) :
    Safe S Value.Proper (Run.scopes (Forest.get id name)) :=
  safe_scopes (upholds_get id name)

theorem safe_set (id : ScopeId) (name : Name) {v : Value} (hv : v.Proper) :
    Safe S Value.Proper (Run.scopes (Forest.set id name v)) :=
  safe_scopes (upholds_set id name hv)

theorem safe_delete (id : ScopeId) (name : Name) :
    Safe S Value.Proper (Run.scopes (Forest.delete id name)) :=
  safe_scopes (upholds_delete id name)

theorem fine_within {parent : ScopeId} {body : ScopeId → Run Unit} {m : Machine}
    (h : Fine S (fun _ => True) (body m.forest.scopes.size (m.inside parent))) :
    Fine S (fun _ => True) (Run.within parent body m) := by
  rw [within_apply]
  generalize body m.forest.scopes.size (m.inside parent) = r at h
  cases h with
  | ok hn _ => exact .ok (holds_leave hn _ _) trivial
  | error hn hf => exact .error (holds_leave hn _ _) (hf.leave _)

theorem safe_within {parent : ScopeId} {body : ScopeId → Run Unit}
    (hb : ∀ id, Safe S (fun _ => True) (body id)) :
    Safe S (fun _ => True) (Run.within parent body) :=
  fun _ hm => fine_within (hb _ _ (holds_child hm parent))

/-- There is room for copies unless something stops the run. -/
theorem fine_allocate {copies : Option (Nat × Nat)} {m : Machine} (hm : m.Proper)
    (hS : ∀ count length, copies = some (count, length) → m.ambient.memory ≤ length * count →
      ∀ n, S (@Fault.outOfMemory count length) n) :
    Fine S (fun _ => True) (Run.allocate copies m) := by
  rcases copies with _ | ⟨count, length⟩
  · exact .ok hm trivial
  · rw [allocate_some]
    split
    · exact fine_of_stops hm (hS count length rfl ‹_› m)
    · exact .ok hm trivial

theorem safe_one {args : List Value} (ha : ∀ v ∈ args, v.Proper) :
    Safe S Value.Proper (Library.one args) := by
  cases args with
  | nil => exact safe_throw fun _ => .missingArgument
  | cons v args => exact safe_pure (ha v (by simp))

theorem hint_proper {args : List Value} (ha : ∀ v ∈ args, v.Proper) :
    ∃ s, Library.hint args = .ok (.text s) := by
  cases args with
  | nil => exact ⟨_, rfl⟩
  | cons v args => exact (ha v (by simp)).content

theorem toNumber_proper {v : Value} (hv : v.Proper) :
    ∃ w, Library.toNumber v = .ok w ∧ w.Proper := by
  cases hv with
  | number h => exact ⟨_, rfl, .number h⟩
  | _ => exact ⟨_, rfl, Value.proper_ofDouble _⟩

theorem toBoolean_proper {v : Value} (hv : v.Proper) : ∃ b, Library.toBoolean v = .ok b := by
  cases hv with
  | number h =>
    obtain ⟨x, -, hx⟩ := (Value.Proper.number h).readNumber
    exact ⟨_, by simp only [Library.toBoolean, hx, ok_bind]; rfl⟩
  | _ => exact ⟨_, rfl⟩

theorem length_proper {v : Value} (hv : v.Proper) : ∃ n, Library.length v = .ok n := by
  cases hv with
  | _ => exact ⟨_, rfl⟩

/-- A function of the first argument. -/
theorem safe_of_one {args : List Value} {k : Value → Except Fault α} {w : α → Value}
    (ha : ∀ v ∈ args, v.Proper) (hk : ∀ v, v.Proper → ∃ a, k v = .ok a ∧ (w a).Proper) :
    Safe S Value.Proper (do return w (← Run.ofExcept (k (← Library.one args)))) := by
  refine (safe_one ha).bind fun v hv => ?_
  exact (safe_ofExcept (hk v hv)).bind fun a h => safe_pure h

theorem safe_rand (s : String) : Safe S Value.Proper (Library.rand (.text s)) := by
  refine safe_random.bind fun n _ => ?_
  split
  · exact safe_now.bind fun _ _ => safe_pure (Value.proper_ofDouble _)
  · exact safe_pure (.boolean _)
  · exact safe_pure (.string _)

theorem safe_libraryCall (f : Native) {args : List Value} (ha : ∀ v ∈ args, v.Proper) :
    Safe S Value.Proper (Library.call f args) := by
  have hhint : Safe S (fun n => ∃ s, n = .text s) (Run.ofExcept (Library.hint args)) := by
    obtain ⟨s, hs⟩ := hint_proper ha
    exact safe_ofExcept ⟨_, hs, s, rfl⟩
  cases f with
  | print =>
    obtain ⟨texts, ht⟩ := Value.contents_proper ha
    refine (safe_ofExcept (P := fun ns => ns = texts.map .text) ⟨_, ht, rfl⟩).bind ?_
    rintro _ rfl
    refine (safe_ofExcept (P := fun n => ∃ s, n = .text s)
      ⟨_, Content.line_texts " " texts, _, rfl⟩).bind ?_
    rintro _ ⟨s, rfl⟩
    exact (safe_write s).bind fun _ _ => safe_pure .null
  | clear => exact (safe_record _).bind fun _ _ => safe_pure .null
  | timestamp => exact safe_now.bind fun _ _ => safe_pure (Value.proper_ofDouble _)
  | rand =>
    refine hhint.bind ?_
    rintro _ ⟨s, rfl⟩
    exact safe_rand s
  | number => exact (safe_one ha).bind fun v hv => safe_ofExcept (toNumber_proper hv)
  | string =>
    refine safe_of_one ha fun v hv => ?_
    obtain ⟨s, hs⟩ := hv.content
    exact ⟨_, hs, .string s⟩
  | boolean =>
    refine safe_of_one ha fun v hv => ?_
    obtain ⟨b, hb⟩ := toBoolean_proper hv
    exact ⟨b, hb, .boolean b⟩
  | length =>
    refine safe_of_one ha fun v hv => ?_
    obtain ⟨n, hn⟩ := length_proper hv
    exact ⟨n, hn, Value.proper_ofDouble _⟩
  | type => exact (safe_one ha).bind fun v _ => safe_pure (.string _)
  | input =>
    refine hhint.bind ?_
    rintro _ ⟨s, rfl⟩
    exact (safe_readLine? s).bind fun _ _ => safe_pure (.string _)

end Steps

/-- What is said of a declaration is a text. -/
theorem declared_message (opening x middle : String) {v : Value} (hv : v.Proper) :
    ∃ s, (do Content.line "" [.text opening, (Name.word x).toText, .text middle,
      ← Content.shown (← v.content)] : Except Fault Node) = .ok (.text s) := by
  obtain ⟨s, hs⟩ := hv.content
  simp only [hs, ok_bind, Content.shown, Node.toText, Name.toText, Name.toNode]
  exact ⟨_, Content.line_texts "" [opening, x, middle, s]⟩

/-- What is said of a function is a text. -/
theorem defined_message (x : String) (ps : List String) :
    ∃ s, (do Content.line "" [.text "define function ", (Name.word x).toText, .text "(",
      ← Content.line ", " (← Content.parts (.list (ps.map .text))), .text ")"] :
        Except Fault Node) = .ok (.text s) := by
  simp only [Content.parts, ok_bind, Content.line_texts, Name.toText, Name.toNode, Node.toText]
  exact ⟨_, Content.line_texts "" [_, x, _, _, _]⟩

/-- What is said of a call is a text. -/
theorem called_message (x : String) {args : List Value} (ha : ∀ v ∈ args, v.Proper) :
    ∃ s, (do Content.line "" [.text "call ", (Name.word x).toText, .text "(",
      ← Content.line ", " (← Value.contents args), .text ")"] : Except Fault Node) =
        .ok (.text s) := by
  obtain ⟨texts, ht⟩ := Value.contents_proper ha
  simp only [ht, ok_bind, Content.line_texts, Name.toText, Name.toNode, Node.toText]
  exact ⟨_, Content.line_texts "" [_, x, _, _, _]⟩

section Rules

variable {S : Fault → Machine → Prop} {eval : Evaluator}
  (heval : ∀ {n : Node} (scope : ScopeId), n.Statement → Safe S Value.Proper (eval n scope))
  (scope : ScopeId)

include heval

theorem safe_all {ns : List Node} (h : ∀ n ∈ ns, n.Expression) :
    Safe S (fun vs => ∀ v ∈ vs, v.Proper) (Evaluate.all eval scope ns) := by
  induction ns with
  | nil => exact safe_pure (by simp)
  | cons n ns ih =>
    obtain ⟨hn, hns⟩ := List.forall_mem_cons.mp h
    refine (heval scope (.expression hn)).bind fun v hv => (ih hns).bind fun vs hvs => ?_
    exact safe_pure (List.forall_mem_cons.mpr ⟨hv, hvs⟩)

theorem safe_sequence {ns : List Node} (h : ∀ n ∈ ns, n.Statement) :
    Safe S (fun _ => True) (Evaluate.sequence eval scope ns) := by
  induction ns with
  | nil => exact safe_pure trivial
  | cons n ns ih =>
    obtain ⟨hn, hns⟩ := List.forall_mem_cons.mp h
    exact (heval scope hn).discard.bind fun _ _ => ih hns

theorem safe_inOwnScope {ss : List Node} (h : ∀ s ∈ ss, s.Statement) :
    Safe S (fun _ => True) (Evaluate.inOwnScope eval (.list ss) scope) :=
  safe_within fun inner => safe_sequence heval inner h

theorem safe_blockIn {ss : List Node} (h : ∀ s ∈ ss, s.Statement) :
    Safe S (fun _ => True) (Evaluate.blockIn eval (.block (.list ss)) scope) :=
  safe_inOwnScope heval scope h

theorem safe_condition {n : Node} (h : n.Expression) :
    Safe S (fun _ => True) (Evaluate.condition eval n scope) := by
  refine (heval scope (.expression h)).bind fun v hv => ?_
  obtain ⟨b, hb⟩ := hv.holds
  exact safe_ofExcept ⟨b, hb, trivial⟩

omit heval in
/-- A loop ends well unless it goes through all the passes that it may take. -/
theorem fine_loop {condition : Run Bool} {body : Run Unit}
    (hc : Safe S (fun _ => True) condition) (hb : Safe S (fun _ => True) body) (bound count : Nat)
    {m : Machine} (hm : m.Proper) (hS : Repeats condition body bound m → ∀ n, S .unfinished n) :
    Fine S (fun _ => True) (Evaluate.loop condition body bound count m) := by
  induction bound generalizing count m with
  | zero => exact fine_of_stops hm (hS (.none m) m)
  | succ bound ih =>
    refine (hc m hm).bind fun holds m₁ h₁ hm₁ _ => ?_
    cases holds with
    | false => exact .ok hm₁ trivial
    | true =>
      refine (hb m₁ hm₁).bind fun _ m₂ h₂ hm₂ _ => ?_
      exact ih (count + 1) hm₂ fun hrest => hS (.pass h₁ h₂ hrest)

omit heval in
theorem safe_declare (x : String) (isConst : Node) {v : Value} (hv : v.Proper) :
    Safe S Value.Proper (Evaluate.declare (.text x) isConst v scope) := by
  refine (safe_define scope (.word x) hv _).discard.bind fun _ _ => ?_
  exact (safe_log 2 (declared_message _ x _ hv)).bind fun _ _ => safe_pure hv

omit heval in
/-- An expression is not missing. -/
theorem valueIfAny_of_expression {e : Node} (he : e.Expression) :
    Evaluate.valueIfAny eval e scope = eval e scope := by
  cases he <;> rfl

theorem safe_varDecl {d : Node} (h : d.Declaration) :
    Safe S Value.Proper (Evaluate.rule passes eval d scope) := by
  cases h with
  | uninitialized hx => exact safe_declare scope _ _ .null
  | initialized b hx he =>
    simp only [Evaluate.rule, Evaluate.varDecl, valueIfAny_of_expression scope he]
    exact (heval scope (.expression he)).bind fun v hv => safe_declare scope _ _ hv

theorem safe_assign (x : String) {e : Node} (he : e.Expression) :
    Safe S Value.Proper (Evaluate.assign eval (.text x) e scope) := by
  refine (heval scope (.expression he)).bind fun v hv => ?_
  exact safe_set scope (.word x) hv

omit heval in
theorem safe_ifStmt {test thenBlock elseBlock : Node}
    (ht : Safe S Value.Proper (eval test scope))
    (h₁ : Safe S (fun _ => True) (Evaluate.blockIn eval thenBlock scope))
    (h₂ : Safe S (fun _ => True) (Evaluate.blockIfAny eval elseBlock scope)) :
    Safe S Value.Proper (Evaluate.ifStmt eval test thenBlock elseBlock scope) := by
  refine ht.bind fun v hv => ?_
  obtain ⟨b, hb⟩ := hv.holds
  obtain ⟨s, hs⟩ := hv.content
  refine (safe_ofExcept (P := fun _ => True) ⟨b, hb, trivial⟩).bind fun holds _ => ?_
  refine (safe_log 3 ?_).bind fun _ _ => ?_
  · simp only [hs, ok_bind, Content.shown, Node.toText]
    exact ⟨_, Content.line_texts "" [_, s, _]⟩
  · split
    · exact h₁.bind fun _ _ => safe_pure .null
    · exact h₂.bind fun _ _ => safe_pure .null

theorem fine_whileStmt {passes : Nat} {test : Node} {ss : List Node} (ht : test.Expression)
    (h : ∀ s ∈ ss, s.Statement) {m : Machine} (hm : m.Proper)
    (hS : ∀ fault n,
      Evaluate.Halts passes eval (.whileStmt test (.block (.list ss))) scope m fault → S fault n) :
    Fine S Value.Proper (Evaluate.whileStmt passes eval test (.block (.list ss)) scope m) := by
  have hloop := fine_loop (safe_condition heval scope ht) (safe_blockIn heval scope h) passes 0 hm
    fun hpasses n => hS _ n (.whileLoop hpasses)
  refine hloop.bind fun count n _ hn _ => ?_
  exact (safe_log 3 ⟨_, rfl⟩).bind (fun _ _ => safe_pure .null) n hn

theorem fine_forStmt {passes : Nat} {init test update : Node} {ss : List Node}
    (hi : init.Statement) (ht : test.Expression) (hu : update.Expression)
    (h : ∀ s ∈ ss, s.Statement) {m : Machine} (hm : m.Proper)
    (hS : ∀ fault n,
      Evaluate.Halts passes eval (.forStmt init test update (.block (.list ss))) scope m fault →
        S fault n) :
    Fine S Value.Proper
      (Evaluate.forStmt passes eval init test update (.block (.list ss)) scope m) := by
  refine Fine.bind (fine_within ?_) fun _ n _ hn _ => safe_pure .null n hn
  have hinner : (m.inside scope).Proper := holds_child hm scope
  refine ((heval _ hi).discard _ hinner).bind fun _ m₁ hrun hm₁ _ => ?_
  obtain ⟨v, k, hinit, hk⟩ := Run.ok_of_bind hrun
  cases hk
  have hpass := (safe_blockIn heval m.forest.scopes.size h).bind fun _ _ =>
    (heval m.forest.scopes.size (.expression hu)).discard
  have hloop := fine_loop (safe_condition heval _ ht) hpass passes 0 hm₁
    fun hpasses n => hS _ n (.forLoop rfl hinit hpasses)
  exact hloop.bind fun count n _ hn _ => safe_log 3 ⟨_, rfl⟩ n hn

omit heval in
theorem safe_funcDecl (x : String) (ps : List String) {ss : List Node}
    (h : ∀ s ∈ ss, s.Statement) :
    Safe S Value.Proper
      (Evaluate.funcDecl (.text x) (.list (ps.map .text)) (.block (.list ss)) scope) := by
  have hcap : Safe S (fun _ => True) (Run.onForest (·.capture scope)) :=
    fun m hm => .ok (holds_captureFrom hm _ _) trivial
  have hname : Safe S (fun name => name = .word x) (Evaluate.nameOf (.text x)) := safe_pure rfl
  refine hcap.bind fun _ _ => hname.bind ?_
  rintro _ rfl
  refine safe_freshIdentity.bind fun i _ => ?_
  have hf : Value.Proper (.function i (.word x) (.list (ps.map .text)) (.block (.list ss)) scope) :=
    .function i x ps scope h
  refine (safe_define scope (.word x) hf _).discard.bind fun _ _ => ?_
  exact (safe_log 2 (defined_message x ps)).bind fun _ _ => safe_pure hf

omit heval in
theorem safe_bindParams (ps : List String) {args : List Value} (ha : ∀ v ∈ args, v.Proper) :
    Safe S (fun _ => True) (Evaluate.bindParams scope (ps.map .text) args) := by
  induction ps generalizing args with
  | nil => exact safe_pure trivial
  | cons p ps ih =>
    have hv : (args.headD .null).Proper := by
      cases args with
      | nil => exact .null
      | cons v args => exact ha v (by simp)
    refine (safe_define scope (.word p) hv _).discard.bind fun _ _ => ?_
    exact ih fun v hv => ha v (List.mem_of_mem_tail hv)

theorem safe_body {ns : List Node} (h : ∀ n ∈ ns, n.Statement) :
    Safe S Value.Proper (Evaluate.body eval scope ns) := by
  induction ns with
  | nil => exact safe_pure .null
  | cons n ns ih =>
    obtain ⟨hn, hns⟩ := List.forall_mem_cons.mp h
    cases n with
    | returnStmt value => exact heval scope hn
    | _ => exact (heval scope hn).discard.bind fun _ _ => ih hns

omit scope in
theorem safe_invoke (name : Name) {f : Value} {args : List Value} (hf : f.Proper)
    (ha : ∀ v ∈ args, v.Proper) : Safe S Value.Proper (Evaluate.invoke eval name f args) := by
  cases hf with
  | native f => exact safe_libraryCall f ha
  | function i x ps closure hs =>
    refine (safe_child closure).bind fun scope _ => ?_
    exact (safe_bindParams scope ps ha).bind fun _ _ => safe_body heval scope hs
  | _ => exact safe_throw fun _ => .notFunction _

theorem safe_call (x : String) {es : List Node} (he : ∀ e ∈ es, e.Expression) :
    Safe S Value.Proper (Evaluate.call eval (.text x) (.list es) scope) := by
  refine (safe_lookup scope (.word x)).bind fun f hf => ?_
  refine (safe_all heval scope he).bind fun args ha => ?_
  exact (safe_log 4 (called_message x ha)).bind fun _ _ => safe_invoke heval (.word x) hf ha

theorem safe_negation {s : String} {e : Node} (hs : s ∈ Grammar.negations) (he : e.Expression) :
    Safe S Value.Proper (Evaluate.unary eval (.text s) e scope) := by
  refine (heval scope (.expression he)).bind fun v hv => ?_
  simp only [Grammar.negations, List.mem_cons, List.not_mem_nil, or_false] at hs
  rcases hs with rfl | rfl
  · obtain ⟨b, hb⟩ := hv.isFalsy
    refine (safe_ofExcept (P := fun _ => True) ⟨b, hb, trivial⟩).bind fun b _ => ?_
    exact safe_pure (.boolean _)
  · simp only [Node.plain]
    split
    · obtain ⟨x, -, hx⟩ := hv.readNumber
      refine (safe_ofExcept (P := fun _ => True) ⟨x, hx, trivial⟩).bind fun x _ => ?_
      exact safe_pure (Value.proper_ofDouble _)
    · exact safe_pure .null

theorem safe_step {s x : String} (hs : s ∈ Grammar.steps) (hx : Node.ProperName x) :
    Safe S Value.Proper (Evaluate.unary eval (.text s) (.identifier (.text x)) scope) := by
  refine (heval scope (.expression (.identifier hx))).bind fun v hv => ?_
  have hnext (operator : String) : Safe S (fun next? : Option Value => ∀ w ∈ next?, w.Proper)
      (Run.ofExcept (Operator.step? operator v)) :=
    safe_ofExcept (Operator.step?_proper hv operator)
  simp only [Grammar.steps, List.mem_cons, List.not_mem_nil, or_false] at hs
  rcases hs with rfl | rfl
  all_goals
    refine (hnext _).bind fun next? h => ?_
    cases next? with
    | none => exact safe_pure .null
    | some next => exact safe_set scope (.word x) (h next rfl)

/-- The second operand of `&&` and `||`. -/
theorem safe_truth {e : Node} (he : e.Expression) : Safe S Value.Proper
    (do return .boolean !(← Run.ofExcept (← eval e scope).isFalsy)) := by
  refine (heval scope (.expression he)).bind fun v hv => ?_
  obtain ⟨b, hb⟩ := hv.isFalsy
  refine (safe_ofExcept (P := fun _ => True) ⟨b, hb, trivial⟩).bind fun b _ => ?_
  exact safe_pure (.boolean _)

theorem safe_lazy {s : String} {left right : Node} (hs : s ∈ ["&&", "||"]) (hl : left.Expression)
    (hr : right.Expression) :
    Safe S Value.Proper (Evaluate.binary eval (.text s) left right scope) := by
  refine (heval scope (.expression hl)).bind fun v hv => ?_
  obtain ⟨b, hb⟩ := hv.isFalsy
  simp only [List.mem_cons, List.not_mem_nil, or_false] at hs
  rcases hs with rfl | rfl
  · refine (safe_ofExcept (P := fun _ => True) ⟨b, hb, trivial⟩).bind fun b _ => ?_
    cases b with
    | true => exact safe_pure (.boolean _)
    | false => exact safe_truth heval scope hr
  · refine (safe_ofExcept (P := fun _ => True) ⟨b, hb, trivial⟩).bind fun b _ => ?_
    cases b with
    | true => exact safe_truth heval scope hr
    | false => exact safe_pure (.boolean _)

omit heval in
theorem binary_strict {s : String} (hs : s ∈ Operator.strict) (left right : Node) :
    Evaluate.binary eval (.text s) left right scope = (do
      let a ← eval left scope
      let b ← eval right scope
      Run.allocate (Operator.copies? s a b)
      Operator.apply (← Run.freshIdentity) s a b) := by
  simp only [Operator.strict, List.mem_cons, List.not_mem_nil, or_false] at hs
  rcases hs with rfl | rfl | rfl | rfl | rfl | rfl | rfl | rfl | rfl | rfl | rfl | rfl <;> rfl

/-- An operator that looks at both operands stops the run if there is no room or it refuses them. -/
theorem fine_strict {passes : Nat} {s : String} {left right : Node} (hs : s ∈ Operator.strict)
    (hl : left.Expression) (hr : right.Expression) {m : Machine} (hm : m.Proper)
    (hS : ∀ fault n, Evaluate.Halts passes eval (.binaryOp (.text s) left right) scope m fault →
      S fault n) :
    Fine S Value.Proper (Evaluate.binary eval (.text s) left right scope m) := by
  rw [binary_strict scope hs]
  refine (heval scope (.expression hl) m hm).bind fun a m₁ h₁ hm₁ ha => ?_
  refine (heval scope (.expression hr) m₁ hm₁).bind fun b m₂ h₂ hm₂ hb => ?_
  have hroom := fine_allocate (S := S) hm₂ fun count length hcopies hroom n => by
    obtain rfl : s = "*" := Operator.eq_of_copies? hcopies
    exact hS _ n (.exhausted h₁ h₂ hcopies hroom)
  refine hroom.bind fun _ m₃ _ hm₃ _ => ?_
  refine (safe_freshIdentity m₃ hm₃).bind fun i m₄ _ hm₄ _ => ?_
  rcases Operator.apply_proper ha hb i hs with ⟨v, hv, hp⟩ | ⟨fault, hf, href⟩
  · rw [hv]
    exact .ok hm₄ hp
  · rw [hf]
    exact fine_of_stops hm₄ (hS fault m₄ (.refused h₁ h₂ href))

theorem safe_arrayLiteral {es : List Node} (he : ∀ e ∈ es, e.Expression) :
    Safe S Value.Proper (Evaluate.arrayLiteral eval (.list es) scope) := by
  refine (safe_all heval scope he).bind fun vs hvs => ?_
  exact safe_freshIdentity.bind fun i _ => safe_pure (.array i hvs)

theorem safe_index {a i : Node} (ha : a.Expression) (hi : i.Expression) :
    Safe S Value.Proper (Evaluate.index eval a i scope) := by
  refine (heval scope (.expression ha)).bind fun v hv => ?_
  refine (heval scope (.expression hi)).bind fun w hw => ?_
  exact safe_ofExcept (hv.get hw)

/-- The rule of a statement, on a machine where it stops the run if anything but a part does. -/
theorem fine_rule {passes : Nat} {n : Node} (hn : n.Statement) {m : Machine} (hm : m.Proper)
    (hS : ∀ fault k, Evaluate.Halts passes eval n scope m fault → S fault k) :
    Fine S Value.Proper (Evaluate.rule passes eval n scope m) := by
  cases hn with
  | expression he =>
    cases he with
    | @number s hs =>
      obtain ⟨x, hx⟩ := Value.readNumber_of_isNumeral hs
      refine (safe_ofExcept (P := fun _ => True) ⟨x, hx, trivial⟩).bind (fun x _ => ?_) m hm
      exact safe_pure (Value.proper_ofDouble x)
    | string => exact safe_pure (.string _) m hm
    | boolean b => exact safe_pure (.boolean _) m hm
    | null => exact safe_pure .null m hm
    | identifier => exact safe_lookup scope (.word _) m hm
    | assign _ he => exact safe_assign heval scope _ he m hm
    | negation hs he => exact safe_negation heval scope hs he m hm
    | step hs hx => exact safe_step heval scope hs hx m hm
    | @binary s a b hs ha hb =>
      have hop : ∀ s ∈ Node.binaryOperators, s ∈ ["&&", "||"] ∨ s ∈ Operator.strict := by decide
      rcases hop s hs with hs | hs
      · exact safe_lazy heval scope hs ha hb m hm
      · exact fine_strict heval scope hs ha hb hm hS
    | call _ he => exact safe_call heval scope _ he m hm
    | array he => exact safe_arrayLiteral heval scope he m hm
    | index ha hi => exact safe_index heval scope ha hi m hm
  | declaration hd => exact safe_varDecl heval scope hd m hm
  | block hs => exact (safe_inOwnScope heval scope hs).bind (fun _ _ => safe_pure .null) m hm
  | empty => exact safe_pure .null m hm
  | function _ _ hs => exact safe_funcDecl scope _ _ hs m hm
  | ifThen he hs =>
    have hthen := safe_blockIn heval scope hs
    refine safe_ifStmt scope (heval scope (.expression he)) hthen ?_ m hm
    exact safe_pure trivial
  | ifElse he hs hr =>
    have hthen := safe_blockIn heval scope hs
    refine safe_ifStmt scope (heval scope (.expression he)) hthen ?_ m hm
    exact safe_blockIn heval scope hr
  | «while» he hs => exact fine_whileStmt heval scope he hs hm hS
  | «for» hi he hn hs =>
    refine fine_forStmt heval scope ?_ he hn hs hm hS
    rcases hi with hi | hi
    · exact .declaration hi
    · exact .expression hi
  | returnNothing => exact safe_pure .null m hm
  | @returnValue e he =>
    have hsafe : Safe S Value.Proper (Evaluate.valueIfAny eval e scope) := by
      rw [valueIfAny_of_expression scope he]
      exact heval scope (.expression he)
    exact hsafe m hm
  | delete => exact safe_delete scope (.word _) m hm

end Rules

/-- Evaluation of statements, by induction on the depth. Parts that the rule does not meet may be
taken to have the value null, so it is enough to know what the others come to. -/
theorem fine_evaluate (passes depth : Nat) {n : Node} (scope : ScopeId) (hn : n.Statement)
    {m : Machine} (hm : m.Proper) :
    Fine (Evaluation.Stopped passes ⟨depth, n, scope, m⟩) Value.Proper
      (evaluate passes depth n scope m) := by
  classical
  induction depth generalizing n scope m with
  | zero => exact fine_of_stops hm ⟨_, .here _, .tooDeep n scope m, rfl⟩
  | succ depth ih =>
    let met : Evaluator := fun k t start =>
      if (Course.rule passes n scope).Meets (evaluate passes depth) k t start m then
        evaluate passes depth k t start
      else .ok .null start
    have hmet (k : Node) (t : ScopeId) (start : Machine)
        (h : (Course.rule passes n scope).Meets (evaluate passes depth) k t start m) :
        evaluate passes depth k t start = met k t start := (if_pos h).symm
    let S (fault : Fault) (k : Machine) : Prop :=
      Evaluation.Stopped passes ⟨depth + 1, n, scope, m⟩ fault k ∨
        Evaluate.Halts passes met n scope m fault
    have heval {k : Node} (t : ScopeId) (hk : k.Statement) : Safe S Value.Proper (met k t) := by
      intro start hstart
      by_cases h : (Course.rule passes n scope).Meets (evaluate passes depth) k t start m
      · rw [← hmet k t start h]
        refine (ih t hk hstart).mono fun fault k ⟨goal, hgoal, hhalts⟩ => ?_
        exact .inl ⟨goal, .part h hgoal, hhalts⟩
      · have hnull : met k t start = .ok .null start := if_neg h
        rw [hnull]
        exact .ok hstart .null
    have hrun : evaluate passes (depth + 1) n scope m = Evaluate.rule passes met n scope m :=
      (Course.rule passes n scope).apply_congr hmet
    have hfine := fine_rule (S := S) heval scope hn hm fun _ _ h => .inr h
    rw [← hrun] at hfine
    cases hr : evaluate passes (depth + 1) n scope m with
    | ok v k =>
      rw [hr] at hfine
      cases hfine with
      | ok hk hv => exact .ok hk hv
    | error fault k =>
      rw [hr] at hfine
      cases hfine with
      | error hk hf =>
        refine .error hk (hf.of_stopped fun f hS => ?_)
        rcases hS with hS | hhalts
        · exact ⟨f, hS⟩
        · exact ⟨k.forest, _, .here _, .rule (hhalts.congr hmet), hr⟩

/-- Such evaluations never fail because something cannot be shown. -/
theorem safe_evaluate (passes depth : Nat) {n : Node} (scope : ScopeId) (hn : n.Statement) :
    Safe (fun fault _ => ¬ fault.Unshown) Value.Proper (evaluate passes depth n scope) :=
  fun _ hm => (fine_evaluate passes depth scope hn hm).mono fun _ _ h => h.not_unshown

/-- A run of statements is stopped where the evaluation of one of them is, and the statements before
it have ended well. -/
inductive Stopped (echo : Bool) : List Node → Machine → Fault → Machine → Prop
  | here {n ns m fault k}
      (h : Evaluation.Stopped Session.passLimit ⟨Session.depthLimit, n, Forest.root, m⟩ fault k) :
      Stopped echo (n :: ns) m fault k
  | later {n ns m v m' fault k} (h : Session.statement echo n m = .ok v m')
      (rest : Stopped echo ns m' fault k) : Stopped echo (n :: ns) m fault k

theorem Stopped.not_unshown {echo : Bool} {ns : List Node} {m k : Machine} {fault : Fault}
    (h : Stopped echo ns m fault k) : ¬ fault.Unshown := by
  induction h with
  | here h => exact h.not_unshown
  | later _ _ ih => exact ih

theorem fine_statement (echo : Bool) {n : Node} (hn : n.Statement) {m : Machine} (hm : m.Proper) :
    Fine (Evaluation.Stopped Session.passLimit ⟨Session.depthLimit, n, Forest.root, m⟩)
      Value.Proper (Session.statement echo n m) := by
  refine (fine_evaluate _ _ Forest.root hn hm).bind fun v k _ hk hv => ?_
  cases echo && !v.isNull with
  | false => exact safe_pure hv k hk
  | true =>
    obtain ⟨s, hs⟩ := hv.content
    refine (safe_ofExcept (P := fun c => c = .text s) ⟨_, hs, rfl⟩).bind ?_ k hk
    rintro _ rfl
    exact (safe_write s).bind fun _ _ => safe_pure hv

theorem fine_statements (echo : Bool) {ns : List Node} (hn : ∀ n ∈ ns, n.Statement)
    (values : List Value) {m : Machine} (hm : m.Proper) :
    Fine (Stopped echo ns m) (fun vs => vs.length = values.length + ns.length)
      (Session.statements echo values ns m) := by
  induction ns generalizing values m with
  | nil => exact safe_pure (by simp) m hm
  | cons n ns ih =>
    obtain ⟨hn₁, hn₂⟩ := List.forall_mem_cons.mp hn
    rw [Session.statements_cons]
    have hfirst : Fine (Stopped echo (n :: ns) m) Value.Proper (Session.statement echo n m) :=
      (fine_statement echo hn₁ hm).mono fun _ _ h => .here h
    refine hfirst.bind fun v k hrun hk _ => ?_
    have hlen : (v :: values).length + ns.length = values.length + (n :: ns).length := by
      simp only [List.length_cons]
      omega
    exact hlen ▸ (ih hn₂ (v :: values) hk).mono fun _ _ h => .later hrun h

theorem safe_statements (echo : Bool) {ns : List Node} (hn : ∀ n ∈ ns, n.Statement)
    (values : List Value) :
    Safe (fun fault _ => ¬ fault.Unshown) (fun vs => vs.length = values.length + ns.length)
      (Session.statements echo values ns) :=
  fun _ hm => (fine_statements echo hn values hm).mono fun _ _ h => h.not_unshown

theorem proper_fresh (ambient : Ambient) (debugLevel : Nat) (inputs : List String) :
    (Machine.fresh ambient debugLevel inputs).Proper := by
  intro id s hs b hb
  obtain ⟨-, rfl⟩ := Library.eq_root_of_scope? hs
  exact Library.forall_bindings Value.proper_ofDouble .string .native b hb

/-- What a step with a source text may come to on a machine: a value for each statement of the
program, or a documented fault. -/
def Expected (echo : Bool) (text : String) (m : Machine) (o : Session.Outcome) : Prop :=
  ∃ statements, Node.ofSource text = .ok (.program (.list statements)) ∧
    ((∃ values, o.1 = .ok values ∧ values.length = statements.length) ∨
      ∃ fault, o.1 = .error (.run fault) ∧ Documented (Stopped echo statements m) o.2 fault)

theorem expected_source (echo : Bool) {text : String} {tree : Node}
    (ht : Node.ofSource text = .ok tree) {m : Machine} (hm : m.Proper) :
    Expected echo text m (Session.source echo text m) ∧ (Session.source echo text m).2.Proper := by
  obtain ⟨hs⟩ := Node.wellFormed_of_ofSource ht
  rename_i ss
  have hrun : Fine (Stopped echo ss m) (fun vs : List Value => vs.length = ss.length)
      (Session.program echo (.program (.list ss)) m) := by
    have h := fine_statements echo hs [] hm
    simp only [List.length_nil, Nat.zero_add] at h
    exact h
  simp only [Session.source, ht, Session.tree]
  generalize Session.program echo (.program (.list ss)) m = r at hrun
  cases hrun with
  | ok hn hv => exact ⟨⟨ss, ht, .inl ⟨_, rfl, hv⟩⟩, hn⟩
  | error hn hf => exact ⟨⟨ss, ht, .inr ⟨_, rfl, hf⟩⟩, hn⟩

/-- What steps with source texts may come to one after another, each on the machine that the one
before it has left. -/
inductive AllExpected : Machine → List (Bool × String) → List Session.Outcome → Prop
  | nil (m) : AllExpected m [] []
  | cons {m echo text o steps os} (h : Expected echo text m o) (rest : AllExpected o.2 steps os) :
      AllExpected m ((echo, text) :: steps) (o :: os)

theorem session_expected {m : Machine} (hm : m.Proper) {steps : List (Bool × String)}
    (h : ∀ step ∈ steps, ∃ tree, Node.ofSource step.2 = .ok tree) :
    AllExpected m steps (Session.outcomes (steps.map fun step => (step.1, .source step.2)) m) := by
  induction steps generalizing m with
  | nil => exact .nil m
  | cons step steps ih =>
    obtain ⟨⟨tree, ht⟩, hsteps⟩ := List.forall_mem_cons.mp h
    obtain ⟨he, hn⟩ := expected_source step.1 ht hm
    exact .cons he (ih hn hsteps)

/-- Sessions of programs from source texts: every step gives a value for each statement of its
program or ends in a documented fault. -/
theorem outcomes_expected (ambient : Ambient) (debugLevel : Nat) (inputs : List String)
    {steps : List (Bool × String)} (h : ∀ step ∈ steps, ∃ tree, Node.ofSource step.2 = .ok tree) :
    AllExpected (.fresh ambient debugLevel inputs) steps
      (Session.outcomes (steps.map fun step => (step.1, .source step.2))
        (.fresh ambient debugLevel inputs)) :=
  session_expected (proper_fresh ambient debugLevel inputs) h

/-- The program `"ab" * 4611686018427387904;`, which asks for `2 ^ 62` copies. -/
def manyCopies : Node :=
  .program (.list [.binaryOp (.text "*") (.stringLiteral (.text "ab"))
    (.numberLiteral (.text "4611686018427387904"))])

theorem manyCopies_read : Node.ofSource "\"ab\" * 4611686018427387904 ;" = .ok manyCopies := by
  have hcount : Token.IsNumeral "4611686018427387904".toList :=
    .whole (by decide) (List.all_eq_true.mp (by decide))
  have hstring : Token.IsQuotable "ab".toList := ⟨'\'', by decide, by decide⟩
  have hp : manyCopies.WellFormed := by
    refine .program fun s hs => ?_
    rw [List.mem_singleton.mp hs]
    exact .expression (.binary (by decide) (.string hstring) (.number hcount))
  have ht : Printer.text manyCopies = "\"ab\" * 4611686018427387904 ;" := by decide +kernel
  rw [← ht]
  exact Node.ofSource_text hp

def fault? (o : Session.Outcome) : Option Session.StepFault :=
  match o.1 with
  | .ok _ => none
  | .error fault => some fault

theorem eq_error_of_fault? {o : Session.Outcome} {fault : Session.StepFault}
    (h : fault? o = some fault) : o.1 = .error fault := by
  obtain ⟨result, m⟩ := o
  cases result with
  | ok values => cases h
  | error other => exact congrArg _ (Option.some.inj h)

/-- Copies are refused below the limit for their number, if the result would be too long. -/
theorem manyCopies_refused :
    (Session.source false "\"ab\" * 4611686018427387904 ;" (Machine.fresh (.seeded 0 0) 0 [])).1 =
      .error (.run (@Fault.tooManyCopies (2 ^ 62) 2)) ∧ 2 ^ 62 < 2 ^ 63 := by
  have hfault : fault? (Session.tree false manyCopies (Machine.fresh (.seeded 0 0) 0 [])) =
      some (.run (@Fault.tooManyCopies (2 ^ 62) 2)) := by decide +kernel
  refine ⟨?_, by decide⟩
  simp only [Session.source, manyCopies_read]
  exact eq_error_of_fault? hfault

theorem manyCopies_expected :
    AllExpected (.fresh (.seeded 0 0) 0 []) [(false, "\"ab\" * 4611686018427387904 ;")]
      (Session.outcomes [(false, .source "\"ab\" * 4611686018427387904 ;")]
        (Machine.fresh (.seeded 0 0) 0 [])) := by
  refine outcomes_expected (.seeded 0 0) 0 [] fun step hs => ⟨manyCopies, ?_⟩
  rw [List.mem_singleton.mp hs]
  exact manyCopies_read

end Progress
end Script
