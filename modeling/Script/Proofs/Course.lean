import Script.Session
import Mathlib.Tactic.SplitIfs

/-!
# The course of a run

Each rule of evaluation is composed of a few kinds of steps: something that the scopes and the log
have no influence on, an entry in the log, an operation on the scopes, the evaluation of a part, and
something in a scope of its own. The course of a rule says how, so that one can speak of what
happens in between, and evaluation respects what every kind of step respects.
-/
namespace Script

def Event.isMessage : Event → Bool
  | .logged _ => true
  | _ => false

/-- A view of what has happened, which shows what happens next at its end, messages aside. -/
def Additive (view : Array Event → Array Event) : Prop :=
  ∀ es e, e.isMessage = false → view (es.push e) = (view es).push e

/-- The machine with other scopes, another debug level and another view of what has happened. -/
def Machine.seen (m : Machine) (f : Forest) (level : Nat) (view : Array Event → Array Event) :
    Machine :=
  { m with forest := f, debugLevel := level, events := view m.events }

theorem Machine.seen_self (m : Machine) : m.seen m.forest m.debugLevel id = m := rfl

def onMachine {α : Type} (g : Machine → Machine) :
    EStateM.Result Fault Machine α → EStateM.Result Fault Machine α
  | .ok a m => .ok a (g m)
  | .error fault m => .error fault (g m)

def machineOf {α : Type} : EStateM.Result Fault Machine α → Machine
  | .ok _ m => m
  | .error _ m => m

theorem machineOf_onMachine {α : Type} (g : Machine → Machine)
    (r : EStateM.Result Fault Machine α) : machineOf (onMachine g r) = g (machineOf r) := by
  cases r <;> rfl

def afterwards {α β : Type} (g : α → Machine → List β) : EStateM.Result Fault Machine α → List β
  | .ok a m => g a m
  | .error _ _ => []

/-- A computation that looks at neither the scopes nor the log, leaves the scopes alone and adds no
message to the log. -/
def Blind {α : Type} (x : Run α) : Prop :=
  ∀ m f level view, Additive view →
    x (m.seen f level view) = onMachine (·.seen f level view) (x m)

section Blind

variable {α β : Type}

theorem blind_pure (a : α) : Blind (pure a) := fun _ _ _ _ _ => rfl

theorem blind_throw (fault : Fault) : Blind (throw fault : Run α) := fun _ _ _ _ _ => rfl

theorem Blind.bind {x : Run α} {k : α → Run β} (hx : Blind x) (hk : ∀ a, Blind (k a)) :
    Blind (x >>= k) := by
  intro m f level view hv
  simp only [Bind.bind, EStateM.bind, hx m f level view hv]
  cases x m with
  | ok a n => exact hk a n f level view hv
  | error fault n => rfl

theorem Blind.discard {x : Run α} (hx : Blind x) : Blind (Functor.discard x) :=
  hx.bind fun _ => blind_pure ()

theorem blind_ofExcept (x : Except Fault α) : Blind (Run.ofExcept x) := by
  cases x with
  | ok a => exact blind_pure a
  | error fault => exact blind_throw fault

theorem blind_modifyGet {g : Machine → α × Machine}
    (hg : ∀ m f level view, Additive view →
      g (m.seen f level view) = ((g m).1, (g m).2.seen f level view)) :
    Blind (modifyGet g : Run α) := by
  intro m f level view hv
  exact congrArg (fun r : α × Machine => EStateM.Result.ok r.1 r.2) (hg m f level view hv)

theorem blind_record {event : Event} (h : event.isMessage = false) : Blind (Run.record event) := by
  refine blind_modifyGet fun m f level view hv => ?_
  simp only [Machine.seen, hv _ _ h]

theorem blind_freshIdentity : Blind Run.freshIdentity := blind_modifyGet fun _ _ _ _ _ => rfl

theorem blind_now : Blind Run.now := blind_modifyGet fun _ _ _ _ _ => rfl

theorem blind_random : Blind Run.random := blind_modifyGet fun _ _ _ _ _ => rfl

theorem allocate_some (count length : Nat) (m : Machine) :
    Run.allocate (some (count, length)) m =
      if m.ambient.memory ≤ length * count then .error (@Fault.outOfMemory count length) m
      else .ok () m := by
  change (if m.ambient.memory ≤ length * count then throw _ else pure () : Run Unit) m = _
  split <;> rfl

theorem blind_allocate (copies : Option (Nat × Nat)) : Blind (Run.allocate copies) := by
  rcases copies with _ | ⟨count, length⟩
  · exact blind_pure ()
  · intro m f level view _
    rw [allocate_some, allocate_some, apply_ite (onMachine _)]
    rfl

theorem blind_write (line : Node) : Blind (Run.write line) :=
  (blind_ofExcept _).discard.bind fun _ => blind_record rfl

theorem blind_readLine? (prompt : Node) : Blind (Run.readLine? prompt) := by
  refine (blind_ofExcept _).discard.bind fun _ => (blind_record rfl).bind fun _ => ?_
  refine blind_modifyGet fun m f level view _ => ?_
  simp only [Machine.seen]
  split <;> rfl

theorem blind_one (args : List Value) : Blind (Library.one args) := by
  cases args with
  | nil => exact blind_throw _
  | cons v args => exact blind_pure v

/-- A function of the first argument. -/
theorem blind_of_one {args : List Value} (k : Value → Except Fault α) (w : α → Value) :
    Blind (do return w (← Run.ofExcept (k (← Library.one args)))) :=
  (blind_one args).bind fun _ => (blind_ofExcept _).bind fun _ => blind_pure _

theorem blind_rand (kind : Node) : Blind (Library.rand kind) := by
  refine blind_random.bind fun n => ?_
  split
  · exact blind_now.bind fun _ => blind_pure _
  · exact blind_pure _
  · exact blind_pure _

theorem blind_libraryCall (f : Native) (args : List Value) : Blind (Library.call f args) := by
  cases f with
  | print =>
    refine (blind_ofExcept _).bind fun parts => (blind_ofExcept _).bind fun line => ?_
    exact (blind_write line).bind fun _ => blind_pure _
  | clear => exact (blind_record rfl).bind fun _ => blind_pure _
  | timestamp => exact blind_now.bind fun _ => blind_pure _
  | rand => exact (blind_ofExcept _).bind fun kind => blind_rand kind
  | number => exact (blind_one args).bind fun v => blind_ofExcept _
  | string => exact blind_of_one _ _
  | boolean => exact blind_of_one _ _
  | length => exact blind_of_one _ _
  | type => exact (blind_one args).bind fun v => blind_pure _
  | input =>
    refine (blind_ofExcept _).bind fun prompt => ?_
    exact (blind_readLine? prompt).bind fun _ => blind_pure _

theorem blind_nameOf (n : Node) : Blind (Evaluate.nameOf n) := by
  unfold Evaluate.nameOf
  split
  · exact blind_pure _
  · exact blind_throw _

theorem blind_statementsOf (n : Node) : Blind (Evaluate.statementsOf n) := by
  unfold Evaluate.statementsOf
  split
  · exact blind_pure _
  · exact blind_throw _

theorem blind_bodyOf (n : Node) : Blind (Session.bodyOf n) := by
  unfold Session.bodyOf
  split
  any_goals exact blind_pure _
  exact blind_throw _

/-- A blind computation leaves the scopes and the debug level as they are. -/
theorem Blind.seen_machineOf {x : Run α} (hx : Blind x) (m : Machine) :
    machineOf (x m) = (machineOf (x m)).seen m.forest m.debugLevel id := by
  have h := hx m m.forest m.debugLevel id fun _ _ _ => rfl
  rw [Machine.seen_self] at h
  exact (congrArg machineOf h).trans (machineOf_onMachine _ _)

theorem Blind.forest {x : Run α} (hx : Blind x) (m : Machine) :
    (machineOf (x m)).forest = m.forest := by
  rw [hx.seen_machineOf m]
  rfl

theorem forest_bind_of_blind {x : Run α} {k : α → Run β} (hk : ∀ a, Blind (k a)) (m : Machine) :
    (machineOf ((x >>= k) m)).forest = (machineOf (x m)).forest := by
  simp only [Bind.bind, EStateM.bind]
  cases x m with
  | ok a n => exact (hk a).forest n
  | error fault n => rfl

theorem Blind.debugLevel {x : Run α} (hx : Blind x) (m : Machine) :
    (machineOf (x m)).debugLevel = m.debugLevel := by
  rw [hx.seen_machineOf m]
  rfl

end Blind

def Machine.inside (m : Machine) (parent : ScopeId) : Machine :=
  { m with forest := ⟨m.forest.scopes.push (.inside (some parent))⟩ }

theorem Run.bind_of_ok {α β : Type} {x : Run α} {m n : Machine} {a : α} (h : x m = .ok a n)
    (k : α → Run β) : (x >>= k) m = k a n := by
  simp only [Bind.bind, EStateM.bind, h]

theorem Run.ok_of_bind {α β : Type} {x : Run α} {k : α → Run β} {m n : Machine} {b : β}
    (h : (x >>= k) m = .ok b n) : ∃ a m', x m = .ok a m' ∧ k a m' = .ok b n := by
  simp only [Bind.bind, EStateM.bind] at h
  cases hx : x m with
  | ok a m' =>
    rw [hx] at h
    exact ⟨a, m', rfl, h⟩
  | error fault m' =>
    rw [hx] at h
    cases h

theorem Run.lift_of_ok {α : Type} {x : Except Fault α} {a : α} (h : x = .ok a) (m : Machine) :
    (liftM x : Run α) m = .ok a m := by
  rw [h]
  rfl

theorem Run.exists_ok_of_isSome {α : Type} {x : Run α} {m : Machine}
    (h : (x.run' m).isSome = true) : ∃ a n, x m = .ok a n := by
  unfold EStateM.run' EStateM.run at h
  cases hx : x m with
  | ok a n => exact ⟨a, n, rfl⟩
  | error fault n =>
    rw [hx] at h
    cases h

theorem within_apply {α : Type} (parent : ScopeId) (body : ScopeId → Run α) (m : Machine) :
    Run.within parent body m =
      onMachine (fun n => { n with forest := n.forest.leave n.discards m.forest.scopes.size })
        (body m.forest.scopes.size (m.inside parent)) := by
  change (match body m.forest.scopes.size (m.inside parent) with
    | .ok a m' => _
    | .error fault m' => _) = _
  cases body m.forest.scopes.size (m.inside parent) <;> rfl

theorem log_apply (level : Nat) (message : Unit → Except Fault Node) (m : Machine) :
    Run.log level message m =
      if level ≤ m.debugLevel then
        match message () >>= Content.written with
        | .ok s => .ok () { m with events := m.events.push (.logged s) }
        | .error fault => .error fault m
      else .ok () m := by
  have hget : Run.log level message m = (if level ≤ m.debugLevel then do
      let c ← Run.ofExcept (message ())
      let s ← Run.ofExcept (Content.written c)
      Run.record (.logged s) else pure () : Run Unit) m := rfl
  rw [hget]
  split
  · cases message () with
    | error fault => rfl
    | ok c =>
      change (do Run.record (.logged (← Run.ofExcept (Content.written c))) : Run Unit) m =
        match Content.written c with
        | .ok s => _
        | .error fault => _
      cases Content.written c <;> rfl
  · rfl

/-- A message that is a text changes the log at most. -/
theorem log_of_text (level : Nat) (message : Unit → Except Fault Node)
    (h : ∃ s, message () = .ok (.text s)) (m : Machine) :
    ∃ es, Run.log level message m = .ok () { m with events := es } := by
  obtain ⟨s, hs⟩ := h
  rw [log_apply, hs]
  split
  · exact ⟨_, rfl⟩
  · exact ⟨m.events, rfl⟩

theorem forest_log (level : Nat) (message : Unit → Except Fault Node) (m : Machine) :
    (machineOf (Run.log level message m)).forest = m.forest := by
  rw [log_apply]
  split
  · split <;> rfl
  · rfl

/-- The words that messages open with, and the debug level from which on they are made. -/
def openings : List (String × Nat) :=
  [("declare const ", 2), ("declare var ", 2), ("define function ", 2), ("if condition ", 3),
    ("while loop finished after ", 3), ("for loop finished after ", 3), ("call ", 4)]

/-- The debug level from which on a message is made, by the words it opens with. -/
def levelOf? (message : String) : Option Nat :=
  (openings.find? fun o => o.1.toList.isPrefixOf message.toList).map (·.2)

/-- The faults of something that cannot be shown. -/
inductive Fault.Unshown : Fault → Prop
  | wrongShape : Unshown .wrongShape
  | integerTooLong : Unshown .integerTooLong
  | unwritable : Unshown .unwritable

/-- What shows something, or fails because it cannot be shown. -/
def Shows {α : Type} (x : Except Fault α) : Prop := ∀ fault, x = .error fault → fault.Unshown

structure Entry (level : Nat) (message : Unit → Except Fault Node) : Prop where
  level : ∀ c s, message () = .ok c → Content.written c = .ok s → levelOf? s = some level
  shows : Shows (message ())

theorem levelOf?_of_prefix {o s : String} {level : Nat} (ho : (o, level) ∈ openings)
    (hs : o.toList <+: s.toList) : levelOf? s = some level := by
  have hfree : ∀ p ∈ openings, ∀ q ∈ openings, p.1.toList <+: q.1.toList → p = q := by decide
  cases hfind : openings.find? fun o => o.1.toList.isPrefixOf s.toList with
  | none =>
    have hno := List.find?_eq_none.mp hfind _ ho
    exact absurd (List.isPrefixOf_iff_prefix.mpr hs) hno
  | some p =>
    have hp := List.mem_of_find?_eq_some hfind
    have hpos := List.find?_some hfind
    have hps : p.1.toList <+: s.toList := List.isPrefixOf_iff_prefix.mp hpos
    obtain rfl : p = (o, level) := by
      rcases List.prefix_or_prefix_of_prefix hps hs with h | h
      · exact hfree p hp _ ho h
      · exact (hfree _ ho p hp h).symm
    simp [levelOf?, hfind]

section Shows

variable {α β : Type}

theorem shows_ok (a : α) : Shows (.ok a) := fun _ h => nomatch h

theorem Shows.bind {x : Except Fault α} {k : α → Except Fault β} (hx : Shows x)
    (hk : ∀ a, Shows (k a)) : Shows (x >>= k) := by
  cases x with
  | ok a => exact hk a
  | error fault =>
    rintro _ ⟨⟩
    exact hx fault rfl

theorem shows_line (separator : String) (texts : List Node) :
    Shows (Content.line separator texts) := by
  unfold Content.line
  split
  · exact shows_ok _
  · split
    · exact shows_ok _
    · rintro _ ⟨⟩
      exact .wrongShape

theorem shows_shown (c : Node) : Shows (Content.shown c) := by
  unfold Content.shown
  split
  · split
    · rintro _ ⟨⟩
      exact .integerTooLong
    · exact shows_ok _
  · exact shows_ok _

theorem shows_parts (c : Node) : Shows (Content.parts c) := by
  unfold Content.parts
  split
  any_goals exact shows_ok _
  rintro _ ⟨⟩
  exact .wrongShape

theorem shows_written (c : Node) : Shows (Content.written c) := by
  refine (shows_shown c).bind fun d => ?_
  split
  · exact shows_ok _
  · rintro _ ⟨⟩
    exact .unwritable

mutual

theorem shows_content : (v : Value) → Shows v.content
  | .number _ | .string _ | .boolean _ | .null | .native _ => shows_ok _
  | .array _ items =>
    (shows_contents items).bind fun _ => (shows_line _ _).bind fun _ => shows_line _ _
  | .function .. => shows_line _ _

theorem shows_contents : (vs : List Value) → Shows (Value.contents vs)
  | [] => shows_ok _
  | v :: vs => (shows_content v).bind fun _ => (shows_contents vs).bind fun _ => shows_ok _

end

end Shows

theorem entry_bind {α : Type} {level : Nat} {x : Except Fault α} {k : α → Except Fault Node}
    (hx : Shows x) (hk : ∀ a, Entry level fun _ => k a) : Entry level fun _ => x >>= k := by
  refine ⟨fun c s hc hs => ?_, hx.bind fun a => (hk a).shows⟩
  cases x with
  | ok a => exact (hk a).level c s hc hs
  | error fault => cases hc

theorem entry_text {level : Nat} {o s : String} (ho : (o, level) ∈ openings)
    (hs : o.toList <+: s.toList) : Entry level fun _ => .ok (.text s) := by
  refine ⟨?_, shows_ok _⟩
  rintro _ _ ⟨⟩ ⟨⟩
  exact levelOf?_of_prefix ho hs

theorem prefix_intercalate {α : Type} (sep first : List α) (rest : List (List α)) :
    first <+: sep.intercalate (first :: rest) := by
  cases rest with
  | nil => simp [List.intercalate]
  | cons second rest => simp [List.intercalate]

/-- The characters of a text that begins with a text of characters. -/
theorem chars?_of_prefix {cs : List Char} {codes : List Text.Code} {chars : List Char}
    (h : cs.map .char <+: codes) (hc : Text.Code.chars? codes = some chars) : cs <+: chars := by
  obtain ⟨rest, rfl⟩ := h
  rw [Text.Code.chars?] at hc
  induction cs generalizing chars with
  | nil => exact List.nil_prefix
  | cons c cs ih =>
    rw [List.map_cons, List.cons_append, List.mapM_cons] at hc
    simp only [Text.Code.char?, Option.bind_eq_bind, Option.bind_some,
      Option.bind_eq_some_iff] at hc
    obtain ⟨chars', hc', heq⟩ := hc
    obtain rfl : c :: chars' = chars := Option.some.inj heq
    exact List.cons_prefix_cons.mpr ⟨rfl, ih hc'⟩

theorem entry_line {level : Nat} {o : String} (ho : (o, level) ∈ openings) (rest : List Node) :
    Entry level fun _ => Content.line "" (.text o :: rest) := by
  refine ⟨fun c s hc hs => levelOf?_of_prefix ho ?_, shows_line _ _⟩
  simp only [Content.line] at hc
  split at hc
  · rename_i strings hstrings
    simp only [List.mapM_cons, Node.text?, Option.bind_eq_bind, Option.bind_some,
      Option.bind_eq_some_iff] at hstrings
    obtain ⟨strings', -, heq⟩ := hstrings
    obtain rfl : o :: strings' = strings := Option.some.inj heq
    cases hc
    obtain rfl : String.intercalate "" (o :: strings') = s := Except.ok.inj hs
    rw [String.toList_intercalate]
    exact prefix_intercalate _ _ _
  · split at hc
    · rename_i all hall
      simp only [List.mapM_cons, Node.codes?, Option.bind_eq_bind, Option.bind_some,
        Option.bind_eq_some_iff] at hall
      obtain ⟨all', -, heq⟩ := hall
      obtain rfl : Text.Code.ofText o :: all' = all := Option.some.inj heq
      cases hc
      simp only [Node.ofCodes] at hs
      split at hs
      · rename_i chars hchars
        obtain rfl : String.ofList chars = s := Except.ok.inj hs
        rw [String.toList_ofList]
        exact chars?_of_prefix (prefix_intercalate _ _ _) hchars
      · cases hs
    · cases hc

abbrev Evaluator := Node → ScopeId → Run Value

/-- How a computation that evaluates parts of a tree is composed of steps. -/
inductive Course : {α : Type} → (Evaluator → Run α) → Type 1
  | quiet {α : Type} (x : Run α) (h : Blind x) : Course fun _ => x
  | log {level : Nat} {message : Unit → Except Fault Node} (h : Entry level message) :
      Course fun _ => Run.log level message
  | scopes {α : Type} (action : Forest.Action α) : Course fun _ => Run.scopes action
  | capture (id : ScopeId) : Course fun _ => Run.onForest (·.capture id)
  | part (n : Node) (scope : ScopeId) : Course fun eval => eval n scope
  | seq {α β : Type} {x : Evaluator → Run α} {k : α → Evaluator → Run β} (first : Course x)
      (next : (a : α) → Course (k a)) : Course fun eval => x eval >>= fun a => k a eval
  | within {α : Type} (parent : ScopeId) {body : ScopeId → Evaluator → Run α}
      (inner : (id : ScopeId) → Course (body id)) :
      Course fun eval => Run.within parent fun id => body id eval

namespace Course

def done {α : Type} (a : α) : Course fun _ => pure a := quiet _ (blind_pure a)

def fault {α : Type} (fault : Fault) : Course fun _ => (throw fault : Run α) :=
  quiet _ (blind_throw fault)

def lift {α : Type} (x : Except Fault α) : Course fun _ => Run.ofExcept x :=
  quiet _ (blind_ofExcept x)

def nameOf (n : Node) : Course fun _ => Evaluate.nameOf n := quiet _ (blind_nameOf n)

def statementsOf (n : Node) : Course fun _ => Evaluate.statementsOf n :=
  quiet _ (blind_statementsOf n)

def discard {α : Type} {x : Evaluator → Run α} (c : Course x) :
    Course fun eval => Functor.discard (x eval) :=
  seq c fun _ => done ()

def all (scope : ScopeId) : (ns : List Node) → Course fun eval => Evaluate.all eval scope ns
  | [] => done []
  | n :: ns => seq (part n scope) fun v => seq (all scope ns) fun vs => done (v :: vs)

def sequence (scope : ScopeId) :
    (ns : List Node) → Course fun eval => Evaluate.sequence eval scope ns
  | [] => done ()
  | n :: ns => seq (discard (part n scope)) fun _ => sequence scope ns

def inOwnScope (statements : Node) (scope : ScopeId) :
    Course fun eval => Evaluate.inOwnScope eval statements scope :=
  within scope fun inner => seq (lift (Content.parts statements)) fun ns => sequence inner ns

def blockIn (block : Node) (scope : ScopeId) :
    Course fun eval => Evaluate.blockIn eval block scope :=
  seq (statementsOf block) fun statements => inOwnScope statements scope

def blockIfAny (block : Node) (scope : ScopeId) :
    Course fun eval => Evaluate.blockIfAny eval block scope := by
  cases block
  case null => exact done ()
  all_goals exact blockIn _ scope

def valueIfAny (value : Node) (scope : ScopeId) :
    Course fun eval => Evaluate.valueIfAny eval value scope := by
  cases value
  case null => exact done Value.null
  all_goals exact part _ scope

def loop {condition : Evaluator → Run Bool} {body : Evaluator → Run Unit} (test : Course condition)
    (pass : Course body) : (passes count : Nat) →
    Course fun eval => Evaluate.loop (condition eval) (body eval) passes count
  | 0, _ => fault .unfinished
  | passes + 1, count => seq test fun holds =>
      match holds with
      | true => seq pass fun _ => loop test pass passes (count + 1)
      | false => done count

def condition (n : Node) (scope : ScopeId) : Course fun eval => Evaluate.condition eval n scope :=
  seq (part n scope) fun v => lift v.holds

def declare (name isConst : Node) (v : Value) (scope : ScopeId) :
    Course fun _ => Evaluate.declare name isConst v scope :=
  seq (nameOf name) fun x =>
    seq (discard (scopes (Forest.define scope x v _))) fun _ =>
      seq (log (entry_bind (shows_content v) fun _ => entry_bind (shows_shown _) fun _ =>
        entry_line (by split <;> decide) _)) fun _ => done v

def varDecl (name value isConst : Node) (scope : ScopeId) :
    Course fun eval => Evaluate.varDecl eval name value isConst scope :=
  seq (valueIfAny value scope) fun v => declare name isConst v scope

def assign (name value : Node) (scope : ScopeId) :
    Course fun eval => Evaluate.assign eval name value scope :=
  seq (part value scope) fun v => seq (nameOf name) fun x => scopes (Forest.set scope x v)

def ifStmt (test thenBlock elseBlock : Node) (scope : ScopeId) :
    Course fun eval => Evaluate.ifStmt eval test thenBlock elseBlock scope :=
  seq (part test scope) fun v => seq (lift v.holds) fun holds =>
    seq (log (entry_bind (shows_content v) fun _ => entry_bind (shows_shown _) fun _ =>
      entry_line (by decide) _)) fun _ =>
      match holds with
      | true => seq (blockIn thenBlock scope) fun _ => done Value.null
      | false => seq (blockIfAny elseBlock scope) fun _ => done Value.null

theorem entry_finished {o : String} (ho : (o, 3) ∈ openings) (count : Nat) :
    Entry 3 fun _ => .ok (.text (o ++ toString count ++ " iterations")) :=
  entry_text ho (by simp)

def whileStmt (passes : Nat) (test body : Node) (scope : ScopeId) :
    Course fun eval => Evaluate.whileStmt passes eval test body scope :=
  seq (loop (condition test scope) (blockIn body scope) passes 0) fun count =>
    seq (log (entry_finished (by decide) count)) fun _ => done Value.null

def forStmt (passes : Nat) (init test update body : Node) (scope : ScopeId) :
    Course fun eval => Evaluate.forStmt passes eval init test update body scope :=
  seq (within scope fun inner =>
    seq (discard (part init inner)) fun _ =>
      seq (loop (condition test inner) (seq (blockIn body inner) fun _ =>
        discard (part update inner)) passes 0) fun count => log (entry_finished (by decide) count))
    fun _ => done Value.null

def funcDecl (name params body : Node) (scope : ScopeId) :
    Course fun _ => Evaluate.funcDecl name params body scope :=
  seq (capture scope) fun _ => seq (nameOf name) fun x =>
    seq (quiet _ blind_freshIdentity) fun i =>
      seq (discard (scopes (Forest.define scope x (.function i x params body scope) .function)))
        fun _ => seq (log (entry_bind (shows_parts params) fun _ => entry_bind (shows_line _ _)
          fun _ => entry_line (by decide) _)) fun _ => done (Value.function i x params body scope)

def bindParams (scope : ScopeId) :
    (params : List Node) → (args : List Value) →
      Course fun _ => Evaluate.bindParams scope params args
  | [], _ => done ()
  | param :: params, args => seq (nameOf param) fun x =>
      seq (discard (scopes (Forest.define scope x (args.headD .null) .variable))) fun _ =>
        bindParams scope params args.tail

def body (scope : ScopeId) : (ns : List Node) → Course fun eval => Evaluate.body eval scope ns
  | [] => done Value.null
  | n :: ns => by
    cases n
    case returnStmt value => exact part (.returnStmt value) scope
    all_goals exact seq (discard (part _ scope)) fun _ => body scope ns

def invoke (name : Name) (f : Value) (args : List Value) :
    Course fun eval => Evaluate.invoke eval name f args :=
  match f with
  | .native f => quiet _ (blind_libraryCall f args)
  | .function _ _ params block closure => seq (scopes (Forest.child closure)) fun scope =>
      seq (lift (Content.parts params)) fun ps => seq (bindParams scope ps args) fun _ =>
        seq (statementsOf block) fun ss => seq (lift (Content.parts ss)) fun ns => body scope ns
  | .number _ | .string _ | .boolean _ | .null | .array _ _ => fault _

def call (name args : Node) (scope : ScopeId) :
    Course fun eval => Evaluate.call eval name args scope :=
  seq (nameOf name) fun x => seq (scopes (Forest.get scope x)) fun f =>
    seq (lift (Content.parts args)) fun ns => seq (all scope ns) fun vs =>
      seq (log (entry_bind (shows_contents vs) fun _ => entry_bind (shows_line _ _) fun _ =>
        entry_line (by decide) _)) fun _ => invoke x f vs

def arrayLiteral (elems : Node) (scope : ScopeId) :
    Course fun eval => Evaluate.arrayLiteral eval elems scope :=
  seq (lift (Content.parts elems)) fun ns => seq (all scope ns) fun vs =>
    seq (quiet _ blind_freshIdentity) fun i => done (Value.array i vs)

def index (target position : Node) (scope : ScopeId) :
    Course fun eval => Evaluate.index eval target position scope :=
  seq (part target scope) fun v => seq (part position scope) fun i => lift (v.get i)

def same {α : Type} {x y : Evaluator → Run α} (h : x = y) (c : Course x) : Course y := h ▸ c

/-- The step up or down of what an operand names. -/
def stepped (operator : String) (name? : Option Node) (scope : ScopeId) (v : Value) :
    Run Value := do
  match ← Operator.step? operator v with
  | none => return .null
  | some next =>
      match name? with
      | some name => Run.scopes (Forest.set scope (← Evaluate.nameOf name) next)
      | none => throw .missingPart

theorem unary_of_step {operator : Node} (h : operator.plain = "++" ∨ operator.plain = "--")
    (eval : Evaluator) (operand : Node) (scope : ScopeId) :
    Evaluate.unary eval operator operand scope =
      eval operand scope >>= stepped operator.plain operand.name? scope := by
  rcases h with h | h
  · simp only [Evaluate.unary, h]
    rfl
  · simp only [Evaluate.unary, h]
    rfl

theorem unary_eq_bind (eval : Evaluator) (operator operand : Node) (scope : ScopeId) :
    Evaluate.unary eval operator operand scope =
      eval operand scope >>= fun v => Evaluate.unary (fun _ _ => pure v) operator operand scope :=
  rfl

/-- The other unary operators change nothing. -/
theorem blind_unary {operator : Node} (h : ¬ (operator.plain = "++" ∨ operator.plain = "--"))
    (operand : Node) (scope : ScopeId) (v : Value) :
    Blind (Evaluate.unary (fun _ _ => pure v) operator operand scope) := by
  refine (blind_pure v).bind fun v => ?_
  split
  · exact (blind_ofExcept _).bind fun _ => blind_pure _
  · split
    · exact (blind_ofExcept _).bind fun _ => blind_pure _
    · exact blind_pure _
  · rw [if_neg h]
    exact blind_throw _

theorem binary_of_lazy {operator : Node} (h : operator.plain = "&&" ∨ operator.plain = "||")
    (eval : Evaluator) (left right : Node) (scope : ScopeId) :
    Evaluate.binary eval operator left right scope = (do
      let a ← eval left scope
      let falsy ← Run.ofExcept a.isFalsy
      if falsy = decide (operator.plain = "&&") then return .boolean !falsy
      else return .boolean !(← Run.ofExcept (← eval right scope).isFalsy)) := by
  rcases h with h | h
  · simp only [Evaluate.binary, h]
    refine bind_congr fun a => bind_congr fun falsy => ?_
    cases falsy <;> rfl
  · simp only [Evaluate.binary, h]
    refine bind_congr fun a => bind_congr fun falsy => ?_
    cases falsy <;> rfl

theorem binary_of_strict {operator : Node} (h : ¬ (operator.plain = "&&" ∨ operator.plain = "||"))
    (eval : Evaluator) (left right : Node) (scope : ScopeId) :
    Evaluate.binary eval operator left right scope = (do
      let a ← eval left scope
      let b ← eval right scope
      Run.allocate (Operator.copies? operator.plain a b)
      Run.ofExcept (Operator.apply (← Run.freshIdentity) operator.plain a b)) := by
  rw [not_or] at h
  refine bind_congr fun a => ?_
  split
  · exact absurd ‹_› h.1
  · exact absurd ‹_› h.2
  · rfl

def unary (operator operand : Node) (scope : ScopeId) :
    Course fun eval => Evaluate.unary eval operator operand scope :=
  if h : operator.plain = "++" ∨ operator.plain = "--" then
    same (funext fun eval => (unary_of_step h eval operand scope).symm) <|
      seq (part operand scope) fun v => seq (lift (Operator.step? operator.plain v)) fun next? =>
        match next?, operand.name? with
        | none, _ => done Value.null
        | some next, some name => seq (nameOf name) fun x => scopes (Forest.set scope x next)
        | some _, none => fault .missingPart
  else
    same (funext fun eval => (unary_eq_bind eval operator operand scope).symm) <|
      seq (part operand scope) fun v => quiet _ (blind_unary h operand scope v)

def binary (operator left right : Node) (scope : ScopeId) :
    Course fun eval => Evaluate.binary eval operator left right scope :=
  if h : operator.plain = "&&" ∨ operator.plain = "||" then
    same (funext fun eval => (binary_of_lazy h eval left right scope).symm) <|
      seq (part left scope) fun a => seq (lift a.isFalsy) fun falsy =>
        if hd : falsy = decide (operator.plain = "&&") then
          same (funext fun _ => (if_pos hd).symm) (done (Value.boolean !falsy))
        else
          same (funext fun _ => (if_neg hd).symm) <|
            seq (part right scope) fun b => seq (lift b.isFalsy) fun falsy =>
              done (Value.boolean !falsy)
  else
    same (funext fun eval => (binary_of_strict h eval left right scope).symm) <|
      seq (part left scope) fun a => seq (part right scope) fun b =>
        seq (quiet _ (blind_allocate (Operator.copies? operator.plain a b))) fun _ =>
          seq (quiet _ blind_freshIdentity) fun i => lift (Operator.apply i operator.plain a b)

def rule (passes : Nat) (n : Node) (scope : ScopeId) :
    Course fun eval => Evaluate.rule passes eval n scope :=
  match n with
  | .numberLiteral value => seq (lift (Evaluate.numberOf value)) fun x => done (Value.ofDouble x)
  | .stringLiteral value => done (Value.string value)
  | .booleanLiteral value => done (Value.boolean value.isSet)
  | .nullLiteral | .emptyStmt => done Value.null
  | .identifier name => seq (nameOf name) fun x => scopes (Forest.get scope x)
  | .varDecl name value isConst => varDecl name value isConst scope
  | .assign name value => assign name value scope
  | .unaryOp operator operand => unary operator operand scope
  | .binaryOp operator left right => binary operator left right scope
  | .block statements => seq (inOwnScope statements scope) fun _ => done Value.null
  | .ifStmt test thenBlock elseBlock => ifStmt test thenBlock elseBlock scope
  | .whileStmt test body => whileStmt passes test body scope
  | .forStmt init test update body => forStmt passes init test update body scope
  | .funcDecl name params body => funcDecl name params body scope
  | .call name args => call name args scope
  | .returnStmt value => valueIfAny value scope
  | .deleteStmt name => seq (nameOf name) fun x => scopes (Forest.delete scope x)
  | .arrayLiteral elems => arrayLiteral elems scope
  | .index target position => index target position scope
  | .null | .boolean _ | .integer _ | .real _ | .text _ | .codes _ | .list _ | .program _ => fault _

end Course

end Script
