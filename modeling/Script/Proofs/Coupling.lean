import Script.Session
import Script.Proofs.Results
import Script.Proofs.Scopes
import Mathlib.Data.List.Forall2

/-!
# Runs in step with each other

Two runs of one program, on machines that differ in nothing but their forests and in whether they
discard the scopes that are left. A coupling says how the forests may differ. If every elementary
change of the forests keeps to it, evaluation does: both runs give the same value or the same fault,
and take the same notes on the way.
-/
namespace Script

def Machine.on (m : Machine) (discards : Bool) (f : Forest) : Machine :=
  { m with forest := f, discards }

theorem modifyGet_apply {α : Type} (g : Machine → α × Machine) (m : Machine) :
    (modifyGet g : Run α) m = .ok (g m).1 (g m).2 := rfl

abbrev Forests := Forest × Forest

/-- How the forests of two runs are related: which pairs may occur, which pair may come after which,
in which scopes programs run and which values they hold. -/
structure Coupling where
  first : Bool
  second : Bool
  Inv : Forests → Prop
  Later : Forests → Forests → Prop
  Open : ScopeId → Forests → Prop
  Held : Value → Forests → Prop

namespace Session

inductive Step where
  | source (text : String)
  | saved (tree : Json)

def Step.run (echo : Bool) : Step → Machine → Outcome
  | .source text => Session.source echo text
  | .saved tree => Session.saved echo tree

/-- The steps of a session of source texts, each with echo or without. -/
def sources (steps : List (Bool × String)) : List (Bool × Step) :=
  steps.map fun step => (step.1, .source step.2)

def outcomes : List (Bool × Step) → Machine → List Outcome
  | [], _ => []
  | (echo, step) :: rest, m => step.run echo m :: outcomes rest (step.run echo m).2

end Session

namespace Coupling

/-- Both runs end alike, later than the forests `p`. -/
inductive Alike {α : Type} (C : Coupling) (p : Forests) (P : α → Forests → Prop) :
    EStateM.Result Fault Machine α → EStateM.Result Fault Machine α → Prop
  | ok {a q} (m : Machine) (hi : C.Inv q) (hl : C.Later p q) (ha : P a q) :
      Alike C p P (.ok a (m.on C.first q.1)) (.ok a (m.on C.second q.2))
  | error {q} (fault) (m : Machine) (hi : C.Inv q) (hl : C.Later p q) :
      Alike C p P (.error fault (m.on C.first q.1)) (.error fault (m.on C.second q.2))

def Agrees {α : Type} (C : Coupling) (p : Forests) (P : α → Forests → Prop) (x : Run α) : Prop :=
  ∀ m : Machine, C.Alike p P (x (m.on C.first p.1)) (x (m.on C.second p.2))

structure Matched (C : Coupling) (o o' : Session.Outcome) : Prop where
  result : o.1 = o'.1
  machine : ∃ (m : Machine) (q : Forests), o.2 = m.on C.first q.1 ∧ o'.2 = m.on C.second q.2 ∧
    C.Inv q ∧ C.Open Forest.root q

def Keeps {α : Type} (C : Coupling) (p : Forests) (P : α → Forests → Prop)
    (action : Forest.Action α) : Prop :=
  (∃ a q, action p.1 = .ok a q.1 ∧ action p.2 = .ok a q.2 ∧ C.Inv q ∧ C.Later p q ∧ P a q) ∨
    ∃ fault, action p.1 = .error fault p.1 ∧ action p.2 = .error fault p.2

def captured (p : Forests) (id : ScopeId) : Forests := (p.1.capture id, p.2.capture id)

def left (C : Coupling) (p : Forests) (id : ScopeId) : Forests :=
  (p.1.leave C.first id, p.2.leave C.second id)

/-- Every elementary change keeps to the coupling. -/
structure Stable (C : Coupling) : Prop where
  refl : ∀ p, C.Later p p
  trans : ∀ {p q r}, C.Later p q → C.Later q r → C.Later p r
  open_later : ∀ {id p q}, C.Open id p → C.Later p q → C.Open id q
  held_later : ∀ {v p q}, C.Held v p → C.Later p q → C.Held v q
  held_simple : ∀ {v p}, v.Simple → C.Held v p
  held_array : ∀ {i vs p}, C.Held (.array i vs) p ↔ ∀ v ∈ vs, C.Held v p
  open_closure : ∀ {i name params body closure p}, C.Inv p →
    C.Held (.function i name params body closure) p → C.Open closure p
  child : ∀ {id p}, C.Inv p → C.Open id p →
    C.Keeps p (fun a q => C.Open a q ∧ ∀ r, C.Inv r → C.Later q r →
      C.Inv (C.left r a) ∧ C.Later p (C.left r a)) (Forest.child id)
  define : ∀ {id v p} (name mark), C.Inv p → C.Open id p → C.Held v p →
    C.Keeps p C.Held (Forest.define id name v mark)
  get : ∀ {id p} (name), C.Inv p → C.Open id p → C.Keeps p C.Held (Forest.get id name)
  set : ∀ {id v p} (name), C.Inv p → C.Open id p → C.Held v p →
    C.Keeps p C.Held (Forest.set id name v)
  delete : ∀ {id p} (name), C.Inv p → C.Open id p → C.Keeps p C.Held (Forest.delete id name)
  capture : ∀ {id p}, C.Inv p → C.Open id p →
    C.Inv (captured p id) ∧ C.Later p (captured p id) ∧
      ∀ i name params body, C.Held (.function i name params body id) (captured p id)

variable {C : Coupling} {p : Forests} {α β : Type}

theorem Alike.imp {P Q : α → Forests → Prop} {r r' : EStateM.Result Fault Machine α}
    (h : C.Alike p P r r') (himp : ∀ a q, P a q → Q a q) : C.Alike p Q r r' := by
  cases h with
  | ok n hi hl ha => exact .ok n hi hl (himp _ _ ha)
  | error fault n hi hl => exact .error fault n hi hl

theorem Agrees.imp {P Q : α → Forests → Prop} {x : Run α} (hx : C.Agrees p P x)
    (himp : ∀ a q, P a q → Q a q) : C.Agrees p Q x :=
  fun m => (hx m).imp himp

/-- A computation that looks at the machine, but not at its forest. -/
theorem agrees_get {P : α → Forests → Prop} {k : Machine → Run α}
    (hk : ∀ (m : Machine) d f d' f', k (m.on d f) = k (m.on d' f'))
    (h : ∀ m, C.Agrees p P (k m)) : C.Agrees p P (MonadState.get >>= k) := by
  intro m
  have hm := h (m.on C.first p.1) m
  change C.Alike p P (k (m.on C.first p.1) (m.on C.first p.1))
    (k (m.on C.second p.2) (m.on C.second p.2))
  rwa [hk m C.second p.2 C.first p.1]

namespace Stable

variable (hC : C.Stable)

include hC

theorem alike_later {q : Forests} {P : α → Forests → Prop}
    {r r' : EStateM.Result Fault Machine α} (h : C.Alike q P r r') (hl : C.Later p q) :
    C.Alike p P r r' := by
  cases h with
  | ok n hi hl' ha => exact .ok n hi (hC.trans hl hl') ha
  | error fault n hi hl' => exact .error fault n hi (hC.trans hl hl')

theorem agrees_pure {P : α → Forests → Prop} {a : α} (hp : C.Inv p) (ha : P a p) :
    C.Agrees p P (pure a) :=
  fun m => .ok m hp (hC.refl p) ha

theorem agrees_throw {P : α → Forests → Prop} (hp : C.Inv p) (fault : Fault) :
    C.Agrees p P (throw fault) :=
  fun m => .error fault m hp (hC.refl p)

/-- One computation after another. -/
theorem agrees_bind {P : α → Forests → Prop} {Q : β → Forests → Prop} {x : Run α}
    {k : α → Run β} (hx : C.Agrees p P x)
    (hk : ∀ a q, C.Inv q → C.Later p q → P a q → C.Agrees q Q (k a)) :
    C.Agrees p Q (x >>= k) := by
  intro m
  have h := hx m
  simp only [bind, EStateM.bind]
  generalize x (m.on C.first p.1) = r, x (m.on C.second p.2) = r' at h
  cases h with
  | error fault n hi hl => exact .error fault n hi hl
  | ok n hi hl ha => exact hC.alike_later (hk _ _ hi hl ha n) hl

theorem agrees_discard {P : α → Forests → Prop} {x : Run α} (hx : C.Agrees p P x) :
    C.Agrees p (fun _ _ => True) (discard x) :=
  hC.agrees_bind hx fun _ _ hq _ _ => hC.agrees_pure hq trivial

theorem agrees_ofExcept {P : α → Forests → Prop} {x : Except Fault α} (hp : C.Inv p)
    (h : ∀ a, x = .ok a → P a p) : C.Agrees p P (Run.ofExcept x) := by
  cases x with
  | ok a => exact hC.agrees_pure hp (h a rfl)
  | error fault => exact hC.agrees_throw hp fault

theorem agrees_lift (hp : C.Inv p) (x : Except Fault α) :
    C.Agrees p (fun a _ => x = .ok a) (Run.ofExcept x) :=
  hC.agrees_ofExcept hp fun _ h => h

/-- A change that has nothing to do with the forest. -/
theorem agrees_modifyGet {g : Machine → α × Machine} (hp : C.Inv p)
    (hg : ∀ (m : Machine) d f, g (m.on d f) = ((g m).1, (g m).2.on d f)) :
    C.Agrees p (fun _ _ => True) (modifyGet g : Run α) := by
  intro m
  have h₁ : (modifyGet g : Run α) (m.on C.first p.1) = .ok (g m).1 ((g m).2.on C.first p.1) := by
    rw [modifyGet_apply, hg]
  have h₂ : (modifyGet g : Run α) (m.on C.second p.2) = .ok (g m).1 ((g m).2.on C.second p.2) := by
    rw [modifyGet_apply, hg]
  rw [h₁, h₂]
  exact .ok _ hp (hC.refl p) trivial

theorem agrees_record (hp : C.Inv p) (event : Event) :
    C.Agrees p (fun _ _ => True) (Run.record event) :=
  hC.agrees_modifyGet hp fun _ _ _ => rfl

theorem agrees_freshIdentity (hp : C.Inv p) :
    C.Agrees p (fun _ _ => True) Run.freshIdentity :=
  hC.agrees_modifyGet hp fun _ _ _ => rfl

theorem agrees_allocate (hp : C.Inv p) (copies : Option (Nat × Nat)) :
    C.Agrees p (fun _ _ => True) (Run.allocate copies) := by
  cases copies with
  | none => exact hC.agrees_pure hp trivial
  | some copies =>
    refine agrees_get (fun _ _ _ _ _ => rfl) fun m => ?_
    split
    · exact hC.agrees_throw hp _
    · exact hC.agrees_pure hp trivial

theorem agrees_now (hp : C.Inv p) : C.Agrees p (fun _ _ => True) Run.now :=
  hC.agrees_modifyGet hp fun _ _ _ => rfl

theorem agrees_random (hp : C.Inv p) : C.Agrees p (fun _ _ => True) Run.random :=
  hC.agrees_modifyGet hp fun _ _ _ => rfl

theorem agrees_written (hp : C.Inv p) (line : Node) :
    C.Agrees p (fun _ _ => True) (discard (Run.ofExcept (Content.written line))) :=
  hC.agrees_discard (hC.agrees_lift hp _)

theorem agrees_write (hp : C.Inv p) (line : Node) :
    C.Agrees p (fun _ _ => True) (Run.write line) :=
  hC.agrees_bind (hC.agrees_written hp line) fun _ _ hq _ _ => hC.agrees_record hq _

theorem agrees_readLine? (hp : C.Inv p) (prompt : Node) :
    C.Agrees p (fun _ _ => True) (Run.readLine? prompt) := by
  refine hC.agrees_bind (hC.agrees_written hp prompt) fun _ q hq _ _ => ?_
  refine hC.agrees_bind (hC.agrees_record hq _) fun _ r hr _ _ => ?_
  refine hC.agrees_modifyGet hr fun m d f => ?_
  simp only [Machine.on]
  split <;> rfl

theorem agrees_log (hp : C.Inv p) (level : Nat) (message : Unit → Except Fault Node) :
    C.Agrees p (fun _ _ => True) (Run.log level message) := by
  refine agrees_get ?_ fun m => ?_
  · intro m d f d' f'
    rfl
  split
  · refine hC.agrees_bind (hC.agrees_lift hp _) ?_
    intro line q hq _ _
    refine hC.agrees_bind (hC.agrees_lift hq _) ?_
    intro text r hr _ _
    exact hC.agrees_record hr _
  · exact hC.agrees_pure hp trivial

theorem agrees_scopes {P : α → Forests → Prop} {action : Forest.Action α} (hp : C.Inv p)
    (h : C.Keeps p P action) : C.Agrees p P (Run.scopes action) := by
  intro m
  rcases h with ⟨a, q, h₁, h₂, hi, hl, ha⟩ | ⟨fault, h₁, h₂⟩
  · have hq := Alike.ok m hi hl ha
    simpa only [Run.scopes, Machine.on, h₁, h₂] using hq
  · have hq := Alike.error (C := C) (P := P) (.binding fault) m hp (hC.refl p)
    simpa only [Run.scopes, Machine.on, h₁, h₂] using hq

/-- Something in a scope of its own. -/
theorem agrees_within {parent : ScopeId} {body : ScopeId → Run Unit} (hp : C.Inv p)
    (ho : C.Open parent p)
    (hb : ∀ id q, C.Inv q → C.Later p q → C.Open id q → C.Agrees q (fun _ _ => True) (body id)) :
    C.Agrees p (fun _ _ => True) (Run.within parent body) := by
  intro m
  have h := hC.agrees_scopes hp (hC.child hp ho) m
  simp only [Run.within, bind, EStateM.bind]
  generalize Run.scopes (Forest.child parent) (m.on C.first p.1) = r,
    Run.scopes (Forest.child parent) (m.on C.second p.2) = r' at h
  cases h with
  | error fault n hi hl => exact .error fault n hi hl
  | @ok id q n hq hpq hid =>
    obtain ⟨hid, hleave⟩ := hid
    have h := hb id q hq hpq hid n
    simp only
    generalize body id (n.on C.first q.1) = r, body id (n.on C.second q.2) = r' at h
    cases h with
    | @ok a s n hi hl _ =>
      obtain ⟨hi', hl'⟩ := hleave s hi hl
      exact .ok (q := C.left s id) n hi' hl' trivial
    | @error s fault n hi hl =>
      obtain ⟨hi', hl'⟩ := hleave s hi hl
      exact .error (q := C.left s id) fault n hi' hl'

theorem agrees_one {args : List Value} (hp : C.Inv p) (ha : ∀ v ∈ args, C.Held v p) :
    C.Agrees p C.Held (Library.one args) := by
  cases args with
  | nil => exact hC.agrees_throw hp _
  | cons v args => exact hC.agrees_pure hp (ha v (by simp))

theorem agrees_simple {x : Run α} {k : α → Value} (hx : C.Agrees p (fun _ _ => True) x)
    (hk : ∀ a, (k a).Simple) : C.Agrees p C.Held (do return k (← x)) :=
  hC.agrees_bind hx fun a _ hq _ _ => hC.agrees_pure hq (hC.held_simple (hk a))

theorem agrees_rand (hp : C.Inv p) (kind : Node) : C.Agrees p C.Held (Library.rand kind) := by
  refine hC.agrees_bind (hC.agrees_random hp) fun n q hq _ _ => ?_
  split
  · exact hC.agrees_simple (hC.agrees_now hq) fun _ => .number _
  · exact hC.agrees_pure hq (hC.held_simple (.boolean _))
  · exact hC.agrees_pure hq (hC.held_simple (.string _))

/-- What a library function computes from its first argument. -/
theorem agrees_of_one {args : List Value} {k : Value → Except Fault α} {w : α → Value}
    (hp : C.Inv p) (ha : ∀ v ∈ args, C.Held v p)
    (hw : ∀ v a, k v = .ok a → (w a).Simple ∨ w a = v) :
    C.Agrees p C.Held (do return w (← Run.ofExcept (k (← Library.one args)))) := by
  refine hC.agrees_bind (hC.agrees_one hp ha) fun v q hq _ hv => ?_
  refine hC.agrees_bind (hC.agrees_lift hq _) ?_
  intro a r hr hqr hk
  refine hC.agrees_pure hr ?_
  rcases hw v a hk with h | h
  · exact hC.held_simple h
  · exact h ▸ hC.held_later hv hqr

theorem agrees_libraryCall (f : Native) {args : List Value} (hp : C.Inv p)
    (ha : ∀ v ∈ args, C.Held v p) : C.Agrees p C.Held (Library.call f args) := by
  cases f with
  | print =>
    refine hC.agrees_bind (hC.agrees_lift hp _) ?_
    intro parts q hq _ _
    refine hC.agrees_bind (hC.agrees_lift hq _) ?_
    intro line r hr _ _
    exact hC.agrees_simple (k := fun _ => .null) (hC.agrees_write hr line) fun _ => .null
  | clear => exact hC.agrees_simple (k := fun _ => .null) (hC.agrees_record hp _) fun _ => .null
  | timestamp => exact hC.agrees_simple (hC.agrees_now hp) fun _ => .number _
  | rand =>
    refine hC.agrees_bind (hC.agrees_lift hp _) ?_
    exact fun kind q hq _ _ => hC.agrees_rand hq kind
  | number =>
    refine hC.agrees_bind (hC.agrees_one hp ha) fun v q hq _ hv => ?_
    refine hC.agrees_ofExcept hq fun w hw => ?_
    rcases Library.toNumber_result hw with h | rfl
    · exact hC.held_simple h
    · exact hv
  | string => exact hC.agrees_of_one hp ha fun _ _ _ => .inl (.string _)
  | boolean => exact hC.agrees_of_one hp ha fun _ _ _ => .inl (.boolean _)
  | length => exact hC.agrees_of_one hp ha fun _ _ _ => .inl (.number _)
  | type =>
    refine hC.agrees_bind (hC.agrees_one hp ha) fun v q hq _ _ => ?_
    exact hC.agrees_pure hq (hC.held_simple (.string _))
  | input =>
    refine hC.agrees_bind (hC.agrees_lift hp _) ?_
    intro prompt q hq _ _
    exact hC.agrees_simple (hC.agrees_readLine? hq prompt) fun _ => .string _

theorem agrees_nameOf (hp : C.Inv p) (n : Node) :
    C.Agrees p (fun _ _ => True) (Evaluate.nameOf n) := by
  unfold Evaluate.nameOf
  split
  · exact hC.agrees_pure hp trivial
  · exact hC.agrees_throw hp _

theorem agrees_statementsOf (hp : C.Inv p) (n : Node) :
    C.Agrees p (fun _ _ => True) (Evaluate.statementsOf n) := by
  unfold Evaluate.statementsOf
  split
  · exact hC.agrees_pure hp trivial
  · exact hC.agrees_throw hp _

section Rules

variable {passes : Nat} {eval : Node → ScopeId → Run Value}
  (heval : ∀ {p : Forests} {scope : ScopeId} (n : Node), C.Inv p → C.Open scope p →
    C.Agrees p C.Held (eval n scope))
  {scope : ScopeId} (hp : C.Inv p) (ho : C.Open scope p)

include heval hp ho

theorem agrees_all (ns : List Node) :
    C.Agrees p (fun vs q => ∀ v ∈ vs, C.Held v q) (Evaluate.all eval scope ns) := by
  induction ns generalizing p with
  | nil => exact hC.agrees_pure hp (by simp)
  | cons n ns ih =>
    refine hC.agrees_bind (heval n hp ho) fun v q hq hpq hv => ?_
    refine hC.agrees_bind (ih hq (hC.open_later ho hpq)) fun vs r hr hqr hvs => ?_
    exact hC.agrees_pure hr (List.forall_mem_cons.mpr ⟨hC.held_later hv hqr, hvs⟩)

theorem agrees_sequence (ns : List Node) :
    C.Agrees p (fun _ _ => True) (Evaluate.sequence eval scope ns) := by
  induction ns generalizing p with
  | nil => exact hC.agrees_pure hp trivial
  | cons n ns ih =>
    refine hC.agrees_bind (hC.agrees_discard (heval n hp ho)) fun _ q hq hpq _ => ?_
    exact ih hq (hC.open_later ho hpq)

theorem agrees_inOwnScope (statements : Node) :
    C.Agrees p (fun _ _ => True) (Evaluate.inOwnScope eval statements scope) := by
  refine hC.agrees_within hp ho fun inner q hq _ hi => ?_
  refine hC.agrees_bind (hC.agrees_lift hq _) fun ns r hr hqr _ => ?_
  exact hC.agrees_sequence heval hr (hC.open_later hi hqr) ns

theorem agrees_blockIn (block : Node) :
    C.Agrees p (fun _ _ => True) (Evaluate.blockIn eval block scope) := by
  refine hC.agrees_bind (hC.agrees_statementsOf hp block) fun statements q hq hpq _ => ?_
  exact hC.agrees_inOwnScope heval hq (hC.open_later ho hpq) statements

theorem agrees_blockIfAny (block : Node) :
    C.Agrees p (fun _ _ => True) (Evaluate.blockIfAny eval block scope) := by
  unfold Evaluate.blockIfAny
  split
  · exact hC.agrees_pure hp trivial
  · exact hC.agrees_blockIn heval hp ho _

theorem agrees_valueIfAny (value : Node) :
    C.Agrees p C.Held (Evaluate.valueIfAny eval value scope) := by
  unfold Evaluate.valueIfAny
  split
  · exact hC.agrees_pure hp (hC.held_simple .null)
  · exact heval _ hp ho

theorem agrees_condition (n : Node) :
    C.Agrees p (fun _ _ => True) (Evaluate.condition eval n scope) := by
  refine hC.agrees_bind (heval n hp ho) fun v q hq _ _ => ?_
  exact (hC.agrees_lift hq _).imp fun _ _ _ => trivial

omit heval in
/-- The passes of a loop: the induction is on their number. -/
theorem agrees_loop {condition : Run Bool} {body : Run Unit}
    (hc : ∀ {q : Forests}, C.Inv q → C.Open scope q → C.Agrees q (fun _ _ => True) condition)
    (hb : ∀ {q : Forests}, C.Inv q → C.Open scope q → C.Agrees q (fun _ _ => True) body)
    (passes count : Nat) :
    C.Agrees p (fun _ _ => True) (Evaluate.loop condition body passes count) := by
  induction passes generalizing p count with
  | zero => exact hC.agrees_throw hp _
  | succ passes ih =>
    refine hC.agrees_bind (hc hp ho) fun b q hq hpq _ => ?_
    cases b with
    | false => exact hC.agrees_pure hq trivial
    | true =>
      have hoq := hC.open_later ho hpq
      refine hC.agrees_bind (hb hq hoq) fun _ r hr hqr _ => ?_
      exact ih hr (hC.open_later hoq hqr) (count + 1)

omit heval in
theorem agrees_declare (name isConst : Node) {v : Value} (hv : C.Held v p) :
    C.Agrees p C.Held (Evaluate.declare name isConst v scope) := by
  refine hC.agrees_bind (hC.agrees_nameOf hp name) fun x r hr hpr _ => ?_
  have hor := hC.open_later ho hpr
  have hvr := hC.held_later hv hpr
  refine hC.agrees_bind (hC.agrees_discard (hC.agrees_scopes hr (hC.define x _ hr hor hvr))) ?_
  intro _ s hs hrs _
  refine hC.agrees_bind (hC.agrees_log hs _ _) fun _ t ht hst _ => ?_
  exact hC.agrees_pure ht (hC.held_later (hC.held_later hvr hrs) hst)

theorem agrees_varDecl (name value isConst : Node) :
    C.Agrees p C.Held (Evaluate.varDecl eval name value isConst scope) := by
  refine hC.agrees_bind (hC.agrees_valueIfAny heval hp ho value) fun v q hq hpq hv => ?_
  exact hC.agrees_declare hq (hC.open_later ho hpq) name isConst hv

theorem agrees_assign (name value : Node) :
    C.Agrees p C.Held (Evaluate.assign eval name value scope) := by
  refine hC.agrees_bind (heval value hp ho) fun v q hq hpq hv => ?_
  refine hC.agrees_bind (hC.agrees_nameOf hq name) fun x r hr hqr _ => ?_
  have hor := hC.open_later (hC.open_later ho hpq) hqr
  exact hC.agrees_scopes hr (hC.set x hr hor (hC.held_later hv hqr))

theorem agrees_ifStmt (test thenBlock elseBlock : Node) :
    C.Agrees p C.Held (Evaluate.ifStmt eval test thenBlock elseBlock scope) := by
  refine hC.agrees_bind (heval test hp ho) fun v q hq hpq _ => ?_
  refine hC.agrees_bind (hC.agrees_lift hq _) fun b r hr hqr _ => ?_
  refine hC.agrees_bind (hC.agrees_log hr _ _) fun _ s hs hrs _ => ?_
  have hos := hC.open_later (hC.open_later (hC.open_later ho hpq) hqr) hrs
  split
  · exact hC.agrees_simple (k := fun _ => .null) (hC.agrees_blockIn heval hs hos _) fun _ => .null
  · exact hC.agrees_simple (k := fun _ => .null) (hC.agrees_blockIfAny heval hs hos _)
      fun _ => .null

theorem agrees_whileStmt (test body : Node) :
    C.Agrees p C.Held (Evaluate.whileStmt passes eval test body scope) := by
  have hloop := hC.agrees_loop hp ho (fun hq hoq => hC.agrees_condition heval hq hoq test)
    (fun hq hoq => hC.agrees_blockIn heval hq hoq body) passes 0
  refine hC.agrees_bind hloop fun count q hq _ _ => ?_
  exact hC.agrees_simple (k := fun _ => .null) (hC.agrees_log hq _ _) fun _ => .null

theorem agrees_forStmt (init test update body : Node) :
    C.Agrees p C.Held (Evaluate.forStmt passes eval init test update body scope) := by
  refine hC.agrees_simple (k := fun _ => .null) ?_ fun _ => .null
  refine hC.agrees_within hp ho fun inner q hq _ hi => ?_
  refine hC.agrees_bind (hC.agrees_discard (heval init hq hi)) fun _ r hr hqr _ => ?_
  have hloop := hC.agrees_loop hr (hC.open_later hi hqr)
    (fun hs hos => hC.agrees_condition heval hs hos test)
    (fun hs hos => hC.agrees_bind (hC.agrees_blockIn heval hs hos body) fun _ t ht hst _ =>
      hC.agrees_discard (heval update ht (hC.open_later hos hst))) passes 0
  exact hC.agrees_bind hloop fun count s hs _ _ => hC.agrees_log hs _ _

omit heval in
theorem agrees_funcDecl (name params body : Node) :
    C.Agrees p C.Held (Evaluate.funcDecl name params body scope) := by
  have hcap : C.Agrees p (fun _ q => C.Open scope q ∧
      ∀ i x ps b, C.Held (.function i x ps b scope) q) (Run.onForest (·.capture scope)) := by
    intro m
    obtain ⟨hi, hl, hf⟩ := hC.capture hp ho
    exact .ok (q := captured p scope) m hi hl ⟨hC.open_later ho hl, hf⟩
  refine hC.agrees_bind hcap fun _ q hq _ hof => ?_
  obtain ⟨hoq, hf⟩ := hof
  refine hC.agrees_bind (hC.agrees_nameOf hq name) fun x r hr hqr _ => ?_
  refine hC.agrees_bind (hC.agrees_freshIdentity hr) fun i s hs hrs _ => ?_
  have hos := hC.open_later (hC.open_later hoq hqr) hrs
  have hfs := hC.held_later (hC.held_later (hf i x params body) hqr) hrs
  refine hC.agrees_bind (hC.agrees_discard (hC.agrees_scopes hs (hC.define x _ hs hos hfs))) ?_
  intro _ t ht hst _
  refine hC.agrees_bind (hC.agrees_log ht _ _) fun _ u hu htu _ => ?_
  exact hC.agrees_pure hu (hC.held_later (hC.held_later hfs hst) htu)

omit heval in
theorem agrees_bindParams (params : List Node) {args : List Value}
    (ha : ∀ v ∈ args, C.Held v p) :
    C.Agrees p (fun _ _ => True) (Evaluate.bindParams scope params args) := by
  induction params generalizing p args with
  | nil => exact hC.agrees_pure hp trivial
  | cons param params ih =>
    refine hC.agrees_bind (hC.agrees_nameOf hp param) fun x q hq hpq _ => ?_
    have hoq := hC.open_later ho hpq
    have hv : C.Held (args.headD .null) q := by
      cases args with
      | nil => exact hC.held_simple .null
      | cons v args => exact hC.held_later (ha v (by simp)) hpq
    refine hC.agrees_bind (hC.agrees_discard (hC.agrees_scopes hq (hC.define x _ hq hoq hv))) ?_
    intro _ r hr hqr _
    refine ih hr (hC.open_later hoq hqr) fun v hv => ?_
    exact hC.held_later (hC.held_later (ha v (List.mem_of_mem_tail hv)) hpq) hqr

theorem agrees_body (ns : List Node) : C.Agrees p C.Held (Evaluate.body eval scope ns) := by
  induction ns generalizing p with
  | nil => exact hC.agrees_pure hp (hC.held_simple .null)
  | cons n ns ih =>
    cases n with
    | returnStmt value => exact heval _ hp ho
    | _ =>
      refine hC.agrees_bind (hC.agrees_discard (heval _ hp ho)) fun _ q hq hpq _ => ?_
      exact ih hq (hC.open_later ho hpq)

omit ho in
theorem agrees_invoke (name : Name) {f : Value} {args : List Value} (hf : C.Held f p)
    (ha : ∀ v ∈ args, C.Held v p) : C.Agrees p C.Held (Evaluate.invoke eval name f args) := by
  cases f with
  | native f => exact hC.agrees_libraryCall f hp ha
  | function i x params block closure =>
    have hchild := hC.agrees_scopes hp (hC.child hp (hC.open_closure hp hf))
    refine hC.agrees_bind hchild fun scope q hq hpq hoq => ?_
    refine hC.agrees_bind (hC.agrees_lift hq _) fun ps r hr hqr _ => ?_
    have hor := hC.open_later hoq.1 hqr
    have har : ∀ v ∈ args, C.Held v r := fun v hv => hC.held_later (hC.held_later (ha v hv) hpq) hqr
    refine hC.agrees_bind (hC.agrees_bindParams hr hor ps har) fun _ s hs hrs _ => ?_
    refine hC.agrees_bind (hC.agrees_statementsOf hs block) fun ss t ht hst _ => ?_
    refine hC.agrees_bind (hC.agrees_lift ht _) fun ns u hu htu _ => ?_
    exact hC.agrees_body heval hu
      (hC.open_later (hC.open_later (hC.open_later hor hrs) hst) htu) ns
  | _ => exact hC.agrees_throw hp _

theorem agrees_call (name args : Node) :
    C.Agrees p C.Held (Evaluate.call eval name args scope) := by
  refine hC.agrees_bind (hC.agrees_nameOf hp name) fun x q hq hpq _ => ?_
  have hoq := hC.open_later ho hpq
  refine hC.agrees_bind (hC.agrees_scopes hq (hC.get x hq hoq)) fun f r hr hqr hf => ?_
  have hor := hC.open_later hoq hqr
  refine hC.agrees_bind (hC.agrees_lift hr _) fun ns s hs hrs _ => ?_
  have hos := hC.open_later hor hrs
  refine hC.agrees_bind (hC.agrees_all heval hs hos ns) fun vs t ht hst hvs => ?_
  refine hC.agrees_bind (hC.agrees_log ht _ _) fun _ u hu htu _ => ?_
  have hfu := hC.held_later (hC.held_later (hC.held_later hf hrs) hst) htu
  exact hC.agrees_invoke heval hu x hfu fun v hv => hC.held_later (hvs v hv) htu

theorem agrees_unary (operator operand : Node) :
    C.Agrees p C.Held (Evaluate.unary eval operator operand scope) := by
  refine hC.agrees_bind (heval operand hp ho) fun v q hq hpq _ => ?_
  have hoq := hC.open_later ho hpq
  split
  · refine hC.agrees_bind (hC.agrees_lift hq _) fun b r hr _ _ => ?_
    exact hC.agrees_pure hr (hC.held_simple (.boolean _))
  · split
    · refine hC.agrees_bind (hC.agrees_lift hq _) fun b r hr _ _ => ?_
      exact hC.agrees_pure hr (hC.held_simple (.number _))
    · exact hC.agrees_pure hq (hC.held_simple .null)
  · split
    · refine hC.agrees_bind (hC.agrees_lift hq _) fun next? r hr hqr hn => ?_
      split
      · exact hC.agrees_pure hr (hC.held_simple .null)
      · split
        · refine hC.agrees_bind (hC.agrees_nameOf hr _) fun x s hs hrs _ => ?_
          have hos := hC.open_later (hC.open_later hoq hqr) hrs
          exact hC.agrees_scopes hs (hC.set x hs hos (hC.held_simple (Operator.step?_result hn)))
        · exact hC.agrees_throw hr _
    · exact hC.agrees_throw hq _

theorem agrees_binary (operator left right : Node) :
    C.Agrees p C.Held (Evaluate.binary eval operator left right scope) := by
  refine hC.agrees_bind (heval left hp ho) fun a q hq hpq ha => ?_
  have hoq := hC.open_later ho hpq
  have htruth {r : Forests} (hr : C.Inv r) (hor : C.Open scope r) : C.Agrees r C.Held
      (do return .boolean !(← Run.ofExcept (← eval right scope).isFalsy)) := by
    refine hC.agrees_bind (heval right hr hor) fun b s hs _ _ => ?_
    exact hC.agrees_simple ((hC.agrees_lift hs _).imp fun _ _ _ => trivial) fun _ => .boolean _
  split
  · refine hC.agrees_bind (hC.agrees_lift hq _) fun falsy r hr hqr _ => ?_
    split
    · exact hC.agrees_pure hr (hC.held_simple (.boolean _))
    · exact htruth hr (hC.open_later hoq hqr)
  · refine hC.agrees_bind (hC.agrees_lift hq _) fun falsy r hr hqr _ => ?_
    split
    · exact htruth hr (hC.open_later hoq hqr)
    · exact hC.agrees_pure hr (hC.held_simple (.boolean _))
  · refine hC.agrees_bind (heval right hq hoq) fun b r hr hqr _ => ?_
    refine hC.agrees_bind (hC.agrees_allocate hr _) fun _ s hs hrs _ => ?_
    refine hC.agrees_bind (hC.agrees_freshIdentity hs) fun i t ht hst _ => ?_
    refine hC.agrees_ofExcept ht fun v hv => ?_
    rcases Operator.apply_result hv with h | rfl
    · exact hC.held_simple h
    · exact hC.held_later (hC.held_later (hC.held_later ha hqr) hrs) hst

theorem agrees_arrayLiteral (elems : Node) :
    C.Agrees p C.Held (Evaluate.arrayLiteral eval elems scope) := by
  refine hC.agrees_bind (hC.agrees_lift hp _) fun ns q hq hpq _ => ?_
  refine hC.agrees_bind (hC.agrees_all heval hq (hC.open_later ho hpq) ns) ?_
  intro vs r hr _ hvs
  refine hC.agrees_bind (hC.agrees_freshIdentity hr) fun i s hs hrs _ => ?_
  exact hC.agrees_pure hs (hC.held_array.mpr fun v hv => hC.held_later (hvs v hv) hrs)

theorem agrees_index (target position : Node) :
    C.Agrees p C.Held (Evaluate.index eval target position scope) := by
  refine hC.agrees_bind (heval target hp ho) fun v q hq hpq hv => ?_
  refine hC.agrees_bind (heval position hq (hC.open_later ho hpq)) fun i r hr hqr _ => ?_
  refine hC.agrees_ofExcept hr fun w hw => ?_
  rcases Value.get_result hw with h | ⟨id, items, rfl, hmem⟩
  · exact hC.held_simple h
  · exact hC.held_array.mp (hC.held_later hv hqr) w hmem

/-- One step: the rule of a tree, given that its parts agree. -/
theorem agrees_rule (n : Node) : C.Agrees p C.Held (Evaluate.rule passes eval n scope) := by
  unfold Evaluate.rule
  split
  · refine hC.agrees_bind (hC.agrees_lift hp _) fun x q hq _ _ => ?_
    exact hC.agrees_pure hq (hC.held_simple (.number x))
  · exact hC.agrees_pure hp (hC.held_simple (.string _))
  · exact hC.agrees_pure hp (hC.held_simple (.boolean _))
  · exact hC.agrees_pure hp (hC.held_simple .null)
  · exact hC.agrees_pure hp (hC.held_simple .null)
  · refine hC.agrees_bind (hC.agrees_nameOf hp _) fun x q hq hpq _ => ?_
    exact hC.agrees_scopes hq (hC.get x hq (hC.open_later ho hpq))
  · exact hC.agrees_varDecl heval hp ho _ _ _
  · exact hC.agrees_assign heval hp ho _ _
  · exact hC.agrees_unary heval hp ho _ _
  · exact hC.agrees_binary heval hp ho _ _ _
  · exact hC.agrees_simple (k := fun _ => .null) (hC.agrees_inOwnScope heval hp ho _)
      fun _ => .null
  · exact hC.agrees_ifStmt heval hp ho _ _ _
  · exact hC.agrees_whileStmt heval hp ho _ _
  · exact hC.agrees_forStmt heval hp ho _ _ _ _
  · exact hC.agrees_funcDecl hp ho _ _ _
  · exact hC.agrees_call heval hp ho _ _
  · exact hC.agrees_valueIfAny heval hp ho _
  · refine hC.agrees_bind (hC.agrees_nameOf hp _) fun x q hq hpq _ => ?_
    exact hC.agrees_scopes hq (hC.delete x hq (hC.open_later ho hpq))
  · exact hC.agrees_arrayLiteral heval hp ho _
  · exact hC.agrees_index heval hp ho _ _
  · exact hC.agrees_throw hp _

end Rules

/-- Evaluation ends alike in both runs. -/
theorem agrees_evaluate (passes depth : Nat) {scope : ScopeId} (n : Node) (hp : C.Inv p)
    (ho : C.Open scope p) : C.Agrees p C.Held (evaluate passes depth n scope) := by
  induction depth generalizing p scope n with
  | zero => exact hC.agrees_throw hp _
  | succ depth ih => exact hC.agrees_rule (fun n hq hoq => ih n hq hoq) hp ho n

theorem agrees_statements (echo : Bool) (ns : List Node) (values : List Value) (hp : C.Inv p)
    (ho : C.Open Forest.root p) (hv : ∀ v ∈ values, C.Held v p) :
    C.Agrees p (fun vs q => C.Open Forest.root q ∧ ∀ v ∈ vs, C.Held v q)
      (Session.statements echo values ns) := by
  induction ns generalizing p values with
  | nil => exact hC.agrees_pure hp ⟨ho, fun v h => hv v (List.mem_reverse.mp h)⟩
  | cons n ns ih =>
    refine hC.agrees_bind (hC.agrees_evaluate _ _ n hp ho) fun v q hq hpq hvq => ?_
    have hoq := hC.open_later ho hpq
    have hvs : ∀ w ∈ v :: values, C.Held w q :=
      List.forall_mem_cons.mpr ⟨hvq, fun w hw => hC.held_later (hv w hw) hpq⟩
    have hrest {r : Forests} (hr : C.Inv r) (hqr : C.Later q r) :=
      ih (v :: values) hr (hC.open_later hoq hqr) fun w hw => hC.held_later (hvs w hw) hqr
    split
    · refine hC.agrees_bind (hC.agrees_lift hq _) fun line r hr hqr _ => ?_
      refine hC.agrees_bind (hC.agrees_write hr line) fun _ s hs hrs _ => ?_
      exact hrest hs (hC.trans hqr hrs)
    · exact hrest hq (hC.refl q)

theorem agrees_program (echo : Bool) (tree : Node) (hp : C.Inv p) (ho : C.Open Forest.root p) :
    C.Agrees p (fun vs q => C.Open Forest.root q ∧ ∀ v ∈ vs, C.Held v q)
      (Session.program echo tree) := by
  have hbody : C.Agrees p (fun _ _ => True) (Session.bodyOf tree) := by
    unfold Session.bodyOf
    split
    any_goals exact hC.agrees_pure hp trivial
    exact hC.agrees_throw hp _
  refine hC.agrees_bind hbody fun body q hq hpq _ => ?_
  refine hC.agrees_bind (hC.agrees_lift hq _) fun ns r hr hqr _ => ?_
  exact hC.agrees_statements echo ns [] hr (hC.open_later (hC.open_later ho hpq) hqr) (by simp)

theorem matched_tree (echo : Bool) (tree : Node) (hp : C.Inv p) (ho : C.Open Forest.root p)
    (m : Machine) :
    C.Matched (Session.tree echo tree (m.on C.first p.1))
      (Session.tree echo tree (m.on C.second p.2)) := by
  have h := hC.agrees_program echo tree hp ho m
  unfold Session.tree
  generalize Session.program echo tree (m.on C.first p.1) = r,
    Session.program echo tree (m.on C.second p.2) = r' at h
  cases h with
  | ok n hi _ hv => exact ⟨rfl, n, _, rfl, rfl, hi, hv.1⟩
  | error fault n hi hl => exact ⟨rfl, n, _, rfl, rfl, hi, hC.open_later ho hl⟩

/-- One step of a session. -/
theorem matched_step (echo : Bool) (step : Session.Step) (hp : C.Inv p)
    (ho : C.Open Forest.root p) (m : Machine) :
    C.Matched (step.run echo (m.on C.first p.1)) (step.run echo (m.on C.second p.2)) := by
  cases step with
  | source text =>
    simp only [Session.Step.run, Session.source]
    split
    · exact ⟨rfl, m, p, rfl, rfl, hp, ho⟩
    · exact hC.matched_tree echo _ hp ho m
  | saved tree =>
    simp only [Session.Step.run, Session.saved]
    split
    · exact ⟨rfl, m, p, rfl, rfl, hp, ho⟩
    · exact hC.matched_tree echo _ hp ho m

/-- A whole session. -/
theorem matched_outcomes (steps : List (Bool × Session.Step)) (hp : C.Inv p)
    (ho : C.Open Forest.root p) (m : Machine) :
    List.Forall₂ C.Matched (Session.outcomes steps (m.on C.first p.1))
      (Session.outcomes steps (m.on C.second p.2)) := by
  induction steps generalizing p m with
  | nil => exact .nil
  | cons step steps ih =>
    obtain ⟨echo, step⟩ := step
    have h := hC.matched_step echo step hp ho m
    refine .cons h ?_
    obtain ⟨n, q, h₁, h₂, hq, hoq⟩ := h.machine
    rw [h₁, h₂]
    exact ih hq hoq n

end Stable

end Coupling
end Script
